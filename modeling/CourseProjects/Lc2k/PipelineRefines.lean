import CourseProjects.Lc2k.PipelineStages
import CourseProjects.Lc2k.Schedule

/-!
# The pipeline refines the instruction set

The five-stage loop, run on a loaded program, against a sequential execution of that
program. The invariant (`Inv`) is the pipeline diagram of the execution: the `n`-th
instruction is fetched in the cycle `issue n`, and `d` cycles later it is in the
latch after stage `d`. A latch reached by no instruction holds a noop, or, until the
branch that diverted the fetch is taken, a word that will be cleared (`Vacant`).

* `Inv.step`: a cycle keeps the invariant. A branch taken in MEM finds three
  instructions behind it, all of them fetched in its shadow (`Inv.branch`).
* `run_refines`: the loop stops with the registers and the data memory of the
  execution, after `N + 3 * T + 4` cycles.
-/

namespace CourseProjects.Lc2k.Pipeline

open Execution

variable {im : Memory} {N t : ℕ} {s : State}

/-- What the pipeline asks of an execution: every word it fetches lies in the memory,
    also those after a taken branch or the halt, the destinations of `add` and `nor`
    are register numbers, and operands are written early enough. -/
structure Admissible (e : Execution im N) : Prop where
  noJalr : ∀ n ≤ N, ∀ regA regB, e.instr n ≠ .jalr regA regB
  fetch : ∀ n ≤ N, e.Diverts n → (e.arch n).pc.toNat + 3 < numMemory
  dest : ∀ n ≤ N, (e.word n).toNat / 2 ^ 22 < 2 → (field2 (e.word n)).toNat < numRegs
  hazardFree : e.HazardFree

/-- Before cycle `t` the latch reached `d` cycles after the fetch holds no instruction of
    the execution, nor a word fetched after a diverting instruction still in flight. -/
structure Vacant (e : Execution im N) (d t : ℕ) : Prop where
  noInstr : ∀ n ≤ N, e.issue n + d ≠ t
  noShadow : ∀ n ≤ N, e.Diverts n → e.issue n + d < t → e.issue n + 3 < t ∧ n ≠ N

/-- The pipeline before cycle `t`: the `n`-th instruction is fetched in the cycle
    `issue n` and is in the latch after stage `d` in the cycle `issue n + d`. -/
structure Inv (e : Execution im N) (t : ℕ) (s : State) : Prop where
  cycles : s.cycles = BitVec.ofNat 32 t
  instrMem : s.instrMem = im
  pc : ∀ n ≤ N, e.issue n = t → s.pc = (e.arch n).pc
  shadow : ∀ n ≤ N, e.Diverts n → e.issue n < t → t ≤ e.issue n + 3 →
    s.pc = (e.arch n).pc + BitVec.ofNat 32 (t - e.issue n)
  ifid : ∀ n ≤ N, e.issue n + 1 = t → s.ifid.Holds (e.arch n) (e.word n)
  idex : ∀ n ≤ N, e.issue n + 2 = t → s.idex.Holds (e.arch n) (e.word n) (e.instr n)
  exmem : ∀ n ≤ N, e.issue n + 3 = t → s.exmem.Holds (e.arch n) (e.word n) (e.instr n)
  memwb : ∀ n ≤ N, e.issue n + 4 = t → s.memwb.Holds (e.arch (n + 1)) (e.word n) (e.instr n)
  ifidVacant : Vacant e 1 t → s.ifid.instr = noopInstruction
  idexVacant : Vacant e 2 t → s.idex.instr = noopInstruction
  exmemVacant : Vacant e 3 t → s.exmem.instr = noopInstruction
  memwbVacant : Vacant e 4 t → s.memwb.instr = noopInstruction
  dataMem : ∀ m, e.Front 3 t m → s.dataMem = (e.arch m).mem
  reg : ∀ m, e.Front 4 t m → s.reg = (e.arch m).reg

variable {e : Execution im N}

/-- A latch that an instruction reaches after the branch is decided holds one, or none. -/
theorem vacant_of_forall_ne {d : ℕ} (hd : 3 ≤ d) (ht : t ≤ e.issue N + d)
    (h : ∀ n ≤ N, e.issue n + d ≠ t) : Vacant e d t where
  noInstr := h
  noShadow n hn _ hlt := by
    refine ⟨by omega, ?_⟩
    rintro rfl
    omega

/-- What is fetched in a cycle is no bubble, unless a branch is taken in that cycle. -/
theorem Vacant.of_succ {d : ℕ} (h : Vacant e (d + 1) (t + 1))
    (hs : ∀ n ≤ N, e.issue n + 3 = t → ¬ e.Taken n) : Vacant e d t where
  noInstr n hn hd := h.noInstr n hn (by omega)
  noShadow n hn hdiv hlt := by
    obtain ⟨h3, hN⟩ := h.noShadow n hn hdiv (by omega)
    refine ⟨?_, hN⟩
    by_contra hge
    exact hs n hn (by omega) (hdiv.resolve_right hN)

theorem not_vacant_zero (ht : t ≤ e.issue N + 3) : ¬ Vacant e 0 t := by
  intro h
  obtain ⟨n, hn, hi⟩ | ⟨n, hn, hd, hlt, hle⟩ := issue_cases ht
  · exact h.noInstr n hn hi
  · have := (h.noShadow n hn hd hlt).1
    omega

theorem Inv.init {s : State} (hs : Initialized s) (him : s.instrMem = im)
    (h0 : e.arch 0 = ⟨s.pc, s.reg, s.dataMem⟩) : Inv e 0 s := by
  have hfront : ∀ {d m}, e.Front d 0 m → m = 0 := fun {d m} h => by
    by_contra hm
    exact absurd (h.left 0 (Nat.pos_of_ne_zero hm)) (by omega)
  constructor
  case cycles => exact hs.cycles
  case instrMem => exact him
  case pc =>
    intro n _ hn
    obtain rfl : n = 0 := issue_inj (e := e) hn
    rw [h0]
  case ifidVacant => exact fun _ => hs.ifid
  case idexVacant => exact fun _ => hs.idex
  case exmemVacant => exact fun _ => hs.exmem
  case memwbVacant => exact fun _ => hs.memwb
  case dataMem =>
    intro m hm
    rw [hfront hm, h0]
  case reg =>
    intro m hm
    rw [hfront hm, h0]
  all_goals
    intros
    omega

/-! ### One cycle -/

section Step

variable (h : Inv e t s) (ha : Admissible e) (ht : t ≤ e.issue N + 3)
include h ha ht

/-- IF fetches the instruction due in this cycle. -/
theorem Inv.fetch :
    ∃ i, index numMemory s.pc = some i ∧ ∀ n ≤ N, e.issue n = t → im i = e.word n := by
  obtain ⟨n, hn, hi⟩ | ⟨n, hn, hd, hlt, hle⟩ := issue_cases ht
  · obtain ⟨i, hpc, hw⟩ := Option.map_eq_some_iff.1 (e.fetched n hn)
    refine ⟨i, by rw [h.pc n hn hi, hpc], fun m _ hm => ?_⟩
    rw [hw, issue_inj (e := e) (hi.trans hm.symm)]
  · have hpc := h.shadow n hn hd hlt hle
    have hlt' : s.pc.toNat < numMemory := by
      have := ha.fetch n hn hd
      simp only [hpc, numMemory, BitVec.toNat_add, BitVec.toNat_ofNat] at this ⊢
      omega
    refine ⟨_, index_of_lt hlt', fun m hm hi => ?_⟩
    have := hd.issue_ne hm (by omega)
    omega

/-- ID reads registers that are up to date. -/
theorem Inv.decode {n : ℕ} (hn : n ≤ N) (hi : e.issue n + 1 = t) :
    (decoded s).Holds (e.arch n) (e.word n) (e.instr n) := by
  refine decoded_holds (h.ifid n hn hi) fun r hr => ?_
  obtain ⟨m, hm⟩ := e.exists_front 4 t
  rw [h.reg m hm]
  have hmn : m ≤ n := by
    by_contra hc
    have := hm.left n (Nat.not_le.1 hc)
    omega
  refine ha.hazardFree.reg_eq hn hmn ?_ hr
  have := issue_add_le (e := e) hmn
  obtain rfl | hle := hm.notYet <;> omega

/-- MEM brings the data memory up to date. -/
theorem Inv.mem :
    ∃ dataMem writeData, memData s = some (dataMem, writeData) ∧
      (∀ m, e.Front 3 (t + 1) m → dataMem = (e.arch m).mem) ∧
      ∀ n ≤ N, e.issue n + 3 = t → ∀ r, (e.instr n).Writes r →
        writeData = (e.arch (n + 1)).reg r := by
  by_cases hex : ∃ n < N, e.issue n + 3 = t
  · obtain ⟨n, hn, hi⟩ := hex
    obtain ⟨writeData, hmem, hw⟩ := memData_of_holds
      (decodes_of_decode (e.decoded n hn.le)) (h.exmem n hn.le hi)
      (h.dataMem n (front_of_issue hn.le hi)) (ha.noJalr n hn.le) (e.executed n hn)
    refine ⟨_, writeData, hmem, fun m hm => ?_, fun n' _ hi' => ?_⟩
    · obtain ⟨-, hno⟩ | ⟨n', rfl, hi'⟩ := hm.of_succ
      · exact absurd hi (hno n hn)
      · rw [issue_inj (e := e) (show e.issue n = e.issue n' by omega)]
    · rwa [← issue_inj (e := e) (show e.issue n = e.issue n' by omega)]
  · -- Nothing, or the halt, is in MEM.
    have hidle : opcode s.exmem.instr = 6 ∨ opcode s.exmem.instr = 7 := by
      by_cases hN : e.issue N + 3 = t
      · have hd := decodes_of_decode (e.decoded N le_rfl)
        rw [e.halts] at hd
        cases hd with
        | halt hop =>
          rw [(h.exmem N le_rfl hN).instr]
          exact .inl (opcode_eq hop (by decide))
      · refine .inr ((congrArg opcode (h.exmemVacant ?_)).trans opcode_noopInstruction)
        refine vacant_of_forall_ne le_rfl ht fun n hn hi => ?_
        rcases Nat.lt_or_eq_of_le hn with hlt | rfl
        · exact hex ⟨n, hlt, hi⟩
        · exact hN hi
    refine ⟨_, _, memData_of_idle hidle, fun m hm => ?_, fun n hn hi r hr => ?_⟩
    · obtain ⟨hm', -⟩ | ⟨n, rfl, hi⟩ := hm.of_succ
      · exact h.dataMem m hm'
      · exact absurd ⟨n, hm.le, hi⟩ hex
    · rcases Nat.lt_or_eq_of_le hn with hlt | rfl
      · exact absurd ⟨n, hlt, hi⟩ hex
      · rw [e.halts] at hr
        exact hr.elim

/-- WB brings the registers up to date. -/
theorem Inv.write :
    ∃ reg, regWrite s = some reg ∧ ∀ m, e.Front 4 (t + 1) m → reg = (e.arch m).reg := by
  by_cases hex : ∃ n ≤ N, e.issue n + 4 = t
  · obtain ⟨n, hn, hi⟩ := hex
    have hlt : n < N := by
      by_contra hge
      have := issue_le (e := e) (Nat.not_lt.1 hge)
      omega
    refine ⟨_, regWrite_of_holds (decodes_of_decode (e.decoded n hn)) (h.memwb n hn hi)
      (h.reg n (front_of_issue hn hi)) (ha.dest n hn) (ha.noJalr n hn) (e.executed n hlt),
      fun m hm => ?_⟩
    obtain ⟨-, hno⟩ | ⟨n', rfl, hi'⟩ := hm.of_succ
    · exact absurd hi (hno n hlt)
    · rw [issue_inj (e := e) (show e.issue n = e.issue n' by omega)]
  · have hv : Vacant e 4 t := vacant_of_forall_ne (by decide) (by omega)
      fun n hn hi => hex ⟨n, hn, hi⟩
    refine ⟨_, regWrite_of_noop (h.memwbVacant hv), fun m hm => ?_⟩
    obtain ⟨hm', -⟩ | ⟨n, rfl, hi⟩ := hm.of_succ
    · exact h.reg m hm'
    · exact absurd ⟨n, (Nat.lt_succ_self n).le.trans hm.le, hi⟩ hex

omit ha in
/-- MEM takes the branches that are taken. -/
theorem Inv.squashes_iff : Squashes s ↔ ∃ n ≤ N, e.issue n + 3 = t ∧ e.Taken n := by
  by_cases hex : ∃ n ≤ N, e.issue n + 3 = t
  · obtain ⟨n, hn, hi⟩ := hex
    rw [Pipeline.squashes_iff (decodes_of_decode (e.decoded n hn)) (h.exmem n hn hi)]
    refine ⟨fun htk => ⟨n, hn, hi, htk⟩, fun ⟨n', _, hi', htk⟩ => ?_⟩
    rwa [issue_inj (e := e) (show e.issue n = e.issue n' by omega)]
  · have hv : Vacant e 3 t := vacant_of_forall_ne le_rfl ht fun n hn hi => hex ⟨n, hn, hi⟩
    refine iff_of_false (not_squashes_of_idle (.inr ?_)) fun ⟨n, hn, hi, _⟩ => hex ⟨n, hn, hi⟩
    rw [h.exmemVacant hv]
    exact opcode_noopInstruction

/-- A cycle in which no branch is taken. -/
theorem Inv.noBranch {i : Fin numMemory} {dataMem : Memory} {writeData : Word} {reg : Registers}
    (hw : ∀ n ≤ N, e.issue n = t → im i = e.word n)
    (hdm : ∀ m, e.Front 3 (t + 1) m → dataMem = (e.arch m).mem)
    (hwd : ∀ n ≤ N, e.issue n + 3 = t → ∀ r, (e.instr n).Writes r →
      writeData = (e.arch (n + 1)).reg r)
    (hreg : ∀ m, e.Front 4 (t + 1) m → reg = (e.arch m).reg)
    (hns : ∀ n ≤ N, e.issue n + 3 = t → ¬ e.Taken n) :
    Inv e (t + 1) (advance s i dataMem writeData reg) where
  cycles := by
    simp only [advance, h.cycles, BitVec.ofNat_add]
    rfl
  instrMem := h.instrMem
  pc n hn hi := by
    cases n with
    | zero => exact absurd hi (by simp)
    | succ n =>
      have htk : ¬ e.Taken n := fun htk => by
        rw [issue_succ_of_taken htk] at hi
        exact hns n (by omega) (by omega) htk
      rw [issue_succ_of_not_taken htk] at hi
      rw [exec_pc (e.executed n hn) htk (ha.noJalr n (by omega)),
        ← h.pc n (by omega) (by omega)]
      rfl
  shadow n hn hd hlt hle := by
    rcases Nat.lt_or_eq_of_le (Nat.lt_succ_iff.1 hlt) with hlt | rfl
    · rw [show t + 1 - e.issue n = t - e.issue n + 1 by omega, BitVec.ofNat_add, ← add_assoc,
        ← h.shadow n hn hd hlt (by omega)]
      rfl
    · rw [Nat.add_sub_cancel_left, ← h.pc n hn rfl]
      rfl
  ifid n hn hi := by
    have hi : e.issue n = t := Nat.succ_injective hi
    refine ⟨?_, ?_⟩
    · rw [← hw n hn hi, ← h.instrMem]
      rfl
    · rw [← h.pc n hn hi]
      rfl
  idex n hn hi := h.decode ha ht hn (Nat.succ_injective hi)
  exmem n hn hi :=
    executed_holds (decodes_of_decode (e.decoded n hn)) (h.idex n hn (Nat.succ_injective hi))
  memwb n hn hi :=
    ⟨(h.exmem n hn (Nat.succ_injective hi)).instr, hwd n hn (Nat.succ_injective hi)⟩
  ifidVacant hv := absurd (hv.of_succ hns) (not_vacant_zero ht)
  idexVacant hv := h.ifidVacant (hv.of_succ hns)
  exmemVacant hv := h.idexVacant (hv.of_succ hns)
  memwbVacant hv := h.exmemVacant (hv.of_succ hns)
  dataMem := hdm
  reg := hreg

omit ha ht in
/-- A cycle in which a branch is taken. What the younger stages did is cleared. -/
theorem Inv.branch {b : ℕ} (hb : b ≤ N) (hbi : e.issue b + 3 = t) (htk : e.Taken b)
    {i : Fin numMemory} {dataMem : Memory} {writeData : Word} {reg : Registers}
    (hdm : ∀ m, e.Front 3 (t + 1) m → dataMem = (e.arch m).mem)
    (hwd : ∀ n ≤ N, e.issue n + 3 = t → ∀ r, (e.instr n).Writes r →
      writeData = (e.arch (n + 1)).reg r)
    (hreg : ∀ m, e.Front 4 (t + 1) m → reg = (e.arch m).reg) :
    Inv e (t + 1)
      (squash { advance s i dataMem writeData reg with pc := s.exmem.branchTarget }) := by
  have hbN : b < N := by
    refine lt_of_le_of_ne hb ?_
    rintro rfl
    rw [Taken, e.halts] at htk
    exact htk
  have hnext : e.issue (b + 1) = t + 1 := by rw [issue_succ_of_taken htk, ← hbi]
  -- Nothing was fetched in the three cycles after the branch.
  have hgap : ∀ n ≤ N, ∀ d, 1 ≤ d → d ≤ 3 → e.issue n + d ≠ t + 1 := fun n hn d hd1 hd3 hd => by
    have := Diverts.issue_ne (e := e) (.inl htk) hn (by omega)
    omega
  constructor
  case cycles =>
    simp only [squash, advance, h.cycles, BitVec.ofNat_add]
    rfl
  case instrMem => exact h.instrMem
  case pc =>
    intro n hn hi
    obtain rfl : b + 1 = n := issue_inj (e := e) (hnext.trans hi.symm)
    exact branchTarget_of_holds (h.exmem b hb hbi) htk (e.executed b hbN)
  case shadow =>
    intro n hn hd hlt hle
    have hnb : n ≤ b := by
      by_contra hc
      have := issue_le (e := e) (show b + 1 ≤ n from Nat.not_le.1 hc)
      omega
    have := issue_le (e := e) hnb
    omega
  case ifid => exact fun n hn hi => absurd hi (hgap n hn 1 le_rfl (by decide))
  case idex => exact fun n hn hi => absurd hi (hgap n hn 2 (by decide) (by decide))
  case exmem => exact fun n hn hi => absurd hi (hgap n hn 3 (by decide) le_rfl)
  case memwb =>
    exact fun n hn hi =>
      ⟨(h.exmem n hn (Nat.succ_injective hi)).instr, hwd n hn (Nat.succ_injective hi)⟩
  case ifidVacant => exact fun _ => rfl
  case idexVacant => exact fun _ => rfl
  case exmemVacant => exact fun _ => rfl
  case memwbVacant => exact fun hv => absurd (by omega) (hv.noInstr b hb)
  case dataMem => exact hdm
  case reg => exact hreg

/-- The invariant is kept by every cycle until the halt reaches WB. -/
theorem Inv.step : ∃ s', cycle s = some s' ∧ Inv e (t + 1) s' := by
  obtain ⟨i, hi, hw⟩ := h.fetch ha ht
  obtain ⟨dataMem, writeData, hmem, hdm, hwd⟩ := h.mem ha ht
  obtain ⟨reg, hwrite, hreg⟩ := h.write ha ht
  have hcycle := cycle_eq hi hmem hwrite
  by_cases hs : Squashes s
  · rw [if_pos hs] at hcycle
    obtain ⟨b, hb, hbi, htk⟩ := (h.squashes_iff ht).1 hs
    exact ⟨_, hcycle, h.branch hb hbi htk hdm hwd hreg⟩
  · rw [if_neg hs] at hcycle
    exact ⟨_, hcycle, h.noBranch ha ht hw hdm hwd hreg
      fun n hn hi htk => hs ((h.squashes_iff ht).2 ⟨n, hn, hi, htk⟩)⟩

omit ha in
/-- The simulator does not stop before the halt reaches WB. -/
theorem Inv.halted_eq_false : halted s = false := by
  rw [halted, beq_eq_false_iff_ne]
  by_cases hex : ∃ n ≤ N, e.issue n + 4 = t
  · obtain ⟨n, hn, hi⟩ := hex
    have hlt : n < N := by
      by_contra hge
      have := issue_le (e := e) (Nat.not_lt.1 hge)
      omega
    have hd := decodes_of_decode (e.decoded n hn)
    have hx := e.executed n hlt
    rw [(h.memwb n hn hi).instr]
    cases hin : e.instr n with
    | halt =>
      rw [hin] at hx
      cases hx
    | add | nor | lw | sw | beq | jalr | noop =>
      rw [hin] at hd
      cases hd with | _ hop => rw [opcode_eq hop (by decide)]; decide
  · have hv : Vacant e 4 t := vacant_of_forall_ne (by decide) (by omega)
      fun n hn hi => hex ⟨n, hn, hi⟩
    rw [h.memwbVacant hv, opcode_noopInstruction]
    decide

end Step

/-- The invariant with `n` cycles to go until the halt is in WB. -/
def Remaining (e : Execution im N) (n : ℕ) (s : State) : Prop :=
  ∃ t, t + n = e.issue N + 4 ∧ Inv e t s

theorem Remaining.halted {s : State} (h : Remaining e 0 s) : halted s = true := by
  obtain ⟨t, ht, hs⟩ := h
  have hd := decodes_of_decode (e.decoded N le_rfl)
  rw [e.halts] at hd
  cases hd with
  | halt hop =>
    rw [Pipeline.halted, (hs.memwb N le_rfl ht.symm).instr, opcode_eq hop (by decide)]
    rfl

/-- The pipeline refines the instruction set: on an execution of `N` instructions up to
    the halt, `T` of them taken branches, the loop stops after exactly `N + 3 * T + 4`
    cycles, with the registers and the data memory of the execution. -/
theorem run_refines (e : Execution im N) (ha : Admissible e) (state : State)
    (hinit : Initialized state) (him : state.instrMem = im)
    (h0 : e.arch 0 = ⟨state.pc, state.reg, state.dataMem⟩) :
    ∃ final,
      (∀ fuel, run fuel state =
        if N + 3 * e.takenBranches N + 4 < fuel then .ok final else .error .outOfFuel) ∧
      final.reg = (e.arch N).reg ∧ final.dataMem = (e.arch N).mem ∧
      final.cycles = BitVec.ofNat 32 (N + 3 * e.takenBranches N + 4) := by
  have hstep : ∀ n s, Remaining e (n + 1) s →
      halted s = false ∧ ∃ s', cycle s = some s' ∧ Remaining e n s' := fun n s ⟨t, ht, hs⟩ => by
    obtain ⟨s', hc, hs'⟩ := hs.step ha (by omega)
    exact ⟨hs.halted_eq_false (by omega), s', hc, t + 1, by omega, hs'⟩
  have hstart : Remaining e (e.issue N + 4) state :=
    ⟨0, Nat.zero_add _, Inv.init hinit him h0⟩
  obtain ⟨final, ⟨t, rfl, hf⟩, hrun⟩ :=
    Loop.loop_countdown (fun _ hs => Remaining.halted hs) hstep hstart
  exact ⟨final, hrun, hf.reg N (front_last le_rfl), hf.dataMem N (front_last (by omega)),
    hf.cycles⟩

/-- A load, a taken branch over two words, and a store of the value loaded. -/
def branchProgram : Memory := fun a =>
  [8454152, 16777218, 589825, 25165824, 29360128, 29360128, 12648457, 25165824, 5].getD a 0

/-- The execution of `branchProgram`. -/
def branchExecution : Execution branchProgram 5 :=
  ofHalts (s := ⟨0, fun _ => 0, branchProgram⟩) (by decide +kernel)

theorem run_refines_branchProgram :
    ∃ final, (∀ fuel, run fuel (load branchProgram) =
        if 12 < fuel then .ok final else .error .outOfFuel) ∧
      final.reg 1 = 5 ∧ final.dataMem 9 = 5 ∧ final.cycles = 12 := by
  have ha : Admissible branchExecution :=
    ⟨by decide +kernel, by decide +kernel, by decide +kernel, by decide +kernel⟩
  have hT : branchExecution.takenBranches 5 = 1 := by decide +kernel
  obtain ⟨final, hrun, hreg, hmem, hcycles⟩ :=
    run_refines branchExecution ha (load branchProgram) (initialized_load _) rfl rfl
  rw [hT] at hrun hcycles
  refine ⟨final, hrun, ?_, ?_, hcycles⟩
  · rw [hreg]
    decide +kernel
  · rw [hmem]
    decide +kernel

end CourseProjects.Lc2k.Pipeline
