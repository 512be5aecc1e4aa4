import CourseProjects.Lc2k.Fields

/-!
# The instruction-level simulator

The loop of the first LC-2K simulator: fetch, `cvt`, a `switch` on the opcode, and
`pc++`. Programs and data share one memory. The loop ends after a halt, or where the
pc has passed `endline`, the address of the last word loaded.

The globals set by `cvt` are read in the same round only, and the simulator does not
depend on what it prints; `numMemory`, which bounds the printing, is left out. So are
the checks of the command line and of the input file.

`lw` and `sw` add the unsigned offset field and sign-extend the sum, and `sw` stores
into the registers. A subscript outside its array is undefined, also where the other
array of the struct begins.

* `round_eq_iff`: a round is the step of the instruction set exactly if the
  instruction is not disturbed by this (`Undisturbed`).
* `run_of_undisturbed`: a run of such instructions is a run of the instruction set.
-/

namespace CourseProjects.Lc2k.Simulator

/-! ### The loop -/

abbrev ADD : Word := 0
abbrev NOR : Word := 1
abbrev LW : Word := 2
abbrev SW : Word := 3
abbrev BEQ : Word := 4
abbrev JALR : Word := 5
abbrev HALT : Word := 6

/-- A `stateType`, with the flag `ex` of the loop. -/
structure State extends Arch where
  ex : Bool

/-- The `switch`. -/
def dispatch (g : Globals) (state : State) : Option State := do
  let r1 ← index numRegs g.r1
  let r2 ← index numRegs g.r2
  let rd ← index numRegs g.rd
  if g.opcode = ADD then
    return { state with reg := Function.update state.reg rd (state.reg r1 + state.reg r2) }
  else if g.opcode = NOR then
    return { state with reg := Function.update state.reg rd (~~~(state.reg r1 ||| state.reg r2)) }
  else if g.opcode = LW then
    let i ← index numMemory (convertNum (state.reg r1 + g.offset))
    return { state with reg := Function.update state.reg r2 (state.mem i) }
  else if g.opcode = SW then
    let i ← index numRegs (convertNum (state.reg r1 + g.offset))
    return { state with reg := Function.update state.reg i (state.reg r2) }
  else if g.opcode = BEQ then
    if state.reg r1 = state.reg r2 then
      return { state with pc := state.pc + convertNum g.offset }
    else
      return state
  else if g.opcode = JALR then
    let state := { state with reg := Function.update state.reg r2 (state.pc + 1) }
    return { state with pc := state.reg r1 - 1 }
  else if g.opcode = HALT then
    return { state with pc := state.pc + 1, ex := true }
  else
    return state

/-- The body of the loop, past the test of the pc. -/
def round (state : State) : Option State := do
  let i ← index numMemory state.pc
  let state ← dispatch (cvt (state.mem i)) state
  return { state with pc := state.pc + 1 }

/-- The loop is left: `ex` is set, or the pc is past the last word. -/
def ended (endline : Word) (state : State) : Bool :=
  state.ex || endline.slt state.pc

/-- The loop, for at most `fuel` tests of its conditions. -/
def run (endline : Word) (fuel : ℕ) (state : State) : Except Loop.Stop State :=
  Loop.loop (ended endline) round fuel state

/-! ### The fields -/

theorem index_r1 (w : Word) : index numRegs (cvt w).r1 = some (regField 19 w) :=
  index_shift_and_seven w (by decide)

theorem index_r2 (w : Word) : index numRegs (cvt w).r2 = some (regField 16 w) :=
  index_shift_and_seven w (by decide)

theorem index_rd (w : Word) : index numRegs (cvt w).rd = some (regField 0 w) := by
  have := index_shift_and_seven w (Nat.zero_le 29)
  rwa [BitVec.sshiftRight_zero] at this

theorem cvt_opcode {w : Word} {k : ℕ} (h : w.toNat / 2 ^ 22 = k) (hk : k < 8) :
    (cvt w).opcode = BitVec.ofNat 32 k := by
  apply BitVec.eq_of_toNat_eq
  refine (toNat_shift_and_seven w (by decide)).trans ?_
  rw [h, BitVec.toNat_ofNat]
  omega

/-- The unsigned offset field is off by `2 ^ 16` where the offset is negative. -/
theorem field2_eq (w : Word) :
    field2 w = if (w.setWidth 16).msb then (w.setWidth 16).signExtend 32 + 0x10000#32
      else (w.setWidth 16).signExtend 32 := by
  have hm : (w.setWidth 16).msb = true ↔ (field2 w).toNat / 2 ^ 15 % 2 = 1 := by
    rw [BitVec.msb_eq_decide, BitVec.toNat_setWidth, decide_eq_true_iff, toNat_field2]
    omega
  rw [if_congr hm rfl rfl, ← convertNum_field2, convertNum_eq]
  split
  · rw [BitVec.sub_add_cancel]
  · rfl

/-- The address is converted back to itself if bit 15 is the sign of the offset. -/
def AddrKept (ea : Word) (offset : BitVec 16) : Prop :=
  ea.toNat < 2 ^ 15 ↔ offset.msb = false

instance (ea : Word) (offset : BitVec 16) : Decidable (AddrKept ea offset) :=
  inferInstanceAs (Decidable (_ ↔ _))

/-- The sum that `lw` and `sw` convert is the address, or no address at all. -/
theorem convertNum_sum {reg : Registers} {rA : Fin numRegs} {w : Word}
    (hlt : (effAddr reg rA (w.setWidth 16)).toNat < numMemory) :
    (AddrKept (effAddr reg rA (w.setWidth 16)) (w.setWidth 16) →
      convertNum (reg rA + field2 w) = effAddr reg rA (w.setWidth 16)) ∧
    (¬ AddrKept (effAddr reg rA (w.setWidth 16)) (w.setWidth 16) →
      numMemory ≤ (convertNum (reg rA + field2 w)).toNat) := by
  generalize hea : effAddr reg rA (w.setWidth 16) = ea at hlt ⊢
  rw [effAddr] at hea
  have hlt : ea.toNat < 65536 := hlt
  show _ ∧ (_ → 65536 ≤ _)
  cases hm : (w.setWidth 16).msb with
  | false =>
    have hc : convertNum (reg rA + field2 w) = convertNum ea := by
      rw [field2_eq, hm, if_neg (by decide), hea]
    rw [hc, convertNum_eq]
    rcases Nat.lt_or_ge ea.toNat (2 ^ 15) with h15 | h15
    · rw [if_neg (by omega)]
      exact ⟨fun _ => rfl, fun h => absurd (iff_of_true h15 hm) h⟩
    · rw [if_pos (by omega), BitVec.toNat_sub, BitVec.toNat_ofNat]
      exact ⟨fun h => absurd (h.2 hm) (by omega), fun _ => by omega⟩
  | true =>
    have hsum : (ea + 0x10000#32).toNat = ea.toNat + 2 ^ 16 := by
      rw [BitVec.toNat_add, BitVec.toNat_ofNat]
      omega
    have hc : convertNum (reg rA + field2 w) = convertNum (ea + 0x10000#32) := by
      rw [field2_eq, hm, if_pos rfl, ← BitVec.add_assoc, hea]
    rw [hc, convertNum_eq, hsum]
    rcases Nat.lt_or_ge ea.toNat (2 ^ 15) with h15 | h15
    · rw [if_neg (by omega), hsum]
      exact ⟨fun h => absurd (hm.symm.trans (h.1 h15)) (by decide), fun _ => by omega⟩
    · rw [if_pos (by omega), BitVec.add_sub_cancel]
      refine ⟨fun _ => rfl, fun h => absurd (iff_of_false (by omega) ?_) h⟩
      rw [hm]
      decide

/-! ### One round -/

/-- The instruction does in a round what it is to do: `lw` if its address is kept, and
    `sw`, which stores into the registers, if it stores there and in the memory what
    is there already. -/
def Undisturbed (s : Arch) : Instr → Prop
  | .lw rA _ offset => AddrKept (effAddr s.reg rA offset) offset
  | .sw rA rB offset => offset.msb = false ∧ ∃ j k,
    index numRegs (effAddr s.reg rA offset) = some j ∧
      index numMemory (effAddr s.reg rA offset) = some k ∧
      s.reg j = s.reg rB ∧ s.mem k = s.reg rB
  | _ => True

variable {s s' : Arch} {i : Instr}

theorem round_eq {k : Fin numMemory} (hk : index numMemory s.pc = some k) :
    round ⟨s, false⟩ = (dispatch (cvt (s.mem k)) ⟨s, false⟩).bind
      fun state => some { state with pc := state.pc + 1 } := by
  rw [round, hk]
  rfl

theorem dispatch_lw {w : Word} (h : w.toNat / 2 ^ 22 = 2) (state : State) :
    dispatch (cvt w) state =
      (index numMemory (convertNum (state.reg (regField 19 w) + field2 w))).bind fun i =>
        some { state with reg := Function.update state.reg (regField 16 w) (state.mem i) } := by
  rw [dispatch, index_r1, index_r2, index_rd, cvt_opcode h (by decide)]
  rfl

theorem dispatch_sw {w : Word} (h : w.toNat / 2 ^ 22 = 3) (state : State) :
    dispatch (cvt w) state =
      (index numRegs (convertNum (state.reg (regField 19 w) + field2 w))).bind fun i =>
        some { state with reg := Function.update state.reg i (state.reg (regField 16 w)) } := by
  rw [dispatch, index_r1, index_r2, index_rd, cvt_opcode h (by decide)]
  rfl

theorem dispatch_beq {w : Word} (h : w.toNat / 2 ^ 22 = 4) (state : State) :
    dispatch (cvt w) state =
      if state.reg (regField 19 w) = state.reg (regField 16 w) then
        some { state with pc := state.pc + convertNum (field2 w) }
      else some state := by
  rw [dispatch, index_r1, index_r2, index_rd, cvt_opcode h (by decide)]
  rfl

/-- The round of `sw`: what it stores into the registers against what it is to store
    into the memory. -/
theorem store_eq_iff {rA rB : Fin numRegs} {offset : BitVec 16} {sum : Word} {k : Fin numMemory}
    (hkept : AddrKept (effAddr s.reg rA offset) offset → sum = effAddr s.reg rA offset)
    (hlost : ¬ AddrKept (effAddr s.reg rA offset) offset → numMemory ≤ sum.toNat)
    (hk : index numMemory (effAddr s.reg rA offset) = some k) :
    (((index numRegs sum).bind fun j =>
        some (State.mk { s with reg := Function.update s.reg j (s.reg rB) } false)).bind
          fun state => some { state with pc := state.pc + 1 }) =
      some ⟨{ s with pc := s.pc + 1, mem := Function.update s.mem k (s.reg rB) }, false⟩ ↔
    Undisturbed s (.sw rA rB offset) := by
  cases hj : index numRegs sum with
  | none =>
    refine iff_of_false (by simp) fun ⟨hm, j, _, hj', _⟩ => ?_
    have hlt : (effAddr s.reg rA offset).toNat < 8 := index_eq_some hj' ▸ j.isLt
    rw [hkept (iff_of_true (by omega) hm), hj'] at hj
    cases hj
  | some j =>
    have hlt : sum.toNat < 8 := index_eq_some hj ▸ j.isLt
    have hok : AddrKept (effAddr s.reg rA offset) offset := by
      by_contra h
      have : 65536 ≤ sum.toNat := hlost h
      omega
    rw [hkept hok] at hj hlt
    have hm : offset.msb = false := hok.1 (by omega)
    simp only [Option.bind_some, Option.some.injEq, State.mk.injEq, Arch.mk.injEq, true_and,
      and_true, Undisturbed, hm, hj, hk, Function.update_eq_self_iff,
      Function.eq_update_self_iff]
    exact ⟨fun ⟨hr, hmem⟩ => ⟨j, k, rfl, rfl, hr.symm, hmem⟩,
      fun ⟨_, _, hj, hk, hr, hmem⟩ => by subst hj hk; exact ⟨hr.symm, hmem⟩⟩

/-- A round of an instruction is its execution exactly if it is not disturbed. -/
theorem round_eq_iff (hc : current s.mem s = some i) (hx : exec s i = some s') :
    round ⟨s, false⟩ = some ⟨s', false⟩ ↔ Undisturbed s i := by
  obtain ⟨w, hf, hd⟩ := Option.bind_eq_some_iff.1 hc
  obtain ⟨k, hk, rfl⟩ := Option.map_eq_some_iff.1 hf
  rw [round_eq hk]
  cases decodes_of_decode hd with
  | add h | nor h | noop h =>
    cases hx
    rw [dispatch, index_r1, index_r2, index_rd, cvt_opcode h (by decide)]
    exact iff_of_true rfl trivial
  | lw h =>
    obtain ⟨j, hj, hx⟩ := Option.bind_eq_some_iff.1 hx
    cases hx
    obtain ⟨hkept, hlost⟩ := convertNum_sum (index_eq_some hj ▸ j.isLt)
    rw [dispatch_lw h]
    by_cases hok : AddrKept (effAddr s.reg (regField 19 (s.mem k)) ((s.mem k).setWidth 16))
        ((s.mem k).setWidth 16)
    · rw [hkept hok, hj]
      exact iff_of_true rfl hok
    · rw [index_eq_none (hlost hok)]
      exact iff_of_false (by simp) hok
  | sw h =>
    obtain ⟨j, hj, hx⟩ := Option.bind_eq_some_iff.1 hx
    cases hx
    obtain ⟨hkept, hlost⟩ := convertNum_sum (index_eq_some hj ▸ j.isLt)
    rw [dispatch_sw h]
    exact store_eq_iff hkept hlost hj
  | beq h =>
    cases hx
    refine iff_of_true ?_ trivial
    rw [dispatch_beq h, ← convertNum_field2]
    split
    · rw [Option.bind_some, add_right_comm]
    · rw [Option.bind_some]
  | jalr h =>
    cases hx
    refine iff_of_true ?_ trivial
    rw [dispatch, index_r1, index_r2, index_rd, cvt_opcode h (by decide)]
    exact congrArg (fun pc => some (State.mk ⟨pc, _, _⟩ false)) (sub_add_cancel _ _)
  | halt h => cases hx

/-! ### Runs -/

/-- The loop gets to the state after `n` steps, if no instruction on the way is
    disturbed and the pc stays within the program. -/
theorem run_of_undisturbed {endline : Word} {n : ℕ} (hn : afterShared s n = some s')
    (hok : ∀ m < n, ∀ a, afterShared s m = some a →
      endline.slt a.pc = false ∧ ∀ i, current a.mem a = some i → Undisturbed a i) (fuel : ℕ) :
    run endline (n + fuel) ⟨s, false⟩ = run endline fuel ⟨s', false⟩ := by
  induction n generalizing s' fuel with
  | zero =>
    cases hn
    rw [Nat.zero_add]
  | succ n ih =>
    rw [afterShared, Loop.iter_succ] at hn
    obtain ⟨a, ha, hstep⟩ := Option.bind_eq_some_iff.1 hn
    obtain ⟨i, hi, hx⟩ := Option.bind_eq_some_iff.1 hstep
    obtain ⟨hpc, hund⟩ := hok n (Nat.lt_succ_self n) a ha
    have hround := (round_eq_iff hi hx).2 (hund i hi)
    rw [Nat.add_right_comm, Nat.add_assoc, ih ha fun m hm => hok m (hm.trans (Nat.lt_succ_self n))]
    simp only [run, Loop.loop, ended, hpc, Bool.or_self, Bool.false_eq_true, if_false, hround]

/-- A halt ends the loop, with the pc two words on. -/
theorem run_of_halt {endline : Word} (hc : current s.mem s = some .halt)
    (hpc : endline.slt s.pc = false) (fuel : ℕ) :
    run endline (fuel + 2) ⟨s, false⟩ = .ok ⟨{ s with pc := s.pc + 1 + 1 }, true⟩ := by
  obtain ⟨w, hf, hd⟩ := Option.bind_eq_some_iff.1 hc
  obtain ⟨k, hk, rfl⟩ := Option.map_eq_some_iff.1 hf
  cases decodes_of_decode hd with
  | halt h =>
    have hround : round ⟨s, false⟩ = some ⟨{ s with pc := s.pc + 1 + 1 }, true⟩ := by
      rw [round_eq hk, dispatch, index_r1, index_r2, index_rd, cvt_opcode h (by decide)]
      rfl
    simp [run, Loop.loop, ended, hpc, hround]

/-- The simulator against the instruction set: a round is right exactly if its instruction
    is not disturbed, and a run of such instructions goes through the states of the
    sequential semantics, up to the halt. -/
theorem simulator_correct (s : Arch) :
    (∀ s' i, current s.mem s = some i → exec s i = some s' →
      (round ⟨s, false⟩ = some ⟨s', false⟩ ↔ Undisturbed s i)) ∧
    ∀ endline n s', afterShared s n = some s' →
      (∀ m < n, ∀ a, afterShared s m = some a →
        endline.slt a.pc = false ∧ ∀ i, current a.mem a = some i → Undisturbed a i) →
      (∀ fuel, run endline (n + fuel) ⟨s, false⟩ = run endline fuel ⟨s', false⟩) ∧
      (current s'.mem s' = some .halt → endline.slt s'.pc = false → ∀ fuel,
        run endline (n + (fuel + 2)) ⟨s, false⟩ =
          .ok ⟨{ s' with pc := s'.pc + 1 + 1 }, true⟩) := by
  refine ⟨fun s' i => round_eq_iff, fun endline n s' hn hok => ?_⟩
  have hrun := run_of_undisturbed hn hok
  exact ⟨hrun, fun hc hpc fuel => (hrun _).trans (run_of_halt hc hpc fuel)⟩

/-- A program that loads the word after its halt. -/
def loadProgram : Arch := ⟨0, fun _ => 0, fun a => [8454146, 25165824, 21].getD a 0⟩

theorem simulator_correct_loadProgram :
    ∃ final, run 2 3 ⟨loadProgram, false⟩ = .ok final ∧ final.reg 1 = 21 := by
  obtain ⟨s', hs'⟩ := Option.isSome_iff_exists.1
    (show (afterShared loadProgram 1).isSome by decide +kernel)
  have hok : ∀ m < 1, ∀ a, afterShared loadProgram m = some a →
      (2 : Word).slt a.pc = false ∧ ∀ i, current a.mem a = some i → Undisturbed a i := by
    intro m hm a ha
    obtain rfl := Nat.lt_one_iff.1 hm
    cases ha
    refine ⟨by decide, fun i hi => ?_⟩
    rw [show current loadProgram.mem loadProgram = some (.lw 0 1 2) by decide +kernel] at hi
    cases hi
    show AddrKept _ _
    decide +kernel
  have hhalt : (afterShared loadProgram 1).map (fun a => (current a.mem a, a.pc, a.reg 1)) =
      some (some .halt, 1, 21) := by decide +kernel
  simp only [hs', Option.map_some, Option.some.injEq, Prod.mk.injEq] at hhalt
  obtain ⟨hc, hpc, hreg⟩ := hhalt
  exact ⟨_, ((simulator_correct loadProgram).2 2 1 s' hs' hok).2 hc (by rw [hpc]; decide) 0, hreg⟩

/-- A program that stores its first word, where the register 2 is another. -/
def storeProgram : Arch := ⟨0, fun r => if r = 1 then 7 else 0, fun a => [12648450].getD a 0⟩

/-- A round of `sw` leaves the memory as it was. -/
theorem round_loses_store :
    ¬ ∀ (s s' : Arch) (i : Instr), current s.mem s = some i → exec s i = some s' →
      round ⟨s, false⟩ = some ⟨s', false⟩ := by
  intro h
  obtain ⟨s', hs'⟩ := Option.isSome_iff_exists.1
    (show (exec storeProgram (.sw 0 1 2)).isSome by decide +kernel)
  have hr := h storeProgram s' (.sw 0 1 2) (by decide +kernel) hs'
  have hround : (round ⟨storeProgram, false⟩).map (fun state => state.mem 2) = some 0 := by
    decide +kernel
  have hexec : (exec storeProgram (.sw 0 1 2)).map (fun a => a.mem 2) = some 7 := by
    decide +kernel
  rw [hr] at hround
  rw [hs'] at hexec
  simp only [Option.map_some, Option.some.injEq] at hround hexec
  rw [hround] at hexec
  exact absurd hexec (by decide)

end CourseProjects.Lc2k.Simulator
