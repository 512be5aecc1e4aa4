import CourseProjects.Lc2k.Pipeline

/-!
# The stages of the pipeline

What each stage of a cycle does to an instruction of a sequential execution. A
latch that holds an instruction (`IFID.Holds`, `IDEX.Holds`, `EXMEM.Holds`,
`MEMWB.Holds`) has in its fields what the sequential semantics reads and computes
in the state before that instruction.

* `cycle_eq`: a cycle in one piece, with the effects of MEM (`memData`) and WB
  (`regWrite`) apart.
* `decoded_holds`, `executed_holds`, `memData_of_holds`, `regWrite_of_holds`: one
  lemma for each stage.
* `squashes_iff`: a branch is taken in MEM exactly if the semantics takes it.
-/

namespace CourseProjects.Lc2k.Pipeline

/-! ### A cycle in one piece -/

/-- The instruction in MEM is a taken branch. -/
def Squashes (s : State) : Prop :=
  opcode s.exmem.instr = BEQ ∧ s.exmem.aluResult = 0

instance (s : State) : Decidable (Squashes s) := inferInstanceAs (Decidable (_ ∧ _))

/-- What the MEM stage leaves in the data memory and passes on to WB. -/
def memData (s : State) : Option (Memory × Word) :=
  if opcode s.exmem.instr = ADD ∨ opcode s.exmem.instr = NOR then
    some (s.dataMem, s.exmem.aluResult)
  else if opcode s.exmem.instr = LW then
    (index numMemory s.exmem.aluResult).map fun i => (s.dataMem, s.dataMem i)
  else if opcode s.exmem.instr = SW then
    (index numMemory s.exmem.aluResult).map fun i =>
      (Function.update s.dataMem i s.exmem.readRegB, s.memwb.writeData)
  else some (s.dataMem, s.memwb.writeData)

/-- What the WB stage leaves in the registers. -/
def regWrite (s : State) : Option Registers :=
  if opcode s.memwb.instr = 2 then
    (index numRegs (field1 s.memwb.instr)).map fun i =>
      Function.update s.reg i s.memwb.writeData
  else if opcode s.memwb.instr = 0 ∨ opcode s.memwb.instr = 1 then
    (index numRegs (field2 s.memwb.instr)).map fun i =>
      Function.update s.reg i s.memwb.writeData
  else some s.reg

/-- What ID passes on to EX. -/
def decoded (s : State) : IDEX where
  instr := s.ifid.instr
  pcPlus1 := s.ifid.pcPlus1
  readRegA := s.reg (regField 19 s.ifid.instr)
  readRegB := s.reg (regField 16 s.ifid.instr)
  offset := (s.ifid.instr.setWidth 16).signExtend 32

/-- What EX passes on to MEM. -/
def executed (s : State) : EXMEM where
  instr := s.idex.instr
  branchTarget := s.idex.pcPlus1 + s.idex.offset
  aluResult := alu s.idex s.exmem.aluResult
  readRegB := s.idex.readRegB

/-- The next state, as long as no branch is taken. -/
def advance (s : State) (i : Fin numMemory) (dataMem : Memory) (writeData : Word)
    (reg : Registers) : State where
  pc := s.pc + 1
  instrMem := s.instrMem
  dataMem := dataMem
  reg := reg
  ifid := ⟨s.instrMem i, s.pc + 1⟩
  idex := decoded s
  exmem := executed s
  memwb := ⟨s.exmem.instr, writeData⟩
  wbend := ⟨s.memwb.instr, s.memwb.writeData⟩
  cycles := s.cycles + 1

theorem memStage_eq {s newState : State} {dataMem : Memory} {writeData : Word}
    (hd : newState.dataMem = s.dataMem) (hw : newState.memwb = s.memwb)
    (hm : memData s = some (dataMem, writeData)) :
    memStage s newState = some (if Squashes s then
      squash { newState with
        pc := s.exmem.branchTarget, dataMem, memwb := ⟨s.exmem.instr, writeData⟩ }
      else { newState with dataMem, memwb := ⟨s.exmem.instr, writeData⟩ }) := by
  unfold memData at hm
  unfold memStage
  by_cases hAlu : opcode s.exmem.instr = ADD ∨ opcode s.exmem.instr = NOR
  · have hs : ¬ Squashes s := fun h => by rcases hAlu with h' | h' <;> cases h'.symm.trans h.1
    rw [if_pos hAlu] at hm ⊢
    cases hm
    rw [if_neg hs, ← hd]
    rfl
  rw [if_neg hAlu] at hm ⊢
  by_cases hLw : opcode s.exmem.instr = LW
  · have hs : ¬ Squashes s := fun h => by cases hLw.symm.trans h.1
    rw [if_pos hLw] at hm ⊢
    obtain ⟨i, hi, hm⟩ := Option.map_eq_some_iff.1 hm
    cases hm
    rw [if_neg hs, hi, ← hd]
    rfl
  rw [if_neg hLw] at hm ⊢
  by_cases hSw : opcode s.exmem.instr = SW
  · have hs : ¬ Squashes s := fun h => by cases hSw.symm.trans h.1
    rw [if_pos hSw] at hm ⊢
    obtain ⟨i, hi, hm⟩ := Option.map_eq_some_iff.1 hm
    cases hm
    rw [if_neg hs, hi, ← hd, ← hw]
    rfl
  rw [if_neg hSw] at hm ⊢
  cases hm
  by_cases hs : opcode s.exmem.instr = BEQ ∧ s.exmem.aluResult = 0
  · rw [if_pos hs, if_pos (show Squashes s from hs), ← hd, ← hw]
    rfl
  · rw [if_neg hs, if_neg (show ¬ Squashes s from hs), ← hd, ← hw]
    rfl

theorem wbStage_eq {s newState : State} {reg : Registers} (hreg : newState.reg = s.reg)
    (hr : regWrite s = some reg) :
    wbStage s newState = some { newState with
      reg, wbend := ⟨s.memwb.instr, s.memwb.writeData⟩ } := by
  unfold regWrite at hr
  unfold wbStage
  split at hr
  · obtain ⟨i, hi, rfl⟩ := Option.map_eq_some_iff.1 hr
    rw [if_pos ‹_›, hi, ← hreg]
    rfl
  · rw [if_neg ‹_›]
    split at hr
    · obtain ⟨i, hi, rfl⟩ := Option.map_eq_some_iff.1 hr
      rw [if_pos ‹_›, hi, ← hreg]
      rfl
    · cases hr
      rw [if_neg ‹_›, ← hreg]
      rfl

/-- A cycle in which every subscript is in range. -/
theorem cycle_eq {s : State} {i : Fin numMemory} {dataMem : Memory} {writeData : Word}
    {reg : Registers} (hi : index numMemory s.pc = some i)
    (hm : memData s = some (dataMem, writeData)) (hr : regWrite s = some reg) :
    cycle s = some (if Squashes s then
      squash { advance s i dataMem writeData reg with pc := s.exmem.branchTarget }
      else advance s i dataMem writeData reg) := by
  unfold cycle ifStage idStage
  rw [hi, index_field0, index_field1, convertNum_field2]
  simp only [Option.pure_def, Option.bind_eq_bind, Option.bind_some]
  rw [memStage_eq (by rfl) (by rfl) hm, Option.bind_some]
  split
  · rw [wbStage_eq (by rfl) hr]
    rfl
  · rw [wbStage_eq (by rfl) hr]
    rfl

/-! ### What the latches hold -/

/-- The latch holds the word `w` fetched in the state `a`. -/
structure IFID.Holds (l : IFID) (a : Arch) (w : Word) : Prop where
  instr : l.instr = w
  pcPlus1 : l.pcPlus1 = a.pc + 1

/-- The latch holds the instruction `i` with what it reads in the state `a`. -/
structure IDEX.Holds (l : IDEX) (a : Arch) (w : Word) (i : Instr) : Prop where
  instr : l.instr = w
  pcPlus1 : l.pcPlus1 = a.pc + 1
  readRegA : i.Reads (regField 19 w) → l.readRegA = a.reg (regField 19 w)
  readRegB : i.Reads (regField 16 w) → l.readRegB = a.reg (regField 16 w)
  offset : l.offset = (w.setWidth 16).signExtend 32

/-- The fields that the MEM stage of an instruction uses. -/
def EXMEM.Result (l : EXMEM) (a : Arch) : Instr → Prop
  | .add rA rB _ => l.aluResult = a.reg rA + a.reg rB
  | .nor rA rB _ => l.aluResult = ~~~(a.reg rA ||| a.reg rB)
  | .lw rA _ offset => l.aluResult = effAddr a.reg rA offset
  | .sw rA rB offset => l.aluResult = effAddr a.reg rA offset ∧ l.readRegB = a.reg rB
  | .beq rA rB offset =>
    l.aluResult = a.reg rA - a.reg rB ∧ l.branchTarget = a.pc + 1 + offset.signExtend 32
  | .jalr .. | .halt | .noop => True

/-- The latch holds the instruction `i` with its results in the state `a`. -/
structure EXMEM.Holds (l : EXMEM) (a : Arch) (w : Word) (i : Instr) : Prop where
  instr : l.instr = w
  result : l.Result a i

/-- The latch holds the instruction `i` with the value it writes; `a'` is the state
    after it. -/
structure MEMWB.Holds (l : MEMWB) (a' : Arch) (w : Word) (i : Instr) : Prop where
  instr : l.instr = w
  writeData : ∀ r, i.Writes r → l.writeData = a'.reg r

variable {s : State} {a a' : Arch} {w : Word} {i : Instr}

/-- The ID stage, if the registers it reads are up to date. -/
theorem decoded_holds (hl : s.ifid.Holds a w) (hr : ∀ r, i.Reads r → s.reg r = a.reg r) :
    (decoded s).Holds a w i := by
  obtain ⟨rfl, hpc⟩ := hl
  exact ⟨rfl, hpc, hr _, hr _, rfl⟩

/-- The EX stage. -/
theorem executed_holds (hd : Decodes w i) (hl : s.idex.Holds a w i) :
    (executed s).Holds a w i := by
  obtain ⟨rfl, hpc, hA, hB, hoff⟩ := hl
  refine ⟨rfl, ?_⟩
  cases hd with
  | add h | nor h =>
    have ho := opcode_eq h (by decide)
    simp only [EXMEM.Result, executed, alu, ho, ← hA (.inl rfl), ← hB (.inr rfl)]
    rfl
  | lw h =>
    have ho := opcode_eq h (by decide)
    simp only [EXMEM.Result, executed, alu, ho, effAddr, ← hA rfl, ← hoff]
    rfl
  | sw h =>
    have ho := opcode_eq h (by decide)
    simp only [EXMEM.Result, executed, alu, ho, effAddr, ← hA (.inl rfl), ← hB (.inr rfl), ← hoff]
    exact ⟨rfl, trivial⟩
  | beq h =>
    have ho := opcode_eq h (by decide)
    simp only [EXMEM.Result, executed, alu, ho, ← hA (.inl rfl), ← hB (.inr rfl), ← hoff, hpc]
    exact ⟨rfl, trivial⟩
  | jalr h | halt h | noop h => trivial

/-- The MEM stage. -/
theorem memData_of_holds (hd : Decodes w i) (hl : s.exmem.Holds a w i)
    (hm : s.dataMem = a.mem) (hj : ∀ rA rB, i ≠ .jalr rA rB) (hx : exec a i = some a') :
    ∃ writeData, memData s = some (a'.mem, writeData) ∧
      ∀ r, i.Writes r → writeData = a'.reg r := by
  obtain ⟨rfl, hres⟩ := hl
  cases hd with
  | add h | nor h =>
    cases hx
    refine ⟨s.exmem.aluResult, ?_, ?_⟩
    · rw [memData, opcode_eq h (by decide), hm]
      rfl
    · rintro r rfl
      simp only [Function.update_self]
      exact hres
  | lw h =>
    obtain ⟨j, hj, hx⟩ := Option.bind_eq_some_iff.1 hx
    cases hx
    refine ⟨a.mem j, ?_, ?_⟩
    · rw [memData, opcode_eq h (by decide), hm, hres, hj]
      rfl
    · rintro r rfl
      simp only [Function.update_self]
  | sw h =>
    obtain ⟨hea, hB⟩ := hres
    obtain ⟨j, hj, hx⟩ := Option.bind_eq_some_iff.1 hx
    cases hx
    refine ⟨s.memwb.writeData, ?_, fun r hr => hr.elim⟩
    rw [memData, opcode_eq h (by decide), hm, hea, hj, hB]
    rfl
  | beq h | noop h =>
    cases hx
    refine ⟨s.memwb.writeData, ?_, fun r hr => hr.elim⟩
    rw [memData, opcode_eq h (by decide), hm]
    rfl
  | jalr h => exact absurd rfl (hj _ _)
  | halt h => cases hx

/-- The branch is taken in the MEM stage if it is to be. -/
theorem squashes_iff (hd : Decodes w i) (hl : s.exmem.Holds a w i) :
    Squashes s ↔ i.Taken a := by
  obtain ⟨rfl, hres⟩ := hl
  cases hd with
  | beq h =>
    rw [Squashes, opcode_eq h (by decide), hres.1]
    exact ⟨fun h => sub_eq_zero.1 h.2, fun h => ⟨rfl, sub_eq_zero.2 h⟩⟩
  | add h | nor h | lw h | sw h | jalr h | halt h | noop h =>
    rw [Squashes, opcode_eq h (by decide)]
    exact ⟨fun h => absurd h.1 (by decide), fun h => h.elim⟩

theorem branchTarget_of_holds (hl : s.exmem.Holds a w i) (ht : i.Taken a)
    (hx : exec a i = some a') : s.exmem.branchTarget = a'.pc := by
  cases i with
  | beq rA rB offset =>
    cases hx
    exact hl.result.2.trans (if_pos ht).symm
  | add | nor | lw | sw | jalr | halt | noop => exact ht.elim

/-- An instruction sets the register it writes, and only that one. -/
theorem update_reg_of_writes {d : Fin numRegs} {writeData : Word}
    (hd : ∀ r, i.Writes r ↔ r = d) (hwd : ∀ r, i.Writes r → writeData = a'.reg r)
    (hx : exec a i = some a') : Function.update a.reg d writeData = a'.reg := by
  funext r
  by_cases hr : r = d
  · rw [hr, Function.update_self]
    exact hwd d ((hd d).2 rfl)
  · rw [Function.update_of_ne hr]
    exact (exec_reg_of_not_writes hx fun h => hr ((hd r).1 h)).symm

/-- The WB stage. -/
theorem regWrite_of_holds (hd : Decodes w i) (hl : s.memwb.Holds a' w i)
    (hreg : s.reg = a.reg) (hdest : w.toNat / 2 ^ 22 < 2 → (field2 w).toNat < numRegs)
    (hj : ∀ rA rB, i ≠ .jalr rA rB) (hx : exec a i = some a') :
    regWrite s = some a'.reg := by
  obtain ⟨rfl, hwd⟩ := hl
  cases hd with
  | add h | nor h =>
    have hf := index_field2 (hdest (by rw [h]; decide))
    rw [regWrite, opcode_eq h (by decide), hf, hreg]
    exact congrArg some (update_reg_of_writes (fun r => Iff.rfl) hwd hx)
  | lw h =>
    rw [regWrite, opcode_eq h (by decide), index_field1, hreg]
    exact congrArg some (update_reg_of_writes (fun r => Iff.rfl) hwd hx)
  | sw h =>
    rw [regWrite, opcode_eq h (by decide), hreg]
    obtain ⟨j, -, hx⟩ := Option.bind_eq_some_iff.1 hx
    cases hx
    rfl
  | beq h | noop h =>
    rw [regWrite, opcode_eq h (by decide), hreg]
    cases hx
    rfl
  | jalr h => exact absurd rfl (hj _ _)
  | halt h => cases hx

/-- What a latch holds when an instruction that was not to be executed is cleared. -/
theorem opcode_noopInstruction : opcode noopInstruction = 7 := by decide

theorem memData_of_idle (h : opcode s.exmem.instr = 6 ∨ opcode s.exmem.instr = 7) :
    memData s = some (s.dataMem, s.memwb.writeData) := by
  unfold memData
  rcases h with h | h <;> rw [h] <;> rfl

theorem not_squashes_of_idle (h : opcode s.exmem.instr = 6 ∨ opcode s.exmem.instr = 7) :
    ¬ Squashes s := by
  rintro ⟨hb, -⟩
  rcases h with h | h <;> cases h.symm.trans hb

theorem regWrite_of_noop (h : s.memwb.instr = noopInstruction) : regWrite s = some s.reg := by
  rw [regWrite, h]
  rfl

end CourseProjects.Lc2k.Pipeline
