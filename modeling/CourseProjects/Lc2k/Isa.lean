import CourseProjects.Lib.Loop

/-!
# The LC-2K instruction set

The sequential semantics of LC-2K that the simulators and the assembler are
measured against. A word has its opcode in bits 24..22, `regA` in bits 21..19,
`regB` in bits 18..16, and below them the destination register of `add` and `nor`
(bits 2..0) or the signed offset of `lw`, `sw` and `beq` (bits 15..0). Bits 31..25
are zero: any other word is no instruction.

An `int` of the C programs is a word of 32 bits and its arithmetic wraps. An
array of `n` of them is a function on `Fin n`, and a subscript outside it is
undefined behaviour (`index`).

* `step`: fetch, decode and execute one instruction; `after` iterates it.
* `Reads`, `Writes`: the registers an instruction depends on and changes.
* `exec_reg_of_not_writes`: an instruction changes no other register.
-/

namespace CourseProjects.Lc2k

/-- A C `int`. -/
abbrev Word := BitVec 32

/-- An array of `NUMMEMORY` ints. -/
abbrev numMemory : ℕ := 65536
abbrev Memory := Fin numMemory → Word

/-- An array of `NUMREGS` ints. -/
abbrev numRegs : ℕ := 8
abbrev Registers := Fin numRegs → Word

/-- The subscript `w` into an array of `n` elements; a negative one is too large. -/
def index (n : ℕ) (w : Word) : Option (Fin n) :=
  if h : w.toNat < n then some ⟨w.toNat, h⟩ else none

theorem index_of_lt {n : ℕ} {w : Word} (h : w.toNat < n) : index n w = some ⟨w.toNat, h⟩ :=
  dif_pos h

theorem index_eq_none {n : ℕ} {w : Word} (h : n ≤ w.toNat) : index n w = none :=
  dif_neg (Nat.not_lt.2 h)

theorem index_eq_some {n : ℕ} {w : Word} {i : Fin n} (h : index n w = some i) : w.toNat = i := by
  unfold index at h
  split at h
  · cases h
    rfl
  · cases h

/-- The instructions. -/
inductive Instr
  | add (regA regB destReg : Fin numRegs)
  | nor (regA regB destReg : Fin numRegs)
  | lw (regA regB : Fin numRegs) (offset : BitVec 16)
  | sw (regA regB : Fin numRegs) (offset : BitVec 16)
  | beq (regA regB : Fin numRegs) (offset : BitVec 16)
  | jalr (regA regB : Fin numRegs)
  | halt
  | noop
  deriving DecidableEq

/-- The register number in the three bits of `w` from bit `k` on. -/
def regField (k : ℕ) (w : Word) : Fin numRegs :=
  ⟨w.toNat / 2 ^ k % numRegs, Nat.mod_lt _ (by decide)⟩

/-- The instruction a word stands for. -/
def decode (w : Word) : Option Instr :=
  let regA := regField 19 w
  let regB := regField 16 w
  let destReg := regField 0 w
  let offset := w.setWidth 16
  match w.toNat / 2 ^ 22 with
  | 0 => some (.add regA regB destReg)
  | 1 => some (.nor regA regB destReg)
  | 2 => some (.lw regA regB offset)
  | 3 => some (.sw regA regB offset)
  | 4 => some (.beq regA regB offset)
  | 5 => some (.jalr regA regB)
  | 6 => some .halt
  | 7 => some .noop
  | _ => none

/-- The words that are instructions, by their opcode. -/
inductive Decodes (w : Word) : Instr → Prop
  | add : w.toNat / 2 ^ 22 = 0 → Decodes w (.add (regField 19 w) (regField 16 w) (regField 0 w))
  | nor : w.toNat / 2 ^ 22 = 1 → Decodes w (.nor (regField 19 w) (regField 16 w) (regField 0 w))
  | lw : w.toNat / 2 ^ 22 = 2 → Decodes w (.lw (regField 19 w) (regField 16 w) (w.setWidth 16))
  | sw : w.toNat / 2 ^ 22 = 3 → Decodes w (.sw (regField 19 w) (regField 16 w) (w.setWidth 16))
  | beq : w.toNat / 2 ^ 22 = 4 → Decodes w (.beq (regField 19 w) (regField 16 w) (w.setWidth 16))
  | jalr : w.toNat / 2 ^ 22 = 5 → Decodes w (.jalr (regField 19 w) (regField 16 w))
  | halt : w.toNat / 2 ^ 22 = 6 → Decodes w .halt
  | noop : w.toNat / 2 ^ 22 = 7 → Decodes w .noop

theorem decodes_of_decode {w : Word} {i : Instr} (h : decode w = some i) : Decodes w i := by
  unfold decode at h
  split at h <;> cases h
  exacts [.add ‹_›, .nor ‹_›, .lw ‹_›, .sw ‹_›, .beq ‹_›, .jalr ‹_›, .halt ‹_›, .noop ‹_›]

theorem Decodes.decode_eq {w : Word} {i : Instr} (h : Decodes w i) : decode w = some i := by
  cases h with
  | add h | nor h | lw h | sw h | beq h | jalr h | halt h | noop h => simp only [decode, h]

/-- A word is an instruction exactly if bits 31..25 are zero. -/
theorem decode_isSome_iff (w : Word) : (decode w).isSome ↔ w.toNat < 2 ^ 25 := by
  have h8 : w.toNat < 2 ^ 25 ↔ w.toNat / 2 ^ 22 < 8 := by omega
  rw [h8, decode]
  generalize w.toNat / 2 ^ 22 = k
  match k with
  | 0 | 1 | 2 | 3 | 4 | 5 | 6 | 7 => exact iff_of_true rfl (by decide)
  | k + 8 => exact iff_of_false (by simp) (by omega)

/-- The state the programmer sees. -/
structure Arch where
  pc : Word
  reg : Registers
  mem : Memory

/-- The address `regA + signext(offset)` of `lw` and `sw`. -/
def effAddr (reg : Registers) (regA : Fin numRegs) (offset : BitVec 16) : Word :=
  reg regA + offset.signExtend 32

/-- The state after an instruction. Undefined where a data address is outside the
    memory, and on `halt`, which has no next state. -/
def exec (s : Arch) : Instr → Option Arch
  | .add a b d => some { s with
      pc := s.pc + 1, reg := Function.update s.reg d (s.reg a + s.reg b) }
  | .nor a b d => some { s with
      pc := s.pc + 1, reg := Function.update s.reg d (~~~(s.reg a ||| s.reg b)) }
  | .lw a b offset => do
      let i ← index numMemory (effAddr s.reg a offset)
      return { s with pc := s.pc + 1, reg := Function.update s.reg b (s.mem i) }
  | .sw a b offset => do
      let i ← index numMemory (effAddr s.reg a offset)
      return { s with pc := s.pc + 1, mem := Function.update s.mem i (s.reg b) }
  | .beq a b offset => some { s with
      pc := if s.reg a = s.reg b then s.pc + 1 + offset.signExtend 32 else s.pc + 1 }
  | .jalr a b =>
      -- The return address is stored first, also when `regA` is `regB`.
      let reg := Function.update s.reg b (s.pc + 1)
      some { s with pc := reg a, reg }
  | .halt => none
  | .noop => some { s with pc := s.pc + 1 }

/-- The instruction is a branch that is taken in the state `s`. -/
def Instr.Taken (s : Arch) : Instr → Prop
  | .beq a b _ => s.reg a = s.reg b
  | _ => False

instance (s : Arch) : ∀ i : Instr, Decidable (i.Taken s)
  | .beq _ _ _ => inferInstanceAs (Decidable (_ = _))
  | .add .. | .nor .. | .lw .. | .sw .. | .jalr .. | .halt | .noop =>
    inferInstanceAs (Decidable False)

/-- The word at the pc. -/
def fetch (im : Memory) (s : Arch) : Option Word :=
  (index numMemory s.pc).map im

/-- The instruction at the pc. -/
def current (im : Memory) (s : Arch) : Option Instr :=
  (fetch im s).bind decode

/-- One step of a program in the instruction memory `im`. -/
def step (im : Memory) (s : Arch) : Option Arch :=
  (current im s).bind (exec s)

/-- The state after `n` steps. -/
def after (im : Memory) (s : Arch) (n : ℕ) : Option Arch :=
  Loop.iter (step im) n s

/-- The state after `n` steps of a program that shares its memory with its data. -/
def afterShared (s : Arch) (n : ℕ) : Option Arch :=
  Loop.iter (fun s => step s.mem s) n s

/-- An instruction goes on to the next word, unless it jumps. -/
theorem exec_pc {s s' : Arch} {i : Instr} (h : exec s i = some s') (ht : ¬ i.Taken s)
    (hj : ∀ a b, i ≠ .jalr a b) : s'.pc = s.pc + 1 := by
  cases i with
  | add a b d | nor a b d | noop =>
    cases h
    rfl
  | lw a b offset | sw a b offset =>
    obtain ⟨j, -, h⟩ := Option.bind_eq_some_iff.1 h
    cases h
    rfl
  | beq a b offset =>
    cases h
    exact if_neg ht
  | jalr a b => exact absurd rfl (hj a b)
  | halt => cases h

/-! ### Data dependences -/

/-- The instruction reads the register `r`. -/
def Instr.Reads : Instr → Fin numRegs → Prop
  | .add a b _, r | .nor a b _, r | .sw a b _, r | .beq a b _, r => r = a ∨ r = b
  | .lw a _ _, r | .jalr a _, r => r = a
  | .halt, _ | .noop, _ => False

/-- The instruction writes the register `r`. -/
def Instr.Writes : Instr → Fin numRegs → Prop
  | .add _ _ d, r | .nor _ _ d, r => r = d
  | .lw _ b _, r | .jalr _ b, r => r = b
  | .sw .., _ | .beq .., _ | .halt, _ | .noop, _ => False

instance : ∀ (i : Instr) (r : Fin numRegs), Decidable (i.Reads r)
  | .add .., _ | .nor .., _ | .sw .., _ | .beq .., _ => inferInstanceAs (Decidable (_ ∨ _))
  | .lw .., _ | .jalr .., _ => inferInstanceAs (Decidable (_ = _))
  | .halt, _ | .noop, _ => inferInstanceAs (Decidable False)

instance : ∀ (i : Instr) (r : Fin numRegs), Decidable (i.Writes r)
  | .add .., _ | .nor .., _ | .lw .., _ | .jalr .., _ => inferInstanceAs (Decidable (_ = _))
  | .sw .., _ | .beq .., _ | .halt, _ | .noop, _ => inferInstanceAs (Decidable False)

/-- An instruction changes no register but the one it writes. -/
theorem exec_reg_of_not_writes {s s' : Arch} {i : Instr} (h : exec s i = some s')
    {r : Fin numRegs} (hr : ¬ i.Writes r) : s'.reg r = s.reg r := by
  cases i with
  | add a b d | nor a b d | jalr a b =>
    cases h
    exact Function.update_of_ne hr _ _
  | lw a b offset =>
    obtain ⟨j, -, h⟩ := Option.bind_eq_some_iff.1 h
    cases h
    exact Function.update_of_ne hr _ _
  | sw a b offset =>
    obtain ⟨j, -, h⟩ := Option.bind_eq_some_iff.1 h
    cases h
    rfl
  | beq a b offset | noop =>
    cases h
    rfl
  | halt => cases h

end CourseProjects.Lc2k
