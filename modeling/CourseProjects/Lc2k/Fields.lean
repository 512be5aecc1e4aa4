import CourseProjects.Lc2k.Isa

/-!
# The fields of a word

How the two simulators take a word apart: `field0`, `field1`, `field2` and
`opcode` of the pipeline simulator, the globals set by `cvt` of the
instruction-level simulator, and `convertNum`, which both have.

* `index_field0`, `index_field1`, `convertNum_field2`: the fields are those of
  `decode`, for any word.
* `decodes_of_decode`: the opcode of a word that is an instruction, and the
  instruction it is.
-/

namespace CourseProjects.Lc2k

/-- `convertNum` of both simulators: a 16-bit number into a 32-bit integer. -/
def convertNum (num : Word) : Word :=
  if num &&& (1#32 <<< 15) ≠ 0 then num - 1#32 <<< 16 else num

/-! ### The pipeline simulator -/

/-- The `field0` of the pipeline simulator. -/
def field0 (instruction : Word) : Word :=
  instruction.sshiftRight 19 &&& 0x7

/-- The `field1` of the pipeline simulator. -/
def field1 (instruction : Word) : Word :=
  instruction.sshiftRight 16 &&& 0x7

/-- The `field2` of the pipeline simulator. -/
def field2 (instruction : Word) : Word :=
  instruction &&& 0xFFFF

/-- The `opcode` of the pipeline simulator. -/
def opcode (instruction : Word) : Word :=
  instruction.sshiftRight 22

/-! ### The instruction-level simulator -/

/-- The globals of the instruction-level simulator. -/
structure Globals where
  opcode : Word
  r1 : Word
  r2 : Word
  offset : Word
  rd : Word

/-- The `cvt` of the instruction-level simulator. -/
def cvt (mc : Word) : Globals where
  opcode := mc.sshiftRight 22 &&& 0x00000007
  r1 := mc.sshiftRight 19 &&& 0x00000007
  r2 := mc.sshiftRight 16 &&& 0x00000007
  rd := mc &&& 0x00000007
  offset := mc &&& 0x0000FFFF

/-! ### The fields of `decode` -/

/-- Three bits below the sign bit are the same under either shift. -/
theorem toNat_shift_and_seven (w : Word) {k : ℕ} (hk : k ≤ 29) :
    (w.sshiftRight k &&& 7#32).toNat = w.toNat / 2 ^ k % 8 := by
  have h : w.sshiftRight k &&& 7#32 = w >>> k &&& 7#32 := by
    refine BitVec.eq_of_getLsbD_eq fun i hi => ?_
    rw [BitVec.getLsbD_and, BitVec.getLsbD_and]
    rcases Nat.lt_or_ge i 3 with h3 | h3
    · have hki : k + i < 32 := by omega
      rw [BitVec.getLsbD_sshiftRight, BitVec.getLsbD_ushiftRight, if_pos hki,
        decide_eq_false (Nat.not_le.2 hi), Bool.not_false, Bool.true_and]
    · have h7 : (7#32).getLsbD i = false :=
        Nat.testBit_lt_two_pow (lt_of_lt_of_le (by decide) (Nat.pow_le_pow_right (by decide) h3))
      rw [h7, Bool.and_false, Bool.and_false]
  rw [h, BitVec.toNat_and, BitVec.toNat_ushiftRight, Nat.shiftRight_eq_div_pow]
  exact Nat.and_two_pow_sub_one_eq_mod _ 3

theorem index_shift_and_seven (w : Word) {k : ℕ} (hk : k ≤ 29) :
    index numRegs (w.sshiftRight k &&& 7#32) = some (regField k w) := by
  have h := toNat_shift_and_seven w hk
  rw [index_of_lt (by rw [h]; exact Nat.mod_lt _ (by decide))]
  exact congrArg some (Fin.ext h)

@[simp] theorem index_field0 (w : Word) : index numRegs (field0 w) = some (regField 19 w) :=
  index_shift_and_seven w (by decide)

@[simp] theorem index_field1 (w : Word) : index numRegs (field1 w) = some (regField 16 w) :=
  index_shift_and_seven w (by decide)

theorem toNat_field2 (w : Word) : (field2 w).toNat = w.toNat % 2 ^ 16 := by
  rw [field2, BitVec.toNat_and]
  exact Nat.and_two_pow_sub_one_eq_mod _ 16

/-- A destination that is a register number is the destination of `decode`. -/
theorem index_field2 {w : Word} (h : (field2 w).toNat < numRegs) :
    index numRegs (field2 w) = some (regField 0 w) := by
  rw [index_of_lt h]
  refine congrArg some (Fin.ext ?_)
  rw [toNat_field2, numRegs] at h
  simp only [regField, toNat_field2, pow_zero, numRegs]
  omega

/-- `convertNum` in arithmetic. -/
theorem convertNum_eq (num : Word) :
    convertNum num = if num.toNat / 2 ^ 15 % 2 = 1 then num - 0x10000#32 else num := by
  have h : num &&& (1#32 <<< 15) ≠ 0 ↔ num.toNat / 2 ^ 15 % 2 = 1 := by
    have h15 : (1#32 <<< 15).toNat = 2 ^ 15 := by decide
    rw [Ne, ← BitVec.toNat_inj, BitVec.toNat_and, h15, Nat.and_two_pow,
      Nat.toNat_testBit]
    simp
  rw [convertNum, if_congr h rfl rfl]
  rfl

/-- The converted offset field is the sign extension of the low half of the word. -/
theorem convertNum_field2 (w : Word) : convertNum (field2 w) = (w.setWidth 16).signExtend 32 := by
  rw [convertNum_eq, toNat_field2]
  apply BitVec.eq_of_toNat_eq
  have hm : (w.setWidth 16).msb = decide (w.toNat % 2 ^ 16 / 2 ^ 15 % 2 = 1) := by
    rw [BitVec.msb_eq_decide, BitVec.toNat_setWidth]
    refine decide_eq_decide.2 ?_
    omega
  rw [BitVec.toNat_signExtend, hm, BitVec.toNat_setWidth, BitVec.toNat_setWidth]
  split
  · rw [BitVec.toNat_sub, toNat_field2]
    simp_all
    omega
  · rw [toNat_field2]
    simp_all
    omega

/-- The unmasked opcode of an instruction. -/
theorem opcode_eq {w : Word} {k : ℕ} (h : w.toNat / 2 ^ 22 = k) (hk : k < 8) :
    opcode w = BitVec.ofNat 32 k := by
  have hw : w.msb = false := by
    rw [BitVec.msb_eq_decide]
    refine decide_eq_false ?_
    omega
  rw [opcode, BitVec.sshiftRight_eq_of_msb_false hw]
  apply BitVec.eq_of_toNat_eq
  rw [BitVec.toNat_ushiftRight, Nat.shiftRight_eq_div_pow, h, BitVec.toNat_ofNat,
    Nat.mod_eq_of_lt (by omega)]

/-- The two simulators take an instruction apart alike. -/
theorem cvt_eq_of_decode {w : Word} {i : Instr} (h : decode w = some i) :
    cvt w = ⟨opcode w, field0 w, field1 w, field2 w, w &&& 0x7⟩ := by
  have hlt : w.toNat / 2 ^ 22 < 8 := by
    have := (decode_isSome_iff w).1 (by rw [h]; rfl)
    omega
  have ho : w.sshiftRight 22 &&& 7#32 = opcode w := by
    apply BitVec.eq_of_toNat_eq
    rw [toNat_shift_and_seven w (by decide), opcode_eq rfl hlt, BitVec.toNat_ofNat]
    omega
  exact congrArg (fun o => (⟨o, field0 w, field1 w, field2 w, w &&& 0x7⟩ : Globals)) ho

end CourseProjects.Lc2k
