import Mathlib

/-!
# Bitmaps in bytes

Memory as bytes, with a bit for each number, eight of them in a byte, the lowest one first.

* `bit_mark`, `bit_unmark`: a bit that is set or cleared, and the others as before.
-/

namespace Bitmap

open Function

/-- The byte with the bit of a number alone. -/
def mask (i : ℕ) : UInt8 := 1 <<< UInt8.ofNat (i % 8)

/-- The bit of a number is set. -/
def Bit (b : ℕ → UInt8) (i : ℕ) : Prop := b (i / 8) &&& mask i ≠ 0

instance (b : ℕ → UInt8) (i : ℕ) : Decidable (Bit b i) := inferInstanceAs (Decidable (_ ≠ _))

/-- The bit of a number is set now. -/
def mark (b : ℕ → UInt8) (i : ℕ) : ℕ → UInt8 := update b (i / 8) (b (i / 8) ||| mask i)

/-- The bit of a number is cleared. -/
def unmark (b : ℕ → UInt8) (i : ℕ) : ℕ → UInt8 := update b (i / 8) (b (i / 8) &&& ~~~mask i)

variable {b : ℕ → UInt8} {i j : ℕ}

theorem mask_toBitVec (i : ℕ) : (mask i).toBitVec = BitVec.twoPow 8 (i % 8) := by
  have h : ∀ r < 8, ((1 : UInt8) <<< UInt8.ofNat r).toBitVec = BitVec.twoPow 8 r := by decide
  exact h _ (Nat.mod_lt i (by decide))

/-- A bit, in the byte as a bit vector. -/
theorem and_mask_ne_zero (x : UInt8) (i : ℕ) :
    x &&& mask i ≠ 0 ↔ x.toBitVec.getLsbD (i % 8) = true := by
  have hi := Nat.mod_lt i (by decide : 0 < 8)
  rw [Ne, ← UInt8.toBitVec_inj, UInt8.toBitVec_and, mask_toBitVec, BitVec.and_twoPow]
  split
  · rename_i h
    refine iff_of_true (fun h0 => ?_) h
    have hbit := congrArg (BitVec.getLsbD · (i % 8)) h0
    simp [hi] at hbit
  · rename_i h
    exact iff_of_false (fun h0 => h0 rfl) h

theorem bit_iff : Bit b i ↔ (b (i / 8)).toBitVec.getLsbD (i % 8) = true := and_mask_ne_zero _ i

/-- Numbers with one byte and one place in it are the same. -/
theorem eq_of_place (hd : i / 8 = j / 8) (hm : i % 8 = j % 8) : i = j := by
  rw [← Nat.div_add_mod i 8, hd, hm, Nat.div_add_mod]

theorem bit_mark : Bit (mark b i) j ↔ j = i ∨ Bit b j := by
  have hj := Nat.mod_lt j (by decide : 0 < 8)
  rw [bit_iff, bit_iff, mark]
  by_cases hd : j / 8 = i / 8
  · rw [hd, update_self, UInt8.toBitVec_or, BitVec.getLsbD_or, mask_toBitVec,
      BitVec.getLsbD_twoPow, Bool.or_eq_true, or_comm]
    refine or_congr_left ?_
    simp only [Nat.mod_lt i (by decide : 0 < 8), decide_true, Bool.true_and, decide_eq_true_eq]
    exact ⟨fun hm => eq_of_place hd hm.symm, fun h => h ▸ rfl⟩
  · rw [update_of_ne hd]
    exact (or_iff_right fun h => hd (by rw [h])).symm

theorem bit_unmark : Bit (unmark b i) j ↔ j ≠ i ∧ Bit b j := by
  have hj := Nat.mod_lt j (by decide : 0 < 8)
  rw [bit_iff, bit_iff, unmark]
  by_cases hd : j / 8 = i / 8
  · rw [hd, update_self, UInt8.toBitVec_and, BitVec.getLsbD_and, UInt8.toBitVec_not,
      BitVec.getLsbD_not, mask_toBitVec, BitVec.getLsbD_twoPow, Bool.and_eq_true, and_comm]
    refine and_congr_left' ?_
    simp only [Nat.mod_lt i (by decide : 0 < 8), hj, decide_true, Bool.true_and,
      Bool.not_eq_true', decide_eq_false_iff_not]
    exact not_congr ⟨fun hm => eq_of_place hd hm.symm, fun h => h ▸ rfl⟩
  · rw [update_of_ne hd]
    exact (and_iff_right fun h => hd (by rw [h])).symm

end Bitmap
