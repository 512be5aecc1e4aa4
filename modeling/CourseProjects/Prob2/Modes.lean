import CourseProjects.Lib.Slice

/-!
# The modes of encryption

`Caesar` and `Reverse` of `prob2`. Both encode and decode a range of an array in place, character by
character (`overRange`): letters go to letters, and what is no letter stays (`Cipher`).
-/

namespace Prob2

open Slice

/-- The exceptions that the calls may end with. -/
inductive Exn
  | arrayIndexOutOfBounds
  | indexOutOfBounds
  | nullPointer
  deriving DecidableEq

/-- A letter from A to Z or from a to z. -/
def IsLetter (ch : UInt16) : Prop := 65 ≤ ch ∧ ch ≤ 90 ∨ 97 ≤ ch ∧ ch ≤ 122

instance : DecidablePred IsLetter := fun _ => inferInstanceAs (Decidable (_ ∨ _))

/-- The loop of the modes: the characters of a range, but for spaces, are passed through `f`. -/
def overRange (f : UInt16 → UInt16) (str : List UInt16) (i : ℕ) : ℕ → Except Exn (List UInt16)
  | 0 => pure str
  | len + 1 =>
    match str[i]? with
    | none => throw .arrayIndexOutOfBounds
    | some ch => overRange f (if ch = 32 then str else str.set i (f ch)) (i + 1) len

structure EncryptMode where
  encode : List UInt16 → ℕ → ℕ → Except Exn (List UInt16)
  decode : List UInt16 → ℕ → ℕ → Except Exn (List UInt16)

namespace Caesar

def encodeChar (ch : UInt16) : UInt16 :=
  if 65 ≤ ch ∧ ch ≤ 90 then
    let ch := ch - 3
    if ch < 65 then ch + 26 else ch
  else if 97 ≤ ch ∧ ch ≤ 122 then
    let ch := ch - 3
    if ch < 97 then ch + 26 else ch
  else ch

def decodeChar (ch : UInt16) : UInt16 :=
  if 65 ≤ ch ∧ ch ≤ 90 then
    let ch := ch + 3
    if 90 < ch then ch - 26 else ch
  else if 97 ≤ ch ∧ ch ≤ 122 then
    let ch := ch + 3
    if 122 < ch then ch - 26 else ch
  else ch

def mode : EncryptMode := ⟨overRange encodeChar, overRange decodeChar⟩

end Caesar

namespace Reverse

def encodeChar (ch : UInt16) : UInt16 :=
  if 65 ≤ ch ∧ ch ≤ 90 then ch + 32 else if 97 ≤ ch ∧ ch ≤ 122 then ch - 32 else ch

def decodeChar (ch : UInt16) : UInt16 :=
  if 65 ≤ ch ∧ ch ≤ 90 then ch + 32 else if 97 ≤ ch ∧ ch ≤ 122 then ch - 32 else ch

def mode : EncryptMode := ⟨overRange encodeChar, overRange decodeChar⟩

end Reverse

/-! ### Ciphers -/

/-- A code of characters that changes the letters and nothing else, and how it is undone. -/
structure Cipher where
  enc : UInt16 → UInt16
  dec : UInt16 → UInt16
  dec_enc : ∀ ch, dec (enc ch) = ch
  enc_eq_self_iff : ∀ ch, enc ch = ch ↔ ¬ IsLetter ch
  dec_eq_self_iff : ∀ ch, dec ch = ch ↔ ¬ IsLetter ch

def Cipher.mode (m : Cipher) : EncryptMode := ⟨overRange m.enc, overRange m.dec⟩

def Caesar.cipher : Cipher where
  enc := encodeChar
  dec := decodeChar
  dec_enc ch := by
    have h := ch.toNat_lt
    apply UInt16.toNat.inj
    simp only [encodeChar, decodeChar, UInt16.le_iff_toNat_le, UInt16.lt_iff_toNat_lt]
    split_ifs <;> simp_all [UInt16.toNat_sub, UInt16.toNat_add] <;> omega
  enc_eq_self_iff ch := by
    have h := ch.toNat_lt
    rw [← UInt16.toNat_inj]
    simp only [encodeChar, IsLetter, UInt16.le_iff_toNat_le, UInt16.lt_iff_toNat_lt]
    split_ifs <;> simp_all [UInt16.toNat_sub, UInt16.toNat_add] <;> omega
  dec_eq_self_iff ch := by
    have h := ch.toNat_lt
    rw [← UInt16.toNat_inj]
    simp only [decodeChar, IsLetter, UInt16.le_iff_toNat_le, UInt16.lt_iff_toNat_lt]
    split_ifs <;> simp_all [UInt16.toNat_sub, UInt16.toNat_add] <;> omega

def Reverse.cipher : Cipher where
  enc := encodeChar
  dec := decodeChar
  dec_enc ch := by
    have h := ch.toNat_lt
    apply UInt16.toNat.inj
    simp only [encodeChar, decodeChar, UInt16.le_iff_toNat_le]
    split_ifs <;> simp_all [UInt16.toNat_sub, UInt16.toNat_add] <;> omega
  enc_eq_self_iff ch := by
    have h := ch.toNat_lt
    rw [← UInt16.toNat_inj]
    simp only [encodeChar, IsLetter, UInt16.le_iff_toNat_le]
    split_ifs <;> simp_all [UInt16.toNat_sub, UInt16.toNat_add] <;> omega
  dec_eq_self_iff ch := by
    have h := ch.toNat_lt
    rw [← UInt16.toNat_inj]
    simp only [decodeChar, IsLetter, UInt16.le_iff_toNat_le]
    split_ifs <;> simp_all [UInt16.toNat_sub, UInt16.toNat_add] <;> omega

/-- The loop over a range of the array. -/
theorem overRange_eq {f : UInt16 → UInt16} (h32 : f 32 = 32) {str : List UInt16} {i len : ℕ}
    (h : i + len ≤ str.length) : overRange f str i len = .ok (recode f str i len) := by
  induction len generalizing str i with
  | zero => exact congrArg _ (recode_eq_self_iff.2 (by simp [slice])).symm
  | succ len ih =>
    have hi : i < str.length := by omega
    have hch := List.getElem?_eq_getElem hi
    -- A space is what the code of it would be.
    have hset : (if str[i] = 32 then str else str.set i (f str[i])) = str.set i (f str[i]) := by
      split
      · rename_i h'
        rw [h', h32, ← h', List.set_getElem_self]
      · rfl
    rw [overRange, hch]
    change overRange f (if str[i] = 32 then str else str.set i (f str[i])) (i + 1) len = _
    rw [hset, ih (by rw [List.length_set]; omega), recode_succ hch]

end Prob2
