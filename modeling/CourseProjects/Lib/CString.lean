import Mathlib

/-!
# Bounded C strings

What a `char *` points to is a function from offsets to bytes. `strncmp` and `strncpy`
look at the first `n` bytes, up to the first zero byte; these bytes are `cstr`.

* `strncmp_eq_zero_iff`: `strncmp` returns zero exactly when they are the same.
* `cstr_strncpy`: they are what `strncpy` copies.
-/

namespace CString

/-- What a `char *` points to. -/
abbrev Str := ℕ → UInt8

/-- The string after its first byte. -/
def tail (s : Str) : Str := fun k => s (k + 1)

/-- A string literal, or one given by its bytes. -/
def ofList (l : List UInt8) : Str := fun k => l.getD k 0

/-- The difference of the first bytes, of `n`, that are zero or differ. -/
def strncmp : Str → Str → ℕ → ℤ
  | _, _, 0 => 0
  | p, q, n + 1 =>
    if p 0 ≠ 0 ∧ p 0 = q 0 then strncmp (tail p) (tail q) n else (p 0).toNat - (q 0).toNat

/-- The bytes `strncpy` writes: those of the string, and zeros after its end. -/
def padded : Str → ℕ → List UInt8
  | _, 0 => []
  | s, n + 1 => if s 0 = 0 then List.replicate (n + 1) 0 else s 0 :: padded (tail s) n

def strncpy (dst src : Str) (n : ℕ) : Str :=
  fun k => if k < n then (padded src n).getD k 0 else dst k

/-- The first `n` bytes, up to the first zero byte. -/
def cstr : Str → ℕ → List UInt8
  | _, 0 => []
  | s, n + 1 => if s 0 = 0 then [] else s 0 :: cstr (tail s) n

variable {p q s dst : Str} {n : ℕ} {l : List UInt8}

theorem strncmp_eq_zero_iff : strncmp p q n = 0 ↔ cstr p n = cstr q n := by
  induction n generalizing p q with
  | zero => simp [strncmp, cstr]
  | succ n ih =>
    rw [strncmp, cstr, cstr]
    by_cases hp : p 0 = 0
    · by_cases hq : q 0 = 0
      · simp [hp, hq]
      · have : (q 0).toNat ≠ 0 := fun h => hq (UInt8.toNat_inj.1 h)
        simp [hp, hq, this]
    · by_cases hpq : p 0 = q 0
      · have hq : q 0 ≠ 0 := hpq ▸ hp
        simp [hq, hpq, ih]
      · have : (p 0).toNat ≠ (q 0).toNat := fun h => hpq (UInt8.toNat_inj.1 h)
        rw [if_neg fun h => hpq h.2, if_neg hp]
        refine iff_of_false (by omega) ?_
        by_cases hq : q 0 = 0
        · simp [hq]
        · simp [hq, hpq]

theorem cstr_congr (h : ∀ k < n, p k = q k) : cstr p n = cstr q n := by
  induction n generalizing p q with
  | zero => rfl
  | succ n ih =>
    have ht : ∀ k < n, tail p k = tail q k := fun k hk => h (k + 1) (by omega)
    rw [cstr, cstr, h 0 (by omega), ih ht]

theorem cstr_padded : cstr (ofList (padded s n)) n = cstr s n := by
  induction n generalizing s with
  | zero => rfl
  | succ n ih =>
    by_cases h : s 0 = 0
    · simp [cstr, padded, h, ofList]
    · rw [cstr, cstr, padded, if_neg h]
      have ht : tail (ofList (s 0 :: padded (tail s) n)) = ofList (padded (tail s) n) := by
        funext k
        simp [tail, ofList]
      rw [ht, ih]
      simp [ofList, h]

variable (s dst) in
/-- `strncpy` copies the first bytes, up to the first zero byte. -/
theorem cstr_strncpy : cstr (strncpy dst s n) n = cstr s n := by
  rw [← cstr_padded (s := s)]
  exact cstr_congr fun k hk => by simp [strncpy, hk, ofList]

/-- A string of one byte all through. -/
theorem cstr_fill {b : UInt8} (hb : b ≠ 0) (h : ∀ k < n, s k = b) :
    cstr s n = List.replicate n b := by
  induction n generalizing s with
  | zero => rfl
  | succ n ih =>
    have ht : ∀ k < n, tail s k = b := fun k hk => h (k + 1) (by omega)
    rw [cstr, h 0 (by omega), if_neg hb, ih ht, List.replicate_succ]

/-- The first byte is that of the string, or zero. -/
theorem head?_cstr (hn : 0 < n) : s 0 = (cstr s n).head?.getD 0 := by
  obtain ⟨n, rfl⟩ := Nat.exists_eq_succ_of_ne_zero (Nat.ne_of_gt hn)
  rw [cstr]
  split <;> simp [*]

end CString
