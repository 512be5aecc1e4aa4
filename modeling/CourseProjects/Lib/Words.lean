import Mathlib

/-!
# Words in bytes

Memory as bytes, with words of four bytes in it, the lowest byte first.

* `word_setWord`: a word is read back as it was written, up to its width, and the others
  stay;
* `word_setWords`: the same for a list of words, written one after the other.
-/

namespace Words

/-- The word at place `i`. -/
def word (b : ℕ → UInt8) (i : ℕ) : ℕ :=
  (b (4 * i)).toNat + 2 ^ 8 * (b (4 * i + 1)).toNat + 2 ^ 16 * (b (4 * i + 2)).toNat +
    2 ^ 24 * (b (4 * i + 3)).toNat

/-- A word is written at place `i`. -/
def setWord (b : ℕ → UInt8) (i x : ℕ) : ℕ → UInt8 := fun j =>
  if j / 4 = i then UInt8.ofNat (x / 2 ^ (8 * (j % 4))) else b j

/-- Words are written from place `i` on. -/
def setWords (b : ℕ → UInt8) : ℕ → List ℕ → ℕ → UInt8
  | _, [] => b
  | i, x :: xs => setWords (setWord b i x) (i + 1) xs

variable {b : ℕ → UInt8} {i j x : ℕ} {xs : List ℕ}

theorem word_lt (b : ℕ → UInt8) (i : ℕ) : word b i < 2 ^ 32 := by
  have h (j : ℕ) : (b j).toNat < 2 ^ 8 := (b j).toNat_lt
  have h₀ := h (4 * i)
  have h₁ := h (4 * i + 1)
  have h₂ := h (4 * i + 2)
  have h₃ := h (4 * i + 3)
  rw [word]
  omega

theorem word_zero : word 0 i = 0 := rfl

theorem word_congr {b' : ℕ → UInt8} (h : ∀ j, j / 4 = i → b' j = b j) : word b' i = word b i := by
  rw [word, word, h (4 * i) (by omega), h (4 * i + 1) (by omega), h (4 * i + 2) (by omega),
    h (4 * i + 3) (by omega)]

theorem word_setWord_self : word (setWord b i x) i = x % 2 ^ 32 := by
  have h (r : ℕ) (hr : r < 4) :
      (setWord b i x (4 * i + r)).toNat = x / 2 ^ (8 * r) % 2 ^ 8 := by
    rw [setWord, if_pos (by omega), UInt8.toNat_ofNat', show (4 * i + r) % 4 = r by omega]
  have h₀ := h 0 (by decide)
  have h₁ := h 1 (by decide)
  have h₂ := h 2 (by decide)
  have h₃ := h 3 (by decide)
  rw [Nat.add_zero] at h₀
  rw [word, h₀, h₁, h₂, h₃]
  omega

theorem word_setWord_of_ne (h : j ≠ i) : word (setWord b i x) j = word b j :=
  word_congr fun k hk => if_neg (by omega)

theorem word_setWord : word (setWord b i x) j = if j = i then x % 2 ^ 32 else word b j := by
  split
  · rename_i h
    rw [h, word_setWord_self]
  · rename_i h
    exact word_setWord_of_ne h

theorem word_setWords : word (setWords b i xs) j =
    if h : i ≤ j ∧ j - i < xs.length then xs.get ⟨j - i, h.2⟩ % 2 ^ 32 else word b j := by
  induction xs generalizing b i with
  | nil =>
    rw [dif_neg fun h => Nat.not_lt_zero _ h.2]
    rfl
  | cons x xs ih =>
    rw [setWords, ih, word_setWord]
    rcases Nat.lt_trichotomy j i with hj | rfl | hj
    · rw [dif_neg (by omega), dif_neg (by omega), if_neg hj.ne]
    · rw [dif_neg (by omega), dif_pos (by simp), if_pos rfl]
      simp
    · have hsub : j - i = j - (i + 1) + 1 := by omega
      by_cases hlen : j - (i + 1) < xs.length
      · rw [dif_pos ⟨hj, hlen⟩, dif_pos ⟨hj.le, by rw [List.length_cons]; omega⟩]
        simp [hsub]
      · rw [dif_neg fun h => hlen h.2, dif_neg fun h => hlen (by simpa [hsub] using h.2),
          if_neg hj.ne']

/-- Words that fit are read back. -/
theorem map_word_setWords (h : ∀ x ∈ xs, x < 2 ^ 32) :
    (List.range xs.length).map (fun k => word (setWords b i xs) (i + k)) = xs := by
  refine List.ext_getElem (by simp) fun k hk hk' => ?_
  rw [List.getElem_map, List.getElem_range, word_setWords, dif_pos ⟨by omega, by omega⟩]
  have hget : xs.get ⟨i + k - i, by omega⟩ = xs[k] := by simp
  rw [hget]
  exact Nat.mod_eq_of_lt (h _ (List.getElem_mem _))

end Words
