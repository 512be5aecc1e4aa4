import Mathlib

/-!
# Slices of lists

The `len` elements of a list from `off` on (`slice`), and lists of which a slice is recoded element
by element (`recode`) or replaced (`splice`).

* `recode_eq_self_iff`: a recoding that changes nothing;
* `slice_recode`, `slice_splice_self`: the slice that was recoded or replaced.
-/

namespace Slice

variable {α : Type}

def slice (l : List α) (off len : ℕ) : List α := (l.drop off).take len

/-- The elements of a slice are passed through `f`. -/
def recode (f : α → α) (l : List α) (off len : ℕ) : List α :=
  l.mapIdx fun i a => if off ≤ i ∧ i < off + len then f a else a

/-- A list is written over another one from `off` on. -/
def splice (l : List α) (off : ℕ) (src : List α) : List α :=
  l.mapIdx fun i a => if off ≤ i then src.getD (i - off) a else a

variable {f : α → α} {l src : List α} {off len len' i : ℕ}

@[simp] theorem length_recode : (recode f l off len).length = l.length := List.length_mapIdx

@[simp] theorem length_splice : (splice l off src).length = l.length := List.length_mapIdx

theorem getElem?_slice : (slice l off len)[i]? = if i < len then l[off + i]? else none := by
  rw [slice, List.getElem?_take, List.getElem?_drop]

theorem length_slice (h : off + len ≤ l.length) : (slice l off len).length = len := by
  rw [slice, List.length_take, List.length_drop]
  omega

theorem mem_slice {a : α} : a ∈ slice l off len ↔ ∃ i, off ≤ i ∧ i < off + len ∧ l[i]? = some a := by
  rw [List.mem_iff_getElem?]
  constructor
  · rintro ⟨i, hi⟩
    rw [getElem?_slice] at hi
    split at hi
    · exact ⟨off + i, Nat.le_add_right .., Nat.add_lt_add_left ‹_› _, hi⟩
    · cases hi
  · rintro ⟨i, hlo, hhi, hi⟩
    refine ⟨i - off, ?_⟩
    rw [getElem?_slice, if_pos (Nat.sub_lt_left_of_lt_add hlo hhi), Nat.add_sub_cancel' hlo, hi]

theorem slice_eq_iff {l' : List α} : slice l off len = slice l' off len ↔
    ∀ i, off ≤ i → i < off + len → l[i]? = l'[i]? := by
  constructor
  · intro h i hlo hhi
    have hi := congrArg (fun s => s[i - off]?) h
    simpa only [getElem?_slice, if_pos (Nat.sub_lt_left_of_lt_add hlo hhi),
      Nat.add_sub_cancel' hlo] using hi
  · intro h
    refine List.ext_getElem? fun i => ?_
    rw [getElem?_slice, getElem?_slice]
    split
    · exact h _ (Nat.le_add_right ..) (Nat.add_lt_add_left ‹_› _)
    · rfl

/-! ### Recoding -/

theorem getElem?_recode : (recode f l off len)[i]? =
    if off ≤ i ∧ i < off + len then l[i]?.map f else l[i]? := by
  rw [recode, List.getElem?_mapIdx]
  by_cases h : off ≤ i ∧ i < off + len
  · simp only [if_pos h]
  · simp only [if_neg h, Option.map_id']

/-- The first elements of the recoded slice. -/
theorem slice_recode (h : len' ≤ len) :
    slice (recode f l off len) off len' = (slice l off len').map f := by
  refine List.ext_getElem? fun i => ?_
  rw [List.getElem?_map, getElem?_slice, getElem?_slice]
  split
  · have hi : off + i < off + len := Nat.add_lt_add_left (‹i < len'›.trans_le h) off
    rw [getElem?_recode, if_pos ⟨Nat.le_add_right .., hi⟩]
  · rfl

/-- A recoding that changes no element of its slice. -/
theorem recode_eq_self_iff : recode f l off len = l ↔ ∀ a ∈ slice l off len, f a = a := by
  constructor
  · intro h a ha
    obtain ⟨i, hlo, hhi, hi⟩ := mem_slice.1 ha
    have := congrArg (fun l => l[i]?) h
    simpa [getElem?_recode, hlo, hhi, hi] using this
  · intro h
    refine List.ext_getElem? fun i => ?_
    rw [getElem?_recode]
    split
    · rename_i hi
      rcases ha : l[i]? with _ | a
      · rfl
      · rw [Option.map_some, h a (mem_slice.2 ⟨i, hi.1, hi.2, ha⟩)]
    · rfl

/-- One element is recoded first, and then the rest of the slice. -/
theorem recode_succ {a : α} (ha : l[off]? = some a) :
    recode f (l.set off (f a)) (off + 1) len = recode f l off (len + 1) := by
  have hoff : off < l.length := (List.getElem?_eq_some_iff.1 ha).1
  refine List.ext_getElem? fun i => ?_
  rw [getElem?_recode, getElem?_recode, List.getElem?_set]
  rcases eq_or_ne off i with rfl | hne
  · rw [if_neg (by omega), if_pos rfl, if_pos hoff, if_pos (by omega), ha]
    rfl
  · rw [if_neg hne]
    refine if_congr ?_ rfl rfl
    omega

/-! ### Overwriting -/

theorem getElem?_splice : (splice l off src)[i]? =
    if off ≤ i ∧ i < off + src.length ∧ i < l.length then src[i - off]? else l[i]? := by
  rw [splice, List.getElem?_mapIdx]
  rcases Nat.lt_or_ge i l.length with hi | hi
  · rw [List.getElem?_eq_getElem hi, Option.map_some]
    split_ifs with h₁ h₂ h₂
    · rw [List.getD_eq_getElem _ _ (by omega), List.getElem?_eq_getElem (by omega)]
    · rw [List.getD_eq_default _ _ (by omega)]
    · exact absurd h₂.1 h₁
    · rfl
  · rw [List.getElem?_eq_none hi, if_neg (by omega)]
    rfl

/-- The slice that is overwritten. -/
theorem slice_splice_self (h : off + src.length ≤ l.length) :
    slice (splice l off src) off src.length = src := by
  refine List.ext_getElem? fun i => ?_
  rw [getElem?_slice]
  split
  · rw [getElem?_splice, if_pos (by omega), Nat.add_sub_cancel_left]
  · rw [List.getElem?_eq_none (by omega)]

end Slice
