import Mathlib

/-!
# Loops over array slots

A C array is a function from slot indices to values, the slots past the ones in
use included: code may read a stale slot, and what it finds there is part of
its behaviour. The loops by which such code searches, opens a gap, closes a gap
and copies are defined here as they run, one slot at a time, each with its
closed form (`shiftUp_apply`, `shiftDown_apply`, `spread_apply`, `blit_apply`)
and with what it does to the list of the slots in use (`slots`): opening a gap
is `List.insertIdx`, closing one `List.eraseIdx`.
-/

namespace Slots

open Function

variable {α β : Type*}

/-- The first `n` slots. -/
def slots (f : ℕ → α) (n : ℕ) : List α := (List.range n).map f

@[simp] theorem length_slots (f : ℕ → α) (n : ℕ) : (slots f n).length = n := by simp [slots]

@[simp] theorem getElem_slots (f : ℕ → α) {n i : ℕ} (h : i < (slots f n).length) :
    (slots f n)[i] = f i := by simp [slots]

theorem mem_slots {f : ℕ → α} {n : ℕ} {a : α} : a ∈ slots f n ↔ ∃ i < n, f i = a := by
  simp [slots]

theorem map_slots (g : α → β) (f : ℕ → α) (n : ℕ) :
    (slots f n).map g = slots (fun i => g (f i)) n := by simp [slots]

theorem slots_congr {f g : ℕ → α} {n : ℕ} (h : ∀ i < n, f i = g i) : slots f n = slots g n :=
  List.map_congr_left fun i hi => h i (List.mem_range.1 hi)

theorem take_slots (f : ℕ → α) {m n : ℕ} (h : m ≤ n) : (slots f n).take m = slots f m := by
  rw [slots, ← List.map_take, List.take_range, Nat.min_eq_left h, slots]

/-- The slots from `m` on. -/
theorem drop_slots (f : ℕ → α) (m n : ℕ) :
    (slots f (m + n)).drop m = slots (fun i => f (m + i)) n :=
  List.ext_getElem (by simp) fun i _ _ => by simp

/-- Equal lists of slots, slot by slot. -/
theorem slots_eq_iff {f : ℕ → α} {n : ℕ} {l : List α} :
    slots f n = l ↔ n = l.length ∧ ∀ i (h : i < l.length), f i = l[i] := by
  constructor
  · rintro rfl
    exact ⟨by simp, fun i h => by simp⟩
  · rintro ⟨rfl, h⟩
    exact List.ext_getElem (by simp) fun i _ h₂ => by simp [h i h₂]

/-- Changing one slot. -/
theorem slots_update (f : ℕ → α) (g : α → α) (i n : ℕ) :
    slots (update f i (g (f i))) n = (slots f n).modify i g := by
  refine List.ext_getElem (by simp) fun j h₁ h₂ => ?_
  rw [getElem_slots, List.getElem_modify, getElem_slots]
  split
  · subst i
    rw [update_self]
  · rw [update_of_ne (by omega)]

/-- One more slot. -/
theorem slots_update_succ (f : ℕ → α) (n : ℕ) (a : α) :
    slots (update f n a) (n + 1) = slots f n ++ [a] := by
  rw [slots, List.range_succ, List.map_append, List.map_singleton, update_self]
  congr 1
  exact slots_congr fun i hi => update_of_ne hi.ne _ _

theorem slots_update_of_le (f : ℕ → α) {i n : ℕ} (h : n ≤ i) (a : α) :
    slots (update f i a) n = slots f n :=
  slots_congr fun _ hj => update_of_ne (by omega) _ _

/-- The last slot. -/
theorem slots_concat {f : ℕ → α} {n : ℕ} {l : List α} {a : α} (h : slots f n = l ++ [a]) :
    slots f (n - 1) = l ∧ f (n - 1) = a := by
  obtain ⟨hn, hf⟩ := slots_eq_iff.1 h
  simp only [List.length_append, List.length_singleton] at hn hf
  refine ⟨slots_eq_iff.2 ⟨by omega, fun i hi => ?_⟩, ?_⟩
  · rw [hf i (by omega), List.getElem_append_left hi]
  · rw [hf (n - 1) (by omega), List.getElem_append_right (by omega)]
    simp [hn]

/-! ### Searching -/

/-- The index at which `for (i = 0; i < n; i++) if (stop i) break;` ends. -/
def scan (stop : ℕ → Bool) (n : ℕ) : ℕ := (List.range n).findIdx stop

theorem scan_le (stop : ℕ → Bool) (n : ℕ) : scan stop n ≤ n := by
  have h : (List.range n).findIdx stop ≤ (List.range n).length := List.findIdx_le_length
  simpa [scan] using h

theorem stop_scan {stop : ℕ → Bool} {n : ℕ} (h : scan stop n < n) : stop (scan stop n) = true := by
  have hlt : (List.range n).findIdx stop < (List.range n).length := by simpa [scan] using h
  have := List.findIdx_getElem (w := hlt)
  simpa [scan] using this

theorem not_stop_of_lt_scan {stop : ℕ → Bool} {n i : ℕ} (h : i < scan stop n) :
    stop i = false := by
  have hlt : i < (List.range n).findIdx stop := h
  have := List.not_of_lt_findIdx hlt
  simpa using this

/-- The search ends at the first slot that stops it. -/
theorem scan_eq {stop : ℕ → Bool} {n i : ℕ} (hi : i < n) (hs : stop i = true)
    (hlt : ∀ j < i, stop j = false) : scan stop n = i := by
  rcases Nat.lt_trichotomy (scan stop n) i with h | h | h
  · have := stop_scan (Nat.lt_trans h hi)
    rw [hlt _ h] at this
    cases this
  · exact h
  · rw [not_stop_of_lt_scan h] at hs
    cases hs

/-- A search over slots is the search over their list. -/
theorem scan_eq_findIdx (f : ℕ → α) (p : α → Bool) (n : ℕ) :
    scan (fun i => p (f i)) n = (slots f n).findIdx p := by
  rw [scan, slots, List.findIdx_map]
  rfl

/-! ### Opening and closing a gap -/

/-- `for (i = hi; i > lo; i--) f[i] = f[i - 1];` -/
def shiftUp (f : ℕ → α) (lo : ℕ) : (hi : ℕ) → ℕ → α
  | 0 => f
  | i + 1 => if lo < i + 1 then shiftUp (update f (i + 1) (f i)) lo i else f

theorem shiftUp_apply (f : ℕ → α) (lo hi j : ℕ) :
    shiftUp f lo hi j = if lo < j ∧ j ≤ hi then f (j - 1) else f j := by
  induction hi generalizing f with
  | zero => rw [shiftUp, if_neg (by omega)]
  | succ i ih =>
    rw [shiftUp]
    split
    · rw [ih]
      -- The moved slot `i + 1` lies above the rest of the loop, which reads below it.
      rcases Nat.lt_trichotomy j (i + 1) with h | rfl | h
      · rw [update_of_ne (by omega), update_of_ne (by omega)]
        simp only [show j ≤ i ↔ j ≤ i + 1 by omega]
      · rw [if_neg (by omega), if_pos (by omega), update_self, Nat.add_sub_cancel]
      · rw [if_neg (by omega), if_neg (by omega), update_of_ne (by omega)]
    · rw [if_neg (by omega)]

/-- Opening the gap `lo` among `n` slots and filling it inserts there. -/
theorem slots_shiftUp (f : ℕ → α) {lo n : ℕ} (h : lo ≤ n) (a : α) :
    slots (update (shiftUp f lo n) lo a) (n + 1) = (slots f n).insertIdx lo a := by
  refine List.ext_getElem (by simp [List.length_insertIdx, h]) fun i h₁ _ => ?_
  rw [length_slots] at h₁
  rw [getElem_slots, List.getElem_insertIdx]
  rcases Nat.lt_trichotomy i lo with hi | rfl | hi
  · rw [update_of_ne (by omega), shiftUp_apply, if_neg (by omega), dif_pos hi, getElem_slots]
  · rw [update_self, dif_neg (by omega), dif_pos rfl]
  · rw [update_of_ne (by omega), shiftUp_apply, if_pos (by omega), dif_neg (by omega),
      dif_neg (by omega), getElem_slots]

/-- `for (i = j; i < j + n; i++) f[i - 1] = f[i];` -/
def shiftDownFrom (f : ℕ → α) (j : ℕ) : (n : ℕ) → ℕ → α
  | 0 => f
  | n + 1 => shiftDownFrom (update f (j - 1) (f j)) (j + 1) n

theorem shiftDownFrom_apply (f : ℕ → α) {j : ℕ} (hj : 0 < j) (n i : ℕ) :
    shiftDownFrom f j n i = if j ≤ i + 1 ∧ i + 1 < j + n then f (i + 1) else f i := by
  induction n generalizing f j with
  | zero => rw [shiftDownFrom, if_neg (by omega)]
  | succ n ih =>
    rw [shiftDownFrom, ih _ (Nat.succ_pos j)]
    -- The loop overwrites slot `j - 1` first and never reads below `j` again.
    by_cases h : j + 1 ≤ i + 1 ∧ i + 1 < j + 1 + n
    · rw [if_pos h, if_pos (by omega), update_of_ne (by omega)]
    · rw [if_neg h]
      rcases eq_or_ne (i + 1) j with rfl | hne
      · rw [if_pos (by omega), Nat.add_sub_cancel, update_self]
      · rw [if_neg (by omega), update_of_ne (by omega)]

/-- `for (++i; i < n; i++) f[i - 1] = f[i];` -/
def shiftDown (f : ℕ → α) (i n : ℕ) : ℕ → α := shiftDownFrom f (i + 1) (n - (i + 1))

theorem shiftDown_apply (f : ℕ → α) (i n j : ℕ) :
    shiftDown f i n j = if i ≤ j ∧ j + 1 < n then f (j + 1) else f j := by
  rw [shiftDown, shiftDownFrom_apply f (Nat.succ_pos i)]
  simp only [show i + 1 ≤ j + 1 ∧ j + 1 < i + 1 + (n - (i + 1)) ↔ i ≤ j ∧ j + 1 < n by omega]

/-- Closing the gap `i` among `n` slots erases it. -/
theorem slots_shiftDown (f : ℕ → α) {i n : ℕ} (h : i < n) :
    slots (shiftDown f i n) (n - 1) = (slots f n).eraseIdx i := by
  refine List.ext_getElem (by simp [List.length_eraseIdx, h]) fun j h₁ _ => ?_
  rw [length_slots] at h₁
  rw [getElem_slots, shiftDown_apply, List.getElem_eraseIdx]
  by_cases hj : j < i
  · rw [if_neg (by omega), dif_pos hj, getElem_slots]
  · rw [if_pos (by omega), dif_neg hj, getElem_slots]

/-! ### Copying -/

/-- `for (; n > 0; n--, i++, j++) { if (j == hole) j++; dst[j] = src[i]; }` -/
def spreadFrom (src : ℕ → α) (hole : ℕ) : (n i j : ℕ) → (dst : ℕ → α) → ℕ → α
  | 0, _, _, dst => dst
  | n + 1, i, j, dst =>
    let j := if j = hole then j + 1 else j
    spreadFrom src hole n (i + 1) (j + 1) (update dst j (src i))

/-- `for (i = 0, j = 0; i < n; i++, j++) { if (j == hole) j++; dst[j] = src[i]; }`:
    the copy of `n` slots leaves a gap at `hole`. -/
def spread (src : ℕ → α) (hole n : ℕ) (dst : ℕ → α) : ℕ → α := spreadFrom src hole n 0 0 dst

/-- Past the gap, the copy runs one slot ahead. -/
theorem spreadFrom_past (src : ℕ → α) {hole j : ℕ} (h : hole < j) (n : ℕ) (dst : ℕ → α) (k : ℕ) :
    spreadFrom src hole n (j - 1) j dst k =
      if j ≤ k ∧ k < j + n then src (k - 1) else dst k := by
  induction n generalizing j dst with
  | zero => rw [spreadFrom, if_neg (by omega)]
  | succ n ih =>
    rw [spreadFrom, if_neg (by omega), show j - 1 + 1 = j + 1 - 1 by omega, ih (by omega)]
    rcases eq_or_ne k j with rfl | hne
    · rw [if_neg (by omega), if_pos (by omega), update_self]
    · rw [update_of_ne hne]
      simp only [show j + 1 ≤ k ∧ k < j + 1 + n ↔ j ≤ k ∧ k < j + (n + 1) by omega]

/-- Up to the gap, the copy keeps the indices. -/
theorem spreadFrom_upto (src : ℕ → α) {hole i : ℕ} (h : i ≤ hole) (n : ℕ) (dst : ℕ → α) (k : ℕ) :
    spreadFrom src hole n i i dst k =
      if i ≤ k ∧ k < hole ∧ k < i + n then src k
      else if hole < k ∧ k ≤ i + n then src (k - 1) else dst k := by
  induction n generalizing i dst with
  | zero => rw [spreadFrom, if_neg (by omega), if_neg (by omega)]
  | succ n ih =>
    rw [spreadFrom]
    rcases Nat.eq_or_lt_of_le h with rfl | hlt
    · rw [if_pos rfl]
      have := spreadFrom_past src (show i < i + 1 + 1 by omega) n (update dst (i + 1) (src i)) k
      rw [show i + 1 + 1 - 1 = i + 1 by omega] at this
      rw [this, if_neg (show ¬(i ≤ k ∧ k < i ∧ k < i + (n + 1)) by omega)]
      rcases eq_or_ne k (i + 1) with rfl | hne
      · rw [if_neg (by omega), if_pos (by omega), update_self, Nat.add_sub_cancel]
      · rw [update_of_ne hne]
        simp only [show i + 1 + 1 ≤ k ∧ k < i + 1 + 1 + n ↔ i < k ∧ k ≤ i + (n + 1) by omega]
    · rw [if_neg (by omega), ih (by omega)]
      rcases eq_or_ne k i with rfl | hne
      · rw [if_neg (by omega), if_neg (by omega), if_pos (by omega), update_self]
      · rw [update_of_ne hne]
        simp only [show i + 1 ≤ k ∧ k < hole ∧ k < i + 1 + n ↔
          i ≤ k ∧ k < hole ∧ k < i + (n + 1) by omega,
          show hole < k ∧ k ≤ i + 1 + n ↔ hole < k ∧ k ≤ i + (n + 1) by omega]

theorem spread_apply (src : ℕ → α) (hole n : ℕ) (dst : ℕ → α) (k : ℕ) :
    spread src hole n dst k =
      if k < hole ∧ k < n then src k else if hole < k ∧ k ≤ n then src (k - 1) else dst k := by
  rw [spread, spreadFrom_upto src (Nat.zero_le hole)]
  simp

/-- Copying `n` slots around a gap among them and filling it inserts there. -/
theorem slots_spread (src : ℕ → α) {hole n : ℕ} (h : hole ≤ n) (dst : ℕ → α) (a : α) :
    slots (update (spread src hole n dst) hole a) (n + 1) = (slots src n).insertIdx hole a := by
  refine List.ext_getElem (by simp [List.length_insertIdx, h]) fun i h₁ _ => ?_
  rw [length_slots] at h₁
  rw [getElem_slots, List.getElem_insertIdx]
  rcases Nat.lt_trichotomy i hole with hi | rfl | hi
  · rw [update_of_ne (by omega), spread_apply, if_pos (by omega), dif_pos hi, getElem_slots]
  · rw [update_self, dif_neg (by omega), dif_pos rfl]
  · rw [update_of_ne (by omega), spread_apply, if_neg (by omega), if_pos (by omega),
      dif_neg (by omega), dif_neg (by omega), getElem_slots]

/-- `for (i = 0; i < n; i++) dst[pos + i] = src[start + i];` -/
def blit (dst : ℕ → α) (pos : ℕ) (src : ℕ → α) (start : ℕ) : (n : ℕ) → ℕ → α
  | 0 => dst
  | n + 1 => update (blit dst pos src start n) (pos + n) (src (start + n))

theorem blit_apply (dst : ℕ → α) (pos : ℕ) (src : ℕ → α) (start n k : ℕ) :
    blit dst pos src start n k =
      if pos ≤ k ∧ k < pos + n then src (start + (k - pos)) else dst k := by
  induction n with
  | zero => rw [blit, if_neg (by omega)]
  | succ n ih =>
    rw [blit]
    rcases eq_or_ne k (pos + n) with rfl | hne
    · rw [update_self, if_pos (by omega), Nat.add_sub_cancel_left]
    · rw [update_of_ne hne, ih]
      simp only [show pos ≤ k ∧ k < pos + n ↔ pos ≤ k ∧ k < pos + (n + 1) by omega]

/-- Copying the first slots in use to the front. -/
theorem slots_blit_take (dst src : ℕ → α) {n m : ℕ} (h : n ≤ m) :
    slots (blit dst 0 src 0 n) n = (slots src m).take n := by
  rw [take_slots src h]
  exact slots_congr fun i hi => by simp [blit_apply, hi]

/-- Copying the last slots in use to the front. -/
theorem slots_blit_drop (dst src : ℕ → α) (start m : ℕ) :
    slots (blit dst 0 src start (m - start)) (m - start) = (slots src m).drop start := by
  refine List.ext_getElem (by simp) fun i h₁ _ => ?_
  rw [length_slots] at h₁
  simp [blit_apply, h₁]

/-- Copying slots after those in use. -/
theorem slots_blit_append (dst src : ℕ → α) (n m : ℕ) :
    slots (blit dst n src 0 m) (n + m) = slots dst n ++ slots src m := by
  refine List.ext_getElem (by simp) fun i h₁ _ => ?_
  rw [length_slots] at h₁
  rw [getElem_slots, blit_apply, List.getElem_append]
  by_cases hi : i < n
  · rw [if_neg (by omega), dif_pos (by simpa using hi), getElem_slots]
  · rw [if_pos (by omega), dif_neg (by simpa using hi), getElem_slots]
    simp

end Slots
