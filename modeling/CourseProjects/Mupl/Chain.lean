import CourseProjects.Mupl.Syntax

/-!
# Chains of mutable pairs

The object that `num-array` makes is a chain of mutable pairs, which lie next to each other, the
last element of the array first (`Chain`). The functions that walk along it find its elements.

* `chain_makeArrayObject`: a new object is a chain of zeros;
* `Chain.arrayLength`, `Chain.mlistRef`, `Chain.setArrayVal`: the walks along a chain;
* `Chain.setArrayVal_apart`, `Chain.makeArrayObject`: what is done to other pairs keeps it.
-/

namespace Mupl

/-- Where the pair leads that is at a place of a chain. -/
def link (base : ℕ) : ℕ → Option ℕ
  | 0 => none
  | j + 1 => some (base + j)

/-- The pairs from `base` up to `base + m` are a chain that holds the values of a function, and no
others lead into it. -/
structure Chain (base m : ℕ) (c : ℤ → ℤ) (h : Heap) : Prop where
  chain : ∀ j ≤ m, h.pairs[base + j]? = some ⟨c (m - j), link base j⟩
  apart : ∀ (l : ℕ) (p : MPair), h.pairs[l]? = some p → l < base ∨ base + m < l →
    ∀ l' ∈ p.mcdr, l' < base ∨ base + m < l'

variable {base m i j l : ℕ} {c : ℤ → ℤ} {h h' : Heap} {num : ℤ} {v : Exp}

namespace Heap

theorem mcdr_eq {p : MPair} (hp : h.pairs[l]? = some p) : h.mcdr l = .ok p.mcdr := by
  rw [mcdr, hp]

theorem mcar_eq {p : MPair} (hp : h.pairs[l]? = some p) : h.mcar l = .ok (.int p.mcar) := by
  rw [mcar, hp]

theorem setMcar_eq {p : MPair} (num : ℤ) (hp : h.pairs[l]? = some p) :
    ∃ h', h.setMcar l num = .ok h' ∧ h'.pairs = h.pairs.set l { p with mcar := num } := by
  rw [setMcar]
  split
  · next q hq =>
    cases hp.symm.trans hq
    exact ⟨_, rfl, rfl⟩
  · next hn => cases hp.symm.trans hn

theorem pairs_of_setMcar (hs : h.setMcar l num = .ok h') : ∃ p, h.pairs[l]? = some p ∧
    h'.pairs = h.pairs.set l { p with mcar := num } := by
  rw [setMcar] at hs
  split at hs
  · next p hp =>
    cases hs
    exact ⟨p, hp, rfl⟩
  · cases hs

theorem arrayLength_eq {p : MPair} (hp : h.pairs[l]? = some p) : h.arrayLength l =
    match p.mcdr with
    | none => .ok 1
    | some l' => (h.arrayLength l').map fun length => 1 + length := by
  rw [arrayLength]
  split
  · next q hq =>
    cases hp.symm.trans hq
    split
    · next hm => rw [hm]
    · next hm => rw [hm]
  · next hn => cases hp.symm.trans hn

end Heap

namespace Chain

theorem arrayLength (hc : Chain base m c h) (hj : j ≤ m) :
    h.arrayLength (base + j) = .ok (j + 1 : ℕ) := by
  induction j with
  | zero => rw [Heap.arrayLength_eq (hc.chain 0 hj)]; rfl
  | succ j ih =>
    rw [Heap.arrayLength_eq (hc.chain (j + 1) hj)]
    change (h.arrayLength (base + j)).map _ = _
    rw [ih (by omega)]
    refine congrArg Except.ok ?_
    push_cast
    ring

theorem mlistRef (hc : Chain base m c h) (hij : i ≤ j) (hj : j ≤ m) :
    h.mlistRef (some (base + j)) i = .ok (.int (c (m - j + i))) := by
  induction i generalizing j with
  | zero =>
    rw [Heap.mlistRef, Heap.mcar_eq (hc.chain j hj)]
    simp
  | succ i ih =>
    obtain ⟨j, rfl⟩ := Nat.exists_eq_add_of_le' (show 1 ≤ j by omega)
    rw [Heap.mlistRef, Heap.mcdr_eq (hc.chain (j + 1) hj)]
    change h.mlistRef (some (base + j)) i = _
    rw [ih (by omega) (by omega)]
    congr 3
    push_cast
    ring

/-- A pair of the chain is written. -/
theorem set (hc : Chain base m c h) (hj : j ≤ m)
    (hs : h'.pairs = h.pairs.set (base + j) ⟨num, link base j⟩) :
    Chain base m (Function.update c (m - j) num) h' := by
  have hlt : base + j < h.pairs.length := (List.getElem?_eq_some_iff.1 (hc.chain j hj)).1
  constructor
  · intro k hk
    rw [hs, List.getElem?_set]
    by_cases hjk : j = k
    · rw [if_pos (by omega), if_pos hlt, hjk, Function.update_self]
    · rw [if_neg (by omega), hc.chain k hk, Function.update_of_ne (by omega)]
  · intro k p hp hk
    rw [hs, List.getElem?_set, if_neg (by omega)] at hp
    exact hc.apart k p hp hk

/-- Another pair is written. -/
theorem set_apart (hc : Chain base m c h) {p : MPair} (hp : h.pairs[l]? = some p)
    (hl : l < base ∨ base + m < l) (hs : h'.pairs = h.pairs.set l { p with mcar := num }) :
    Chain base m c h' := by
  have hlt : l < h.pairs.length := (List.getElem?_eq_some_iff.1 hp).1
  constructor
  · intro k hk
    rw [hs, List.getElem?_set, if_neg (by omega)]
    exact hc.chain k hk
  · intro k q hq hk l' hl'
    rw [hs, List.getElem?_set] at hq
    by_cases hlk : l = k
    · rw [if_pos hlk, if_pos hlt] at hq
      cases hq
      exact hc.apart l p hp hl l' hl'
    · rw [if_neg hlk] at hq
      exact hc.apart k q hq hk l' hl'

theorem setArrayVal (num : ℤ) (hc : Chain base m c h) (hij : i ≤ j) (hj : j ≤ m) :
    ∃ h', h.setArrayVal num (some (base + j)) i = .ok h' ∧
      Chain base m (Function.update c (m - j + i) num) h' := by
  induction i generalizing j with
  | zero =>
    obtain ⟨h', hs, hpairs⟩ := Heap.setMcar_eq num (hc.chain j hj)
    refine ⟨h', hs, ?_⟩
    rw [Nat.cast_zero, add_zero]
    exact hc.set hj hpairs
  | succ i ih =>
    obtain ⟨j, rfl⟩ := Nat.exists_eq_add_of_le' (show 1 ≤ j by omega)
    obtain ⟨h', hs, hc'⟩ := ih (j := j) (by omega) (by omega)
    refine ⟨h', ?_, ?_⟩
    · rw [Heap.setArrayVal, Heap.mcdr_eq (hc.chain (j + 1) hj)]
      exact hs
    · convert hc' using 2
      push_cast
      ring

/-- Another array is written. -/
theorem setArrayVal_apart (hc : Chain base m c h) (hl : l < base ∨ base + m < l)
    (hs : h.setArrayVal num (some l) i = .ok h') : Chain base m c h' := by
  induction i generalizing l with
  | zero =>
    obtain ⟨p, hp, hpairs⟩ := Heap.pairs_of_setMcar hs
    exact hc.set_apart hp hl hpairs
  | succ i ih =>
    rw [Heap.setArrayVal, Heap.mcdr] at hs
    split at hs
    · next p hp =>
      cases hm : p.mcdr with
      | none =>
        change h.setArrayVal num p.mcdr i = _ at hs
        rw [hm, Heap.setArrayVal] at hs
        cases hs
      | some l' =>
        change h.setArrayVal num p.mcdr i = _ at hs
        rw [hm] at hs
        exact ih (hc.apart l p hp hl l' hm) hs
    · cases hs

theorem lt_next (hc : Chain base m c h) (hj : j ≤ m) : base + j < h.next :=
  (List.getElem?_eq_some_iff.1 (hc.chain j hj)).1

/-- A new pair leads to another new one, or nowhere. -/
theorem mcons (hc : Chain base m c h) {rest : Option (Fin h.next)}
    (hrest : ∀ l ∈ rest, base + m < l) : Chain base m c (h.mcons num rest) := by
  constructor
  · intro j hj
    rw [Heap.mcons, List.getElem?_append_left (hc.lt_next hj)]
    exact hc.chain j hj
  · intro l p hp hl l' hl'
    rw [Heap.mcons] at hp
    rcases lt_or_ge l h.pairs.length with hlt | hge
    · rw [List.getElem?_append_left hlt] at hp
      exact hc.apart l p hp hl l' hl'
    · rw [List.getElem?_append_right hge, List.getElem?_singleton] at hp
      split at hp
      · cases hp
        obtain ⟨k, hk, rfl⟩ := Option.mem_map.1 hl'
        exact .inr (hrest k hk)
      · cases hp

theorem makeArrayObject (hc : Chain base m c h) (size : ℕ) :
    Chain base m c (h.makeArrayObject size).1 ∧
      ∀ l ∈ (h.makeArrayObject size).2, base + m < l := by
  induction size with
  | zero => exact ⟨hc, fun l hl => nomatch hl⟩
  | succ size ih =>
    refine ⟨ih.1.mcons ih.2, fun l hl => ?_⟩
    cases hl
    exact ih.1.lt_next le_rfl

end Chain

/-- The pairs of a new array. -/
theorem makeArrayObject_pairs (h : Heap) (size : ℕ) :
    (h.makeArrayObject size).1.pairs =
      h.pairs ++ (List.range size).map (fun j => ⟨0, link h.next j⟩) ∧
    (h.makeArrayObject size).2.map Fin.val = link h.next size := by
  induction size with
  | zero => exact ⟨(List.append_nil _).symm, rfl⟩
  | succ size ih =>
    constructor
    · change (h.makeArrayObject size).1.pairs ++ [⟨0, (h.makeArrayObject size).2.map Fin.val⟩] = _
      rw [ih.1, ih.2, List.range_succ, List.map_append, List.append_assoc]
      rfl
    · change some (h.makeArrayObject size).1.pairs.length = some (h.pairs.length + size)
      rw [ih.1, List.length_append, List.length_map, List.length_range]

theorem chain_makeArrayObject (h : Heap) (m : ℕ) :
    Chain h.next m (fun _ => 0) (h.makeArrayObject (m + 1)).1 := by
  have hpairs := (makeArrayObject_pairs h (m + 1)).1
  constructor
  · intro j hj
    rw [hpairs, Heap.next, List.getElem?_append_right (Nat.le_add_right _ j),
      Nat.add_sub_cancel_left, List.getElem?_map, List.getElem?_range (by omega)]
    rfl
  · intro l p hp hl l' hl'
    have hlt := (List.getElem?_eq_some_iff.1 hp).1
    rw [hpairs, List.length_append, List.length_map, List.length_range] at hlt
    have hlt : l < h.pairs.length := by
      rw [Heap.next] at hl
      omega
    rw [hpairs, List.getElem?_append_left hlt] at hp
    exact .inl ((h.older l p hp l' hl').trans hlt)

end Mupl
