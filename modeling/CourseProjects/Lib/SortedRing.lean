import Mathlib

/-!
# Sorted rings

A finite set of nodes, each of which points to the next one above it, and the last one to the
first (`Linked`). A walk follows the pointers until it finds what it looks for.

* `Linked.insert`, `Linked.erase`: a node is put in after another one, or taken out.
* `Linked.exists_walk`: a walk finds a node that is there, from wherever it starts.
-/

namespace SortedRing

open Function

variable {α : Type*} [LinearOrder α]

/-- In a set of nodes with the least one `base`, `b` comes after `a`. -/
def Next (S : Finset α) (base a b : α) : Prop :=
  (b ∈ S ∧ a < b ∧ ∀ x ∈ S, a < x → b ≤ x) ∨ (b = base ∧ ∀ x ∈ S, x ≤ a)

/-- The pointers of a ring. -/
structure Linked (next : α → α) (S : Finset α) (base : α) : Prop where
  base_mem : base ∈ S
  base_le : ∀ a ∈ S, base ≤ a
  next : ∀ a ∈ S, Next S base a (next a)

/-- The node after which another one has its place. -/
structure Before (S : Finset α) (x p : α) : Prop where
  mem : p ∈ S
  lt : p < x
  le : ∀ y ∈ S, y < x → y ≤ p

variable {next next' : α → α} {S : Finset α} {base a p q x : α}

theorem Linked.next_mem (h : Linked next S base) (ha : a ∈ S) : next a ∈ S := by
  rcases h.next a ha with h' | h'
  · exact h'.1
  · exact h'.1 ▸ h.base_mem

theorem Linked.congr (h : Linked next S base) (heq : ∀ a ∈ S, next' a = next a) :
    Linked next' S base :=
  ⟨h.base_mem, h.base_le, fun a ha => heq a ha ▸ h.next a ha⟩

/-- A node comes before what is above it. -/
theorem Linked.le_of_lt (h : Linked next S base) (ha : a ∈ S) (hx : x ∈ S) (hax : a < x) :
    a < next a ∧ next a ≤ x := by
  rcases h.next a ha with h' | h'
  · exact ⟨h'.2.1, h'.2.2 x hx hax⟩
  · exact absurd (h'.2 x hx) (not_le.2 hax)

/-- A node is put in after the one before it. -/
theorem Linked.insert (h : Linked next S base) (hp : Before S x p) (hx : x ∉ S) :
    Linked (update (update next x (next p)) p x) (insert x S) base := by
  have hpx : p ≠ x := hp.lt.ne
  refine ⟨Finset.mem_insert_of_mem h.base_mem, fun a ha => ?_, fun a ha => ?_⟩
  · rcases Finset.mem_insert.1 ha with rfl | ha
    · exact (h.base_le p hp.mem).trans hp.lt.le
    · exact h.base_le a ha
  · rcases Finset.mem_insert.1 ha with rfl | haS
    · rw [update_of_ne hpx.symm, update_self]
      rcases h.next p hp.mem with h' | h'
      · -- What came after `p` is above the new node.
        have hlt : a < next p := lt_of_not_ge fun hle => by
          rcases hle.eq_or_lt with he | hlt
          · exact hx (he ▸ h'.1)
          · exact absurd (hp.le _ h'.1 hlt) (not_le.2 h'.2.1)
        refine .inl ⟨Finset.mem_insert_of_mem h'.1, hlt, fun y hy hay => ?_⟩
        rcases Finset.mem_insert.1 hy with rfl | hy
        · exact absurd hay (lt_irrefl y)
        · exact h'.2.2 y hy (hp.lt.trans hay)
      · refine .inr ⟨h'.1, fun y hy => ?_⟩
        rcases Finset.mem_insert.1 hy with rfl | hy
        · exact le_rfl
        · exact (h'.2 y hy).trans hp.lt.le
    · have hax : a ≠ x := fun he => hx (he ▸ haS)
      by_cases hap : a = p
      · subst hap
        rw [update_self]
        refine .inl ⟨Finset.mem_insert_self _ _, hp.lt, fun y hy hay => ?_⟩
        rcases Finset.mem_insert.1 hy with rfl | hy
        · exact le_rfl
        · exact le_of_not_gt fun hyx => absurd (hp.le y hy hyx) (not_le.2 hay)
      · rw [update_of_ne hap, update_of_ne hax]
        rcases h.next a haS with h' | h'
        · refine .inl ⟨Finset.mem_insert_of_mem h'.1, h'.2.1, fun y hy hay => ?_⟩
          rcases Finset.mem_insert.1 hy with rfl | hy
          · have hlt : a < p := lt_of_le_of_ne (hp.le a haS hay) hap
            exact (h'.2.2 p hp.mem hlt).trans hp.lt.le
          · exact h'.2.2 y hy hay
        · have hle := h'.2 p hp.mem
          have hlt : x < a := lt_of_not_ge fun hle' => by
            have hax' := lt_of_le_of_ne hle' hax
            exact hap (le_antisymm (hp.le a haS hax') hle)
          refine .inr ⟨h'.1, fun y hy => ?_⟩
          rcases Finset.mem_insert.1 hy with rfl | hy
          · exact hlt.le
          · exact h'.2 y hy

/-- The node after another one is taken out. -/
theorem Linked.erase (h : Linked next S base) (hp : p ∈ S) (hq : next p ≠ base) :
    Linked (update next p (next (next p))) (S.erase (next p)) base := by
  have hqS := h.next_mem hp
  have hlt : p < next p ∧ ∀ y ∈ S, p < y → next p ≤ y := by
    rcases h.next p hp with h' | h'
    · exact h'.2
    · exact absurd h'.1 hq
  refine ⟨Finset.mem_erase.2 ⟨hq.symm, h.base_mem⟩,
    fun a ha => h.base_le a (Finset.mem_of_mem_erase ha), fun a ha => ?_⟩
  obtain ⟨haq, haS⟩ := Finset.mem_erase.1 ha
  by_cases hap : a = p
  · subst hap
    rw [update_self]
    rcases h.next _ hqS with h' | h'
    · refine .inl ⟨Finset.mem_erase.2 ⟨h'.2.1.ne', h'.1⟩, hlt.1.trans h'.2.1, fun y hy hay => ?_⟩
      obtain ⟨hyq, hyS⟩ := Finset.mem_erase.1 hy
      exact h'.2.2 y hyS (lt_of_le_of_ne (hlt.2 y hyS hay) hyq.symm)
    · refine .inr ⟨h'.1, fun y hy => ?_⟩
      obtain ⟨hyq, hyS⟩ := Finset.mem_erase.1 hy
      exact le_of_not_gt fun hay => hyq (le_antisymm (h'.2 y hyS) (hlt.2 y hyS hay))
  · rw [update_of_ne hap]
    rcases h.next a haS with h' | h'
    · have hne : next a ≠ next p := fun he => by
        rcases lt_or_gt_of_ne hap with hlt' | hgt
        · exact absurd (h'.2.2 p hp hlt') (not_le.2 (he ▸ hlt.1))
        · exact absurd (hlt.2 a haS hgt) (not_le.2 (he ▸ h'.2.1))
      exact .inl ⟨Finset.mem_erase.2 ⟨hne, h'.1⟩, h'.2.1,
        fun y hy => h'.2.2 y (Finset.mem_of_mem_erase hy)⟩
    · exact .inr ⟨h'.1, fun y hy => h'.2 y (Finset.mem_of_mem_erase hy)⟩

/-! ### Walks -/

/-- From a node on, the first one that is looked for. -/
def walk (next : α → α) (found : α → Bool) : ℕ → α → Option α
  | 0, _ => none
  | fuel + 1, a => if found a then some a else walk next found fuel (next a)

/-- How many nodes there are from `a` to `t`, around the ring. -/
def distance (S : Finset α) (a t : α) : ℕ :=
  if a ≤ t then (S.filter fun x => a < x ∧ x ≤ t).card
  else (S.filter fun x => a < x ∨ x ≤ t).card

variable {found : α → Bool} {t : α}

theorem distance_lt (ha : a ∈ S) : distance S a t < S.card := by
  rw [distance]
  split
  · refine Finset.card_lt_card (Finset.filter_ssubset.2 ⟨a, ha, fun h => lt_irrefl a h.1⟩)
  · rename_i hat
    exact Finset.card_lt_card (Finset.filter_ssubset.2 ⟨a, ha, fun h => h.elim (lt_irrefl a) hat⟩)

theorem distance_self : distance S a a = 0 := by simp [distance]

/-- The next node is one nearer. -/
theorem Linked.distance_next (h : Linked next S base) (ha : a ∈ S) (ht : t ∈ S) (hat : a ≠ t) :
    distance S a t = distance S (next a) t + 1 := by
  have hnext := h.next_mem ha
  rcases lt_or_gt_of_ne hat with hlt | hgt
  · obtain ⟨hlt', hle⟩ := h.le_of_lt ha ht hlt
    rw [distance, distance, if_pos hle, if_pos hlt.le,
      ← Finset.card_insert_of_notMem (a := next a) (by simp)]
    congr 1
    ext x
    simp only [Finset.mem_filter, Finset.mem_insert]
    constructor
    · rintro ⟨hx, hax, hxt⟩
      exact ((h.le_of_lt ha hx hax).2.eq_or_lt.imp Eq.symm fun h' => ⟨hx, h', hxt⟩)
    · rintro (rfl | ⟨hx, hax, hxt⟩)
      · exact ⟨hnext, hlt', hle⟩
      · exact ⟨hx, hlt'.trans hax, hxt⟩
  · rw [distance, if_neg (not_le.2 hgt), distance]
    rcases h.next a ha with h' | h'
    · have hnt := hgt.trans h'.2.1
      rw [if_neg (not_le.2 hnt), ← Finset.card_insert_of_notMem (a := next a) (by simp [hnt])]
      congr 1
      ext x
      simp only [Finset.mem_filter, Finset.mem_insert]
      constructor
      · rintro ⟨hx, hax | hxt⟩
        · exact (h'.2.2 x hx hax).eq_or_lt.imp Eq.symm fun h' => ⟨hx, .inl h'⟩
        · exact .inr ⟨hx, .inr hxt⟩
      · rintro (rfl | ⟨hx, hax | hxt⟩)
        · exact ⟨hnext, .inl h'.2.1⟩
        · exact ⟨hx, .inl (h'.2.1.trans hax)⟩
        · exact ⟨hx, .inr hxt⟩
    · -- The walk comes round to the first node.
      rw [h'.1, if_pos (h.base_le t ht), ← Finset.card_insert_of_notMem (a := base) (by simp)]
      congr 1
      ext x
      simp only [Finset.mem_filter, Finset.mem_insert]
      constructor
      · rintro ⟨hx, hax | hxt⟩
        · exact absurd (h'.2 x hx) (not_le.2 hax)
        · exact (h.base_le x hx).eq_or_lt.imp Eq.symm fun h' => ⟨hx, h', hxt⟩
      · rintro (rfl | ⟨hx, -, hxt⟩)
        · exact ⟨h.base_mem, .inr (h.base_le t ht)⟩
        · exact ⟨hx, .inr hxt⟩

/-- A walk finds one of the nodes that are looked for. -/
theorem Linked.exists_walk (h : Linked next S base) (ha : a ∈ S) (ht : t ∈ S)
    (hfound : found t = true) {fuel : ℕ} (hfuel : S.card ≤ fuel) :
    ∃ p ∈ S, walk next found fuel a = some p ∧ found p = true := by
  suffices hwalk : ∀ fuel a, a ∈ S → distance S a t < fuel →
      ∃ p ∈ S, walk next found fuel a = some p ∧ found p = true from
    hwalk fuel a ha ((distance_lt ha).trans_le hfuel)
  intro fuel
  induction fuel with
  | zero => exact fun a _ hlt => absurd hlt (Nat.not_lt_zero _)
  | succ fuel ih =>
    intro a ha hlt
    by_cases hfa : found a = true
    · exact ⟨a, ha, if_pos hfa, hfa⟩
    · have hat : a ≠ t := fun he => hfa (he ▸ hfound)
      rw [h.distance_next ha ht hat] at hlt
      obtain ⟨p, hp, hwalk, hfp⟩ := ih (next a) (h.next_mem ha) (Nat.lt_of_succ_lt_succ hlt)
      exact ⟨p, hp, (if_neg hfa).trans hwalk, hfp⟩

/-- Each node comes after one of them. -/
theorem Linked.exists_prev (h : Linked next S base) (hx : x ∈ S) : ∃ p ∈ S, next p = x := by
  by_cases hb : x = base
  · subst hb
    have hmax := Finset.max'_mem S ⟨x, hx⟩
    refine ⟨_, hmax, ?_⟩
    rcases h.next _ hmax with h' | h'
    · exact absurd (Finset.le_max' S _ h'.1) (not_le.2 h'.2.1)
    · exact h'.1
  · have hlt : base < x := lt_of_le_of_ne (h.base_le x hx) (Ne.symm hb)
    have hne : (S.filter fun y => y < x).Nonempty := ⟨base, Finset.mem_filter.2 ⟨h.base_mem, hlt⟩⟩
    have hmax := Finset.max'_mem _ hne
    obtain ⟨hmem, hlt'⟩ := Finset.mem_filter.1 hmax
    refine ⟨_, hmem, ?_⟩
    obtain ⟨hgt, hle⟩ := h.le_of_lt hmem hx hlt'
    refine hle.eq_or_lt.resolve_right fun hlt'' => absurd hgt (not_lt.2 ?_)
    exact Finset.le_max' _ _ (Finset.mem_filter.2 ⟨h.next_mem hmem, hlt''⟩)

/-- Nothing that is nearer than where a walk ends was looked for. -/
theorem Linked.not_found_of_walk (h : Linked next S base) {fuel : ℕ} (ha : a ∈ S) (hp : p ∈ S)
    (hwalk : walk next found fuel a = some p) (hx : x ∈ S) (hlt : distance S a x < distance S a p) :
    found x = false := by
  induction fuel generalizing a with
  | zero => cases hwalk
  | succ fuel ih =>
    rw [walk] at hwalk
    split at hwalk
    · obtain rfl := Option.some.inj hwalk
      rw [distance_self] at hlt
      exact absurd hlt (Nat.not_lt_zero _)
    · rename_i hfa
      by_cases hax : a = x
      · subst hax
        simpa using hfa
      · have hap : a ≠ p := by
          rintro rfl
          rw [distance_self] at hlt
          exact absurd hlt (Nat.not_lt_zero _)
        rw [h.distance_next ha hx hax, h.distance_next ha hp hap] at hlt
        exact ih (h.next_mem ha) hwalk (Nat.lt_of_succ_lt_succ hlt)

/-- All the way round, the last node is the one before the first. -/
theorem Linked.distance_lt_prev (h : Linked next S base) (hp : p ∈ S) (hx : x ∈ S)
    (hxp : x ≠ p) : distance S (next p) x < distance S (next p) p := by
  rcases h.next p hp with h' | h'
  · have hap := not_le.2 h'.2.1
    rw [distance, distance, if_neg hap]
    split
    · refine Finset.card_lt_card (Finset.ssubset_iff_of_subset (fun y hy => ?_) |>.2 ⟨p, ?_, ?_⟩)
      · rw [Finset.mem_filter] at hy ⊢
        exact ⟨hy.1, .inl hy.2.1⟩
      · exact Finset.mem_filter.2 ⟨hp, .inr le_rfl⟩
      · exact fun hmem => absurd (Finset.mem_filter.1 hmem).2.1 h'.2.1.not_gt
    · rename_i hax
      have hlt : x < p := lt_of_le_of_ne (le_of_not_gt fun hgt => hax (h'.2.2 x hx hgt)) hxp
      refine Finset.card_lt_card (Finset.ssubset_iff_of_subset (fun y hy => ?_) |>.2 ⟨p, ?_, ?_⟩)
      · rw [Finset.mem_filter] at hy ⊢
        exact ⟨hy.1, hy.2.imp_right hlt.le.trans'⟩
      · exact Finset.mem_filter.2 ⟨hp, .inr le_rfl⟩
      · exact fun hmem => (Finset.mem_filter.1 hmem).2.elim h'.2.1.not_gt hlt.not_ge
  · have hlt : x < p := lt_of_le_of_ne (h'.2 x hx) hxp
    have hbx := h.base_le x hx
    rw [h'.1, distance, distance, if_pos hbx, if_pos (hbx.trans hlt.le)]
    refine Finset.card_lt_card (Finset.ssubset_iff_of_subset (fun y hy => ?_) |>.2 ⟨p, ?_, ?_⟩)
    · rw [Finset.mem_filter] at hy ⊢
      exact ⟨hy.1, hy.2.1, hy.2.2.trans hlt.le⟩
    · exact Finset.mem_filter.2 ⟨hp, hbx.trans_lt hlt, le_rfl⟩
    · exact fun hmem => hlt.not_ge (Finset.mem_filter.1 hmem).2.2

end SortedRing
