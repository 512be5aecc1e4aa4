import Mathlib

/-!
# Tables with a generated key

A table of a database holds rows under a key that the database gives out itself: the keys
of the rows are distinct, and below the next one (`Table`). The statements on one table are
the search by key (`find`), the insertion (`insert`), the change of a row (`modify`) and
the deletion of some rows (`filter`).

* `find_modify`, `find_filter`: what is found after a change;
* `sublistForall₂_modify`, `sublistForall₂_filter`: a table after a change of one row, or
  after a deletion, follows the table before;
* `List.SublistForall₂.filterMap`, `sum_le`, `pairwise` and so on: what a query over rows
  that follow others can return.
-/

/-! ### Rows that follow others -/

namespace List.SublistForall₂

variable {α β : Type*} {R : α → α → Prop} {Q : β → β → Prop} {l' l : List α}

/-- Each row of the following list follows one of the other. -/
theorem exists_of_mem (h : SublistForall₂ R l' l) {a' : α} (ha : a' ∈ l') : ∃ a ∈ l, R a' a := by
  induction h with
  | nil => exact absurd ha not_mem_nil
  | @cons b' b _ _ hb _ ih =>
    rcases mem_cons.1 ha with rfl | ha
    · exact ⟨b, mem_cons_self, hb⟩
    · obtain ⟨a, hmem, hR⟩ := ih ha
      exact ⟨a, mem_cons_of_mem _ hmem, hR⟩
  | cons_right _ ih =>
    obtain ⟨a, hmem, hR⟩ := ih ha
    exact ⟨a, mem_cons_of_mem _ hmem, hR⟩

/-- A query that keeps a row only when it keeps the row that it follows. -/
theorem filterMap {f' f : α → Option β} (h : SublistForall₂ R l' l)
    (hf : ∀ a' a b', R a' a → f' a' = some b' → ∃ b, f a = some b ∧ Q b' b) :
    SublistForall₂ Q (l'.filterMap f') (l.filterMap f) := by
  induction h with
  | nil => exact .nil
  | @cons a' a l' l ha h ih =>
    cases h' : f' a' with
    | none =>
      rw [filterMap_cons_none h']
      cases hfa : f a with
      | none => rwa [filterMap_cons_none hfa]
      | some b =>
        rw [filterMap_cons_some hfa]
        exact .cons_right ih
    | some b' =>
      obtain ⟨b, hb, hQ⟩ := hf a' a b' ha h'
      rw [filterMap_cons_some h', filterMap_cons_some hb]
      exact .cons hQ ih
  | @cons_right a l' l _ ih =>
    cases hfa : f a with
    | none => rwa [filterMap_cons_none hfa]
    | some b =>
      rw [filterMap_cons_some hfa]
      exact .cons_right ih

theorem filter {p' p : α → Bool} (h : SublistForall₂ R l' l)
    (hp : ∀ a' a, R a' a → p' a' → p a) : SublistForall₂ R (l'.filter p') (l.filter p) := by
  rw [← filterMap_eq_filter, ← filterMap_eq_filter]
  refine h.filterMap fun a' a b' hR hb => ?_
  obtain ⟨rfl, hp'⟩ := Option.guard_eq_some_iff.1 hb
  exact ⟨a, Option.guard_eq_some_iff.2 ⟨rfl, hp a' a hR hp'⟩, hR⟩

theorem length_le (h : SublistForall₂ R l' l) : l'.length ≤ l.length := by
  obtain ⟨m, hm, hml⟩ := sublistForall₂_iff.1 h
  exact hm.length_eq.trans_le hml.length_le

theorem countP_le {p' p : α → Bool} (h : SublistForall₂ R l' l)
    (hp : ∀ a' a, R a' a → p' a' → p a) : l'.countP p' ≤ l.countP p := by
  rw [countP_eq_length_filter, countP_eq_length_filter]
  exact (h.filter hp).length_le

/-- A sum of terms that are not negative. -/
theorem sum_le {f' f : α → ℤ} (h : SublistForall₂ R l' l) (hf : ∀ a' a, R a' a → f' a' ≤ f a)
    (hpos : ∀ a ∈ l, 0 ≤ f a) : (l'.map f').sum ≤ (l.map f).sum := by
  induction h with
  | nil =>
    refine sum_nonneg fun x hx => ?_
    obtain ⟨a, ha, rfl⟩ := mem_map.1 hx
    exact hpos a ha
  | cons ha h ih =>
    rw [map_cons, map_cons, sum_cons, sum_cons]
    exact add_le_add (hf _ _ ha) (ih fun a ha => hpos a (mem_cons_of_mem _ ha))
  | cons_right h ih =>
    rw [map_cons, sum_cons]
    exact (ih fun a ha => hpos a (mem_cons_of_mem _ ha)).trans
      (le_add_of_nonneg_left (hpos _ mem_cons_self))

/-- What holds between any two rows. -/
theorem pairwise {S' S : α → α → Prop} (h : SublistForall₂ R l' l) (hl : l.Pairwise S)
    (hS : ∀ a' a b' b, R a' a → R b' b → S a b → S' a' b') : l'.Pairwise S' := by
  induction h with
  | nil => exact .nil
  | @cons a' a l' l ha h ih =>
    obtain ⟨hal, hl⟩ := pairwise_cons.1 hl
    refine pairwise_cons.2 ⟨fun b' hb' => ?_, ih hl⟩
    obtain ⟨b, hb, hR⟩ := h.exists_of_mem hb'
    exact hS a' a b' b ha hR (hal b hb)
  | cons_right h ih => exact ih (pairwise_cons.1 hl).2

end List.SublistForall₂

/-- Rows with distinct keys below the next one. -/
structure Table (α : Type*) (key : α → ℤ) where
  rows : List α
  next : ℤ
  nodup : (rows.map key).Nodup
  fresh : ∀ r ∈ rows, key r < next

namespace Table

variable {α : Type*} {key : α → ℤ}

@[ext] theorem ext {t t' : Table α key} (hrows : t.rows = t'.rows) (hnext : t.next = t'.next) :
    t = t' := by
  cases t
  cases t'
  cases hrows
  cases hnext
  rfl

instance [DecidableEq α] : DecidableEq (Table α key) := fun t t' =>
  decidable_of_iff (t.rows = t'.rows ∧ t.next = t'.next)
    ⟨fun h => ext h.1 h.2, fun h => h ▸ ⟨rfl, rfl⟩⟩

variable (t : Table α key)

/-- The table without rows. -/
def empty : Table α key := ⟨[], 0, List.nodup_nil, nofun⟩

/-- The row under a key. -/
def find (id : ℤ) : Option α := t.rows.find? fun r => key r = id

/-- A new row, built from the key that the table gives it. -/
def insert (mk : ℤ → α) (hmk : key (mk t.next) = t.next) : Table α key where
  rows := t.rows ++ [mk t.next]
  next := t.next + 1
  nodup := by
    rw [List.map_append, List.nodup_append]
    refine ⟨t.nodup, List.nodup_singleton _, fun k hk k' hk' h => ?_⟩
    obtain ⟨r, hr, rfl⟩ := List.mem_map.1 hk
    obtain rfl := List.mem_singleton.1 hk'
    exact absurd (h.trans hmk) (Int.ne_of_lt (t.fresh r hr))
  fresh r hr := by
    rcases List.mem_append.1 hr with hr | hr
    · exact Int.lt_trans (t.fresh r hr) (Int.lt_succ _)
    · obtain rfl := List.mem_singleton.1 hr
      rw [hmk]
      exact Int.lt_succ _

/-- The row under a key is replaced. -/
def modify (id : ℤ) (f : α → α) (hf : ∀ r, key (f r) = key r) : Table α key where
  rows := t.rows.map fun r => if key r = id then f r else r
  next := t.next
  nodup := by
    have h : (fun r => key (if key r = id then f r else r)) = key := by
      funext r
      split
      · exact hf r
      · rfl
    rw [List.map_map]
    exact (congrArg (fun g => (t.rows.map g).Nodup) h).mpr t.nodup
  fresh r hr := by
    obtain ⟨r, hrows, rfl⟩ := List.mem_map.1 hr
    split
    · exact (hf r).symm ▸ t.fresh r hrows
    · exact t.fresh r hrows

/-- The rows that meet a condition stay. -/
def filter (p : α → Bool) : Table α key where
  rows := t.rows.filter p
  next := t.next
  nodup := (List.Sublist.map key List.filter_sublist).nodup t.nodup
  fresh r hr := t.fresh r (List.mem_of_mem_filter hr)

@[simp] theorem rows_insert (mk : ℤ → α) (hmk) :
    (t.insert mk hmk).rows = t.rows ++ [mk t.next] := rfl

@[simp] theorem rows_modify (id : ℤ) (f : α → α) (hf) :
    (t.modify id f hf).rows = t.rows.map fun r => if key r = id then f r else r := rfl

@[simp] theorem rows_filter (p : α → Bool) : (t.filter p).rows = t.rows.filter p := rfl

variable {t} {r r' : α} {id i : ℤ}

/-- Two rows with the same key are one row. -/
theorem eq_of_key (hr : r ∈ t.rows) (hr' : r' ∈ t.rows) (h : key r = key r') : r = r' :=
  List.inj_on_of_nodup_map t.nodup hr hr' h

theorem find_eq_some : t.find id = some r ↔ r ∈ t.rows ∧ key r = id := by
  constructor
  · intro h
    exact ⟨List.mem_of_find?_eq_some h, by simpa using List.find?_some h⟩
  · rintro ⟨hr, rfl⟩
    cases h : t.find (key r) with
    | none => exact absurd (by simp) (List.find?_eq_none.1 h r hr)
    | some r' =>
      have hr' : r' ∈ t.rows ∧ key r' = key r :=
        ⟨List.mem_of_find?_eq_some h, by simpa using List.find?_some h⟩
      rw [eq_of_key hr'.1 hr hr'.2]

theorem mem_of_find (h : t.find id = some r) : r ∈ t.rows := (find_eq_some.1 h).1

theorem key_of_find (h : t.find id = some r) : key r = id := (find_eq_some.1 h).2

/-- After a change of a row. -/
theorem find_modify (f : α → α) (hf) :
    (t.modify id f hf).find i = (t.find i).map fun r => if key r = id then f r else r := by
  unfold find
  rw [rows_modify, List.find?_map]
  congr 2
  funext r
  simp only [Function.comp_apply]
  split
  · rw [hf]
  · rfl

theorem find_modify_self (f : α → α) (hf) (h : t.find id = some r) :
    (t.modify id f hf).find id = some (f r) := by
  rw [find_modify, h, Option.map_some, if_pos (key_of_find h)]

theorem find_modify_of_ne (f : α → α) (hf) (hi : i ≠ id) :
    (t.modify id f hf).find i = t.find i := by
  rw [find_modify]
  cases h : t.find i with
  | none => rfl
  | some r => rw [Option.map_some, if_neg ((key_of_find h).trans_ne hi)]

/-- After a deletion. -/
theorem find_filter {p : α → Bool} (h : (t.filter p).find id = some r) : t.find id = some r :=
  find_eq_some.2 ⟨List.mem_of_mem_filter (mem_of_find h), key_of_find h⟩

theorem find_filter_of_pos {p : α → Bool} (h : t.find id = some r) (hp : p r) :
    (t.filter p).find id = some r :=
  find_eq_some.2 ⟨List.mem_filter.2 ⟨mem_of_find h, hp⟩, key_of_find h⟩

/-- The rows before and after the row under a key, which a change and a deletion leave alone. -/
theorem rows_split (f : α → α) (hf) (h : t.find id = some r) : ∃ l₁ l₂ : List α,
    t.rows = l₁ ++ r :: l₂ ∧ (t.modify id f hf).rows = l₁ ++ f r :: l₂ ∧
      (t.filter fun r => key r ≠ id).rows = l₁ ++ l₂ := by
  obtain ⟨hr, rfl⟩ := find_eq_some.1 h
  obtain ⟨l₁, l₂, hrows⟩ := List.append_of_mem hr
  have hnodup := t.nodup
  rw [hrows, List.map_append, List.map_cons, List.nodup_append, List.nodup_cons] at hnodup
  have h₁ : ∀ r' ∈ l₁, key r' ≠ key r := fun r' hr' =>
    hnodup.2.2 _ (List.mem_map_of_mem hr') _ List.mem_cons_self
  have h₂ : ∀ r' ∈ l₂, key r' ≠ key r := fun r' hr' h =>
    hnodup.2.1.1 (h ▸ List.mem_map_of_mem hr')
  have hmap : ∀ l : List α, (∀ r' ∈ l, key r' ≠ key r) →
      (l.map fun r' => if key r' = key r then f r' else r') = l := fun l hl =>
    (List.map_congr_left fun r' hr' => if_neg (hl r' hr')).trans (List.map_id _)
  have hfilter : ∀ l : List α, (∀ r' ∈ l, key r' ≠ key r) →
      l.filter (fun r' => key r' ≠ key r) = l := fun l hl =>
    List.filter_eq_self.2 fun r' hr' => decide_eq_true (hl r' hr')
  refine ⟨l₁, l₂, hrows, ?_, ?_⟩
  · rw [rows_modify, hrows, List.map_append, List.map_cons, if_pos rfl, hmap l₁ h₁, hmap l₂ h₂]
  · rw [rows_filter, hrows, List.filter_append, hfilter l₁ h₁,
      List.filter_cons_of_neg (by simp), hfilter l₂ h₂]

/-- A change that changes nothing. -/
theorem modify_eq_self (f : α → α) (hf) (h : ∀ r, t.find id = some r → f r = r) :
    t.modify id f hf = t := by
  refine ext ?_ rfl
  rw [rows_modify]
  refine (List.map_congr_left fun r hr => ?_).trans (List.map_id _)
  split
  · exact h r (find_eq_some.2 ⟨hr, by assumption⟩)
  · rfl

/-! ### What follows a table -/

variable {R : α → α → Prop}

/-- A change of rows, each into a row that follows it. -/
theorem sublistForall₂_modify (f : α → α) (hf) (hR : ∀ r, R r r) (h : ∀ r, key r = id → R (f r) r) :
    List.SublistForall₂ R (t.modify id f hf).rows t.rows := by
  refine List.sublistForall₂_iff.2 ⟨t.rows, ?_, List.Sublist.refl _⟩
  rw [rows_modify, List.forall₂_map_left_iff, List.forall₂_same]
  intro r _
  split
  · exact h r (by assumption)
  · exact hR r

theorem sublistForall₂_filter (p : α → Bool) (hR : ∀ r, R r r) :
    List.SublistForall₂ R (t.filter p).rows t.rows :=
  List.sublistForall₂_iff.2
    ⟨_, List.forall₂_same.2 fun r _ => hR r, List.filter_sublist⟩

end Table
