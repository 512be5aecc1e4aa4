import CourseProjects.BPlusTree.Shape
import CourseProjects.BPlusTree.Order

/-!
# Neighbouring pages

What a page with too few entries has done to it, as operations on the trees: it
is merged with a neighbour (`merge`), or gets an entry of a neighbour
(`Borrow`), which changes the separator between them.

Both keep the pages, but for the one that is merged into the other, the sizes
allowed, the leaves in their order with the same records (`Rearranged`), and the
search order of the tree around them (`Tidy.merge`, `Tidy.borrow`).
-/

namespace CourseProjects.BPlusTree

open Slots Function PerfectTree

/-! ### Sizes -/

/-- The records of a leaf, or the keys of an internal page. -/
def entries : {h : ℕ} → PageTree h → ℕ
  | 0, l => (Tip.data l).recs.length
  | _ + 1, n => (Inner.rest n).length

/-- The least and the greatest number of entries of a page other than the root,
    of a given height. -/
def minEntries : ℕ → ℕ
  | 0 => cut leafMax
  | _ + 1 => cut internalMax

def maxEntries : ℕ → ℕ
  | 0 => leafMax
  | _ + 1 => internalMax

/-- The pages of a tree below the page `par` are of allowed sizes. -/
abbrev Allowed {h : ℕ} (par : Option ℕ) (T : PageTree h) : Prop :=
  Sized leafOk (cut internalMax) internalMax par T

/-- The pages around a hole filled with the page `a` are of allowed sizes. -/
abbrev AllowedAround {h H : ℕ} (c : Ctx ℤ ℕ Leaf h H) (a : ℕ) : Prop :=
  c.Sized leafOk (cut internalMax) internalMax a

/-- The children of a page are of allowed sizes. -/
def ChildrenSized : {h : ℕ} → PageTree h → Prop
  | 0, _ => True
  | _ + 1, n => ∀ u ∈ Inner.children n, Allowed (some (Inner.label n)) u

theorem sized_iff {h : ℕ} {par : Option ℕ} {T : PageTree h} :
    Allowed par T ↔
      ((if par.isNone then 1 else minEntries h) ≤ entries T ∧ entries T ≤ maxEntries h) ∧
        ChildrenSized T := by
  cases h with
  | zero => exact (and_iff_left trivial).symm
  | succ h =>
    rw [Allowed, Sized, everywhere_succ]
    simp only [Inner.rest_map, List.length_map]
    exact Iff.rfl

/-! ### Merging two pages -/

/-- The leaf or the internal page with the contents of both. -/
def merge : {h : ℕ} → PageTree h → ℤ → PageTree h → PageTree h
  | 0, A, _, B =>
    (⟨Tip.label A, ⟨(Tip.data A).recs ++ (Tip.data B).recs, (Tip.data B).next⟩⟩ : Tip ℕ Leaf)
  | h + 1, A, k, B => (Inner.append A k B : Inner ℤ ℕ (PageTree h))

section merge

variable {h : ℕ} {A B : PageTree h} {k : ℤ}

@[simp] theorem label_merge : label (merge A k B) = label A := by
  cases h <;> rfl

theorem entries_merge :
    entries (merge A k B) = entries A + entries B + if h = 0 then 0 else 1 := by
  cases h with
  | zero => simp [entries, merge]
  | succ h => simp [entries, merge, Inner.append, Nat.add_assoc]

theorem childrenSized_merge (hA : ChildrenSized A) (hB : ChildrenSized B) :
    ChildrenSized (merge A k B) := by
  cases h with
  | zero => trivial
  | succ h =>
    intro u hu
    have hu' : u ∈ (Inner.append A k B).children := hu
    rw [Inner.children_append] at hu'
    rcases List.mem_append.1 hu' with hu | hu
    · exact hA u hu
    · exact (hB u hu).relabel _

/-- The pages: the second one is gone. -/
theorem labels_merge : (labels A ++ labels B).Perm (label B :: labels (merge A k B)) := by
  cases h with
  | zero => exact List.Perm.swap _ _ _
  | succ h =>
    have hm : labels (merge A k B) = Inner.label A :: (Inner.children A ++ Inner.children B).flatMap
        PerfectTree.labels := by
      rw [← Inner.children_append A k B]
      rfl
    rw [hm, labels, labels, List.flatMap_append]
    exact List.perm_middle

/-- The leaves of the merged page. -/
theorem tips_merge {A B : PageTree (h + 1)} : tips (merge A k B) = tips A ++ tips B := by
  have hm : tips (merge A k B) = (Inner.children A ++ Inner.children B).flatMap tips := by
    rw [← Inner.children_append A k B]
    rfl
  rw [hm, List.flatMap_append, tips, tips]

/-- The merged page is ordered between the bounds of both. -/
theorem ordered_merge {lo : WithBot ℤ} {hi : WithTop ℤ}
    (hAB : OrderedPair Leaf.keys lo hi A k B) : Ordered Leaf.keys lo hi (merge A k B) := by
  cases h with
  | zero =>
    obtain ⟨hA, hlo, hhi, hB⟩ := hAB
    intro x hx
    have hx' : x ∈ Leaf.keys (Tip.data A) ++ Leaf.keys (Tip.data B) := by
      simpa [merge, Leaf.keys] using hx
    rcases List.mem_append.1 hx' with hx | hx
    · refine ⟨(hA x hx).1, ?_⟩
      exact (hA x hx).2.trans hhi
    · refine ⟨?_, (hB x hx).2⟩
      exact hlo.le.trans (hB x hx).1
  | succ h => exact ordered_append.2 hAB

end merge

/-! ### Borrowing from a page -/

/-- Two neighbouring pages, with the separator between them, before and after an
    entry goes from one to the other. -/
inductive Borrow : {h : ℕ} → (A : PageTree h) → ℤ → (B : PageTree h) → (A' : PageTree h) → ℤ →
    (B' : PageTree h) → Prop
  | lastRecord {a b next next' : ℕ} {rs ss : List Record} {r : Record} {k : ℤ} :
    Borrow (h := 0) (⟨a, ⟨rs ++ [r], next⟩⟩ : Tip ℕ Leaf) k (⟨b, ⟨ss, next'⟩⟩ : Tip ℕ Leaf)
      (⟨a, ⟨rs, next⟩⟩ : Tip ℕ Leaf) r.key (⟨b, ⟨r :: ss, next'⟩⟩ : Tip ℕ Leaf)
  | firstRecord {a b next next' : ℕ} {rs ss : List Record} {r s : Record} {k : ℤ} :
    Borrow (h := 0) (⟨a, ⟨rs, next⟩⟩ : Tip ℕ Leaf) k (⟨b, ⟨r :: s :: ss, next'⟩⟩ : Tip ℕ Leaf)
      (⟨a, ⟨rs ++ [r], next⟩⟩ : Tip ℕ Leaf) s.key (⟨b, ⟨s :: ss, next'⟩⟩ : Tip ℕ Leaf)
  | lastChild {h a b : ℕ} {u v w : PageTree h} {rs ss : List (ℤ × PageTree h)} {k k' : ℤ} :
    Borrow (h := h + 1) (⟨a, u, rs ++ [(k', v)]⟩ : Inner ℤ ℕ (PageTree h)) k
      (⟨b, w, ss⟩ : Inner ℤ ℕ (PageTree h)) (⟨a, u, rs⟩ : Inner ℤ ℕ (PageTree h)) k'
      (⟨b, v, (k, w) :: ss⟩ : Inner ℤ ℕ (PageTree h))
  | firstChild {h a b : ℕ} {u v w : PageTree h} {rs ss : List (ℤ × PageTree h)} {k k' : ℤ} :
    Borrow (h := h + 1) (⟨a, u, rs⟩ : Inner ℤ ℕ (PageTree h)) k
      (⟨b, v, (k', w) :: ss⟩ : Inner ℤ ℕ (PageTree h))
      (⟨a, u, rs ++ [(k, v)]⟩ : Inner ℤ ℕ (PageTree h)) k'
      (⟨b, w, ss⟩ : Inner ℤ ℕ (PageTree h))

/-- Leaves in place of others: the same records, entered at the same leaf and
    followed by the same one. -/
structure Rearranged (ls ls' : List (Tip ℕ Leaf)) : Prop where
  start : ∀ e, start e ls' = start e ls
  linked : ∀ e, Linked e ls → Linked e ls'
  records : tipRecords ls' = tipRecords ls

theorem Rearranged.refl (ls : List (Tip ℕ Leaf)) : Rearranged ls ls :=
  ⟨fun _ => rfl, fun _ h => h, rfl⟩

theorem Rearranged.append {ls ls' : List (Tip ℕ Leaf)} (h : Rearranged ls ls')
    (a b : List (Tip ℕ Leaf)) : Rearranged (a ++ ls ++ b) (a ++ ls' ++ b) where
  start e := by simp only [start_append, h.start]
  linked e := by
    simp only [linked_append, h.start]
    rintro ⟨⟨ha, hls⟩, hb⟩
    exact ⟨⟨ha, h.linked _ hls⟩, hb⟩
  records := by simp only [tipRecords_append, h.records]

theorem rearranged_merge {h : ℕ} {A B : PageTree h} {k : ℤ} :
    Rearranged (tips A ++ tips B) (tips (merge A k B)) := by
  cases h with
  | zero =>
    refine ⟨fun _ => rfl, fun _ h => ?_, ?_⟩
    · obtain ⟨-, hB, -⟩ := h
      exact ⟨hB, trivial⟩
    · simp [merge, tips, tipRecords]
  | succ h => exact tips_merge ▸ .refl _

namespace Borrow

variable {h : ℕ} {A B A' B' : PageTree h} {k k' : ℤ}

theorem label_left (hb : Borrow A k B A' k' B') : label A' = label A := by
  cases hb <;> rfl

theorem label_right (hb : Borrow A k B A' k' B') : label B' = label B := by
  cases hb <;> rfl

theorem childrenSized (hb : Borrow A k B A' k' B') (hA : ChildrenSized A) (hB : ChildrenSized B) :
    ChildrenSized A' ∧ ChildrenSized B' := by
  cases hb with
  | lastRecord | firstRecord => exact ⟨trivial, trivial⟩
  | @lastChild h a b u v w rs ss k k' =>
    simp only [ChildrenSized, Inner.children, List.map_append, List.map_cons, List.map_nil,
      List.mem_cons, List.mem_append, List.not_mem_nil, or_false] at hA hB ⊢
    refine ⟨fun x hx => hA x (by tauto), fun x hx => ?_⟩
    rcases hx with rfl | rfl | hx
    exacts [(hA x (by tauto)).relabel _, hB x (by tauto), hB x (by tauto)]
  | @firstChild h a b u v w rs ss k k' =>
    simp only [ChildrenSized, Inner.children, List.map_append, List.map_cons, List.map_nil,
      List.mem_cons, List.mem_append, List.not_mem_nil, or_false] at hA hB ⊢
    refine ⟨fun x hx => ?_, fun x hx => hB x (by tauto)⟩
    rcases hx with rfl | hx | rfl
    exacts [hA x (by tauto), hA x (by tauto), (hB x (by tauto)).relabel _]

/-- The pages stay the same. -/
theorem labels_perm (hb : Borrow A k B A' k' B') :
    (labels A' ++ labels B').Perm (labels A ++ labels B) := by
  cases hb with
  | lastRecord | firstRecord => exact .refl _
  | lastChild | firstChild =>
    rw [List.perm_iff_count]
    intro x
    simp only [labels, Inner.children, List.map_append, List.map_cons, List.map_nil,
      List.flatMap_append, List.flatMap_cons, List.flatMap_nil, List.count_append, List.count_cons,
      List.count_nil]
    omega

/-- The leaves stay linked, with the same records. -/
theorem rearranged (hb : Borrow A k B A' k' B') :
    Rearranged (tips A ++ tips B) (tips A' ++ tips B') := by
  cases hb with
  | lastRecord | firstRecord =>
    exact ⟨fun _ => rfl, fun _ h => h, by simp [tips, tipRecords]⟩
  | lastChild | firstChild =>
    have heq : ∀ ls ls' : List (Tip ℕ Leaf), ls' = ls → Rearranged ls ls' := by
      intro ls ls' h
      exact h ▸ .refl _
    refine heq _ _ ?_
    simp [tips, Inner.children]

/-- The new separator separates, and is another one. -/
theorem ordered (hb : Borrow A k B A' k' B') {lo : WithBot ℤ} {hi : WithTop ℤ}
    (hAB : OrderedPair Leaf.keys lo hi A k B)
    (hs : StrictlySorted (tipRecords (tips A ++ tips B))) (hpos : 0 < entries A') :
    OrderedPair Leaf.keys lo hi A' k' B' ∧ k' ≠ k := by
  obtain ⟨hA, hlo, hhi, hB⟩ := id hAB
  cases hb with
  | @lastRecord a b next next' rs ss r k =>
    have hr : lo ≤ r.key ∧ (r.key : WithTop ℤ) < k := hA r.key (by simp [Leaf.keys])
    have hs' : StrictlySorted (rs ++ r :: ss) := by simpa [tips, tipRecords] using hs
    have hlt : ∀ x ∈ rs, x.key < r.key := fun x hx =>
      (List.pairwise_append.1 hs').2.2 x hx r List.mem_cons_self
    have hleft : ∀ x ∈ rs, lo ≤ x.key := fun x hx =>
      (hA x.key (by simpa [Leaf.keys] using .inl ⟨x, hx, rfl⟩)).1
    obtain ⟨y, hy⟩ : ∃ y, y ∈ rs := List.exists_mem_of_length_pos hpos
    refine ⟨⟨fun x hx => ?_, ?_, hr.2.trans hhi, fun x hx => ?_⟩, (WithTop.coe_lt_coe.1 hr.2).ne⟩
    · obtain ⟨z, hz, rfl⟩ := List.mem_map.1 hx
      exact ⟨hleft z hz, WithTop.coe_lt_coe.2 (hlt z hz)⟩
    · exact (hleft y hy).trans_lt (WithBot.coe_lt_coe.2 (hlt y hy))
    · rcases List.mem_cons.1 hx with rfl | hx
      · exact ⟨le_rfl, hr.2.trans hhi⟩
      · have hx' := hB x hx
        exact ⟨(WithBot.coe_le_coe.2 (WithTop.coe_lt_coe.1 hr.2).le).trans hx'.1, hx'.2⟩
  | @firstRecord a b next next' rs ss r s k =>
    have hr : (k : WithBot ℤ) ≤ r.key ∧ (r.key : WithTop ℤ) < hi := hB r.key (by simp [Leaf.keys])
    have hs' : (k : WithBot ℤ) ≤ s.key ∧ (s.key : WithTop ℤ) < hi := hB s.key (by simp [Leaf.keys])
    have hsort : StrictlySorted (rs ++ r :: s :: ss) := by simpa [tips, tipRecords] using hs
    obtain ⟨-, hright, -⟩ := List.pairwise_append.1 hsort
    have hrs : r.key < s.key := (List.pairwise_cons.1 hright).1 s List.mem_cons_self
    have hks : k < s.key := (WithBot.coe_le_coe.1 hr.1).trans_lt hrs
    refine ⟨⟨fun x hx => ?_, hlo.trans (WithBot.coe_lt_coe.2 hks), hs'.2, fun x hx => ?_⟩, hks.ne'⟩
    · have hx' : x ∈ Leaf.keys ⟨rs, next⟩ ∨ x = r.key := by simpa [Leaf.keys] using hx
      rcases hx' with hx | rfl
      · exact ⟨(hA x hx).1, (hA x hx).2.trans (WithTop.coe_lt_coe.2 hks)⟩
      · exact ⟨hlo.le.trans hr.1, WithTop.coe_lt_coe.2 hrs⟩
    · refine ⟨WithBot.coe_le_coe.2 ?_, (hB x (List.mem_cons_of_mem _ hx)).2⟩
      obtain ⟨z, hz, rfl⟩ := List.mem_map.1 hx
      rcases List.mem_cons.1 hz with rfl | hz
      · exact le_rfl
      · exact ((List.pairwise_cons.1 (List.pairwise_cons.1 hright).2).1 z hz).le
  | @lastChild h a b u v w rs ss k k' =>
    have hk : k' < k := by
      refine WithTop.coe_lt_coe.1 (Chain.separator hA (k := k') ?_).2
      simp
    refine ⟨?_, hk.ne⟩
    rw [← ordered_append] at hAB ⊢
    simpa [Inner.append] using hAB
  | @firstChild h a b u v w rs ss k k' =>
    have hk : k < k' := by
      refine WithBot.coe_lt_coe.1 (Chain.separator hB (k := k') ?_).1
      simp
    refine ⟨?_, hk.ne'⟩
    rw [← ordered_append] at hAB ⊢
    simpa [Inner.append] using hAB

end Borrow

/-! ### The records of a tree -/

/-- The tree is in search order, its leaves are linked in their order and hold the
    records `recs`, whose keys increase. -/
structure Tidy {H : ℕ} (T : PageTree H) (recs : List Record) : Prop where
  ordered : Ordered Leaf.keys ⊥ ⊤ T
  linked : Linked 0 (tips T)
  records : records T = recs
  sorted : StrictlySorted recs

section Pair

variable {h : ℕ} {g : Frame ℤ ℕ (PageTree h)} {A B : PageTree h} {k : ℤ}

theorem tips_pair : tips (h := h + 1) ((g.insertAfter k B).fill A) =
    g.left.flatMap tips ++ (tips A ++ tips B) ++ g.right.flatMap tips := by
  rw [tips, Frame.children_fill]
  simp

theorem tips_fill : tips (h := h + 1) (g.fill A) =
    g.left.flatMap tips ++ tips A ++ g.right.flatMap tips := by
  rw [tips, Frame.children_fill]
  simp

end Pair

namespace Tidy

variable {h H : ℕ} {c : Ctx ℤ ℕ Leaf (h + 1) H} {g : Frame ℤ ℕ (PageTree h)}
  {A B A' B' : PageTree h} {k k' : ℤ} {recs : List Record}

/-- A node with its leaves rearranged. -/
theorem plug {h H : ℕ} {c : Ctx ℤ ℕ Leaf h H} {T T' : PageTree h} (hT : Tidy (c.plug T) recs)
    (ho : Ordered Leaf.keys ⊥ ⊤ (c.plug T')) (hr : Rearranged (tips T) (tips T')) :
    Tidy (c.plug T') recs := by
  have hc : Rearranged (tips (c.plug T)) (tips (c.plug T')) := by
    rw [tips_plug, tips_plug]
    exact hr.append _ _
  exact ⟨ho, hc.linked _ hT.linked, hc.records.trans hT.records, hT.sorted⟩

theorem merge (hT : Tidy (c.plug ((g.insertAfter k B).fill A)) recs) :
    Tidy (c.plug (g.fill (merge A k B))) recs := by
  obtain ⟨lo, hi, hn, hc⟩ := hT.ordered.plug
  obtain ⟨lo', hi', hAB, -, hfill⟩ := hn.pair
  refine hT.plug (hc _ (hfill _ (ordered_merge hAB))) ?_
  rw [tips_pair, tips_fill]
  exact rearranged_merge.append _ _

theorem borrow (hT : Tidy (c.plug ((g.insertAfter k B).fill A)) recs) (hb : Borrow A k B A' k' B')
    (hpos : 0 < entries A') :
    Tidy (c.plug ((g.insertAfter k' B').fill A')) recs ∧ k' ≠ k := by
  obtain ⟨lo, hi, hn, hc⟩ := hT.ordered.plug
  obtain ⟨lo', hi', hAB, hpair, -⟩ := hn.pair
  -- The records of the two pages are strictly sorted as all records are.
  have hs : StrictlySorted (tipRecords (tips A ++ tips B)) := by
    have hsub : (tipRecords (tips A ++ tips B)).Sublist recs := by
      rw [← hT.records, BPlusTree.records, tips_plug, tips_pair]
      simp only [tipRecords_append]
      exact ((List.sublist_append_right _ _).trans (List.sublist_append_left _ _)).trans
        ((List.sublist_append_right _ _).trans (List.sublist_append_left _ _))
    exact hT.sorted.sublist hsub
  obtain ⟨hAB', hk⟩ := hb.ordered hAB hs hpos
  refine ⟨hT.plug (hc _ (hpair _ _ _ hAB')) ?_, hk⟩
  rw [tips_pair, tips_pair]
  exact hb.rearranged.append _ _

/-- The separators before that of a pair are smaller. -/
theorem before_lt (hT : Tidy (c.plug ((g.insertAfter k B).fill A)) recs) :
    ∀ e ∈ g.before A, e.1 < k := by
  obtain ⟨lo, hi, hn, -⟩ := hT.ordered.plug
  exact hn.before_lt

/-- The only child of a root without keys. -/
theorem onlyChild {N : Inner ℤ ℕ (PageTree h)} (hT : Tidy (H := h + 1) N recs)
    (hN : N.rest = []) : Tidy N.first recs := by
  obtain ⟨a, T, r⟩ := N
  obtain rfl : r = [] := hN
  have htips : tips (h := h + 1) (⟨a, T, []⟩ : Inner ℤ ℕ (PageTree h)) = tips T := by
    simp [tips, Inner.children]
  refine ⟨hT.ordered, htips ▸ hT.linked, ?_, hT.sorted⟩
  rw [← hT.records, BPlusTree.records, BPlusTree.records, htips]

end Tidy

/-! ### Sizes around a hole -/

section Sizes

variable {h H : ℕ} {f g : Frame ℤ ℕ (PageTree h)} {c : Ctx ℤ ℕ Leaf (h + 1) H}
  {A B A' B' X : PageTree h} {k k' : ℤ}

/-- A page of the tree is of an allowed size, but for one entry it may lack. -/
def Slim (root : Bool) (X : PageTree h) : Prop :=
  ((if root then 1 else minEntries h) ≤ entries X + 1 ∧ entries X ≤ maxEntries h) ∧ ChildrenSized X

theorem entries_fill : entries (h := h + 1) (f.fill X) = f.left.length + f.right.length := by
  cases f <;> simp [entries, Frame.fill, Frame.left, Frame.right, Frame.after]
  omega

/-- The sizes around a hole, and those of the page above it. -/
theorem sized_up {a : ℕ} :
    AllowedAround (.up f c) a ↔
      ((if c.parent.isNone then 1 else cut internalMax) ≤ f.left.length + f.right.length ∧
        f.left.length + f.right.length ≤ internalMax) ∧
      (∀ u ∈ f.left ++ f.right, Allowed (some f.label) u) ∧ AllowedAround c f.label := by
  have hlen : ((f.map label).fill a).rest.length = f.left.length + f.right.length := by
    cases f <;> simp [Frame.map, Frame.fill, Frame.left, Frame.right, Frame.after]
    omega
  rw [AllowedAround, Ctx.Sized, Ctx.Everywhere, hlen]
  exact Iff.rfl

end Sizes

end CourseProjects.BPlusTree
