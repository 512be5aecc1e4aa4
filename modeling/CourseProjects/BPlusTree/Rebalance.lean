import CourseProjects.BPlusTree.Coalesce
import CourseProjects.BPlusTree.Redistribute

/-!
# Rebalancing

The part of `delete_entry` after the removal, on a page that may lack an entry:
it is merged with its neighbour, if that has no entry to spare, and else gets an
entry of it. A merge leaves the page above with a child less, so that
`delete_entry` goes on with that page.

* `Kept.rebalance`: it ends, and the table then stores a tree of allowed sizes with
  the same records; the pages that are no longer in it are on the free list.
* `rebalances_iff`: after a leaf was cut down to one record, the copy of the root
  page is up to date too unless a child of the root got an entry of its neighbour.
-/

namespace CourseProjects.BPlusTree

open Slots Function PerfectTree

/-- The entries that two pages of a height may have together to be merged. -/
def room : ℕ → ℕ
  | 0 => leafMax
  | _ + 1 => internalMax - 1

theorem minEntries_pos (h : ℕ) : 0 < minEntries h := by
  cases h with
  | zero => exact (by decide : 0 < cut leafMax)
  | succ h => exact (by decide : 0 < cut internalMax)

/-- A page that lacks an entry fits in one page with a neighbour that has none to
    spare. -/
theorem room_spec (h : ℕ) : room h = minEntries h + (minEntries h - 1) ∧
    minEntries h + (minEntries h - 1) + (if h = 0 then 0 else 1) = maxEntries h := by
  cases h with
  | zero => exact (by decide : leafMax = cut leafMax + (cut leafMax - 1) ∧
      cut leafMax + (cut leafMax - 1) + 0 = leafMax)
  | succ h => exact (by decide : internalMax - 1 = cut internalMax + (cut internalMax - 1) ∧
      cut internalMax + (cut internalMax - 1) + 1 = internalMax)

section AfterRemoval

variable {t : Table} {h n : ℕ} {X U : PageTree h} {par : Option ℕ}

/-- `delete_entry` leaves a page with enough entries as it is. -/
theorem afterRemoval_of_enough (hl : Laid t n) (hX : Rep t.disk.pages par X)
    (hmem : label X ∈ offsets n) (hroot : label X ≠ t.hp.rpo) (henough : minEntries h ≤ entries X)
    (deleteEntry : Table → ℤ → ℕ → Except Fault Table) :
    t.afterRemoval deleteEntry (label X) = .ok t := by
  rw [Table.afterRemoval, if_neg hroot, hl.page hmem, ok_bind, hX.isLeaf, hX.numOfKeys]
  cases h with
  | zero => exact if_pos henough
  | succ h => exact if_pos henough

/-- `delete_entry` merges a page with too few entries with its neighbour, or gets
    it an entry of the neighbour. -/
theorem afterRemoval_of_short {a i : ℕ} {idx k : ℤ} (hl : Laid t n)
    (hX : Rep t.disk.pages (some a) X) (hU : Rep t.disk.pages par U) (hmem : label X ∈ offsets n)
    (ha : a ∈ offsets n) (hUmem : label U ∈ offsets n) (hroot : label X ≠ t.hp.rpo)
    (hshort : entries X < minEntries h)
    (hnbor : (t.disk.pages a).neighborOf (label X) = (idx, label U, k, i))
    (deleteEntry : Table → ℤ → ℕ → Except Fault Table) :
    t.afterRemoval deleteEntry (label X) =
      if entries U + entries X ≤ room h then
        Table.coalescePages deleteEntry t (label X) idx (label U) a k
      else t.redistributePages (label X) idx (label U) a k i := by
  have hpar : (t.disk.pages (label X)).parentPageOffset = a := by
    cases h with
    | zero => exact Page.IsTip.parent hX
    | succ h => exact Page.IsInner.parent hX.1
  rw [Table.afterRemoval, if_neg hroot, hl.page hmem, ok_bind, hX.isLeaf, hX.numOfKeys]
  dsimp only
  rw [if_neg ?_, hpar, hl.page ha, ok_bind, hnbor]
  · dsimp only
    rw [hl.page hUmem, ok_bind, hU.numOfKeys]
    cases h <;> rfl
  · rw [Nat.not_le]
    cases h <;> exact hshort

end AfterRemoval

/-- What `delete_entry` comes to after the removal: a table that stores a tree of
    allowed sizes with the same records. Its other pages are on the free list, and
    its copy of the root page is out of date if `stale` holds. -/
def Rebalanced (result : Except Fault Table) (loose free : List ℕ) (n : ℕ) (recs : List Record)
    (stale : Prop) : Prop :=
  ∃ t H, ∃ (T : PageTree H) (dropped : List ℕ), result = .ok t ∧
    Kept t T loose (dropped ++ free) n ∧ Tidy T recs ∧ Shaped T ∧ (Cached t ↔ ¬ stale)

theorem Rebalanced.congr {result : Except Fault Table} {loose free : List ℕ} {n : ℕ}
    {recs : List Record} {stale stale' : Prop} (hr : Rebalanced result loose free n recs stale)
    (h : stale ↔ stale') : Rebalanced result loose free n recs stale' := by
  obtain ⟨t, H, T, dropped, ht, hT, htidy, hs, hstale⟩ := hr
  exact ⟨t, H, T, dropped, ht, hT, htidy, hs, hstale.trans (not_congr h)⟩

section Pair

variable {t : Table} {h H n : ℕ} {loose free : List ℕ} {c : Ctx ℤ ℕ Leaf (h + 1) H}
  {g : Frame ℤ ℕ (PageTree h)} {A B : PageTree h} {k : ℤ} {recs : List Record}

/-- A page below another one is not the root. -/
theorem Kept.ne_root {f : Frame ℤ ℕ (PageTree h)} {X : PageTree h}
    (hT : Kept t (c.plug (f.fill X)) loose free n) : label X ≠ t.hp.rpo := by
  have hperm := ((labels_plug (Ctx.up f c) X).append_right _).symm.trans hT.labels
  rw [List.append_assoc] at hperm
  have hX := (List.nodup_append.1 (hperm.nodup_iff.2 (offsets_nodup n))).2.2
  refine hX _ (label_mem_labels X) _ (List.mem_append_left _ ?_)
  rw [hT.root]
  exact label_plug_up f c X

/-- The pages of a pair are not the root. -/
theorem Kept.pair_ne_root (hT : Kept t (c.plug ((g.insertAfter k B).fill A)) loose free n) :
    label A ≠ t.hp.rpo ∧ label B ≠ t.hp.rpo := by
  refine ⟨hT.ne_root, ?_⟩
  rw [← Frame.fill_following] at hT
  exact hT.ne_root

/-- After the contents of a pair are merged, `delete_entry` goes on with the page
    above, and the second page of the pair goes to the free list. -/
theorem Kept.coalesced {fuel wbc nbor : ℕ} {idx : ℤ} {stale : Prop}
    (hT : Kept t (c.plug ((g.insertAfter k B).fill A)) loose free n) (hc : Cached t)
    (htidy : Tidy (c.plug ((g.insertAfter k B).fill A)) recs)
    (hlen : g.left.length + g.right.length < interSlots)
    (hidx : (if idx = -2 then (wbc, nbor) else (nbor, wbc)) = (label A, label B))
    (hup : ∀ t', Kept t' (c.plug (g.fill (merge A k B))) (label B :: loose) free n → Cached t' →
      Rebalanced (t'.afterRemoval (Table.deleteEntry fuel) g.label) (label B :: loose) free n recs
        stale) :
    Rebalanced (Table.coalescePages (Table.deleteEntry (fuel + 1)) t wbc idx nbor g.label k) loose
      free n recs stale := by
  obtain ⟨t₁, hM, hc₁, hcoalesce⟩ := hT.coalesce
  obtain ⟨t₂, ht₂, hT₂, hc₂⟩ := hM.removeEntry htidy.before_lt hlen (hc₁ hc)
  obtain ⟨t₃, H', T', dropped, ht₃, hT₃, htidy₃, hs₃, hstale⟩ := hup t₂ hT₂ hc₂
  obtain ⟨t₄, ht₄, hT₄, hc₄⟩ := hT₃.usetofree
  refine ⟨t₄, H', T', label B :: dropped, ?_, hT₄, htidy₃, hs₃, hc₄.trans hstale⟩
  rw [hcoalesce _ _ _ _ hidx, Table.deleteEntry_succ, ht₂, ok_bind, ht₃, ok_bind, ht₄]

theorem sized_fill {par : Option ℕ} {f : Frame ℤ ℕ (PageTree h)} {X : PageTree h} :
    Allowed (h := h + 1) par (f.fill X) ↔
      ((if par.isNone then 1 else cut internalMax) ≤ f.left.length + f.right.length ∧
        f.left.length + f.right.length ≤ internalMax) ∧
      ∀ u ∈ f.left ++ X :: f.right, Allowed (some f.label) u := by
  rw [sized_iff, entries_fill]
  refine and_congr_right fun _ => ?_
  rw [← Frame.children_fill, ← Frame.label_fill f X]
  exact Iff.rfl

/-- The pages around a pair below the page of `g` are of allowed sizes. -/
structure AllowedBeside (c : Ctx ℤ ℕ Leaf (h + 1) H) (g : Frame ℤ ℕ (PageTree h)) : Prop where
  size : (if c.parent.isNone then 1 else cut internalMax) ≤ g.left.length + g.right.length + 1 ∧
    g.left.length + g.right.length + 1 ≤ internalMax
  siblings : ∀ u ∈ g.left ++ g.right, Allowed (some g.label) u
  above : AllowedAround c g.label

/-- Two pages of allowed sizes in place of the pair. -/
theorem AllowedBeside.pair (hg : AllowedBeside c g) (hA : Allowed (some g.label) A)
    (hB : Allowed (some g.label) B) : Shaped (c.plug ((g.insertAfter k B).fill A)) := by
  refine sized_plug.2 ⟨Ctx.Sized.relabel hg.above _, sized_fill.2 ⟨?_, fun u hu => ?_⟩⟩
  · rw [Frame.left_insertAfter, Frame.right_insertAfter, List.length_cons, ← Nat.add_assoc]
    exact hg.size
  · have hsib := hg.siblings
    rw [Frame.left_insertAfter, Frame.right_insertAfter] at hu
    rw [Frame.label_insertAfter]
    simp only [List.mem_append, List.mem_cons] at hu hsib
    rcases hu with hu | rfl | rfl | hu
    exacts [hsib u (.inl hu), hA, hB, hsib u (.inr hu)]

/-- One page of an allowed size in place of the pair: the page above may lack an
    entry. -/
theorem AllowedBeside.single (hg : AllowedBeside c g) (hA : Allowed (some g.label) A) :
    Slim (h := h + 1) c.parent.isNone (g.fill A) := by
  refine ⟨?_, fun u hu => ?_⟩
  · rw [entries_fill]
    exact ⟨hg.size.1, (Nat.le_succ _).trans hg.size.2⟩
  · have hsib := hg.siblings
    rw [Frame.children_fill] at hu
    rw [Frame.label_fill]
    simp only [List.mem_append, List.mem_cons] at hu hsib
    rcases hu with hu | rfl | hu
    exacts [hsib u (.inl hu), hA, hsib u (.inr hu)]

/-- After an entry went from one of a pair to the other, the tree is as it should
    be, but for the copy of the root page. -/
theorem Redistributed.rebalanced {A' B' : PageTree h} {k' : ℤ} {t' : Table}
    (hR : Redistributed t t' c g A k B A' k' B' n)
    (hT : Kept t (c.plug ((g.insertAfter k B).fill A)) loose free n) (hc : Cached t)
    (htidy : Tidy (c.plug ((g.insertAfter k B).fill A)) recs) (hg : AllowedBeside c g)
    (hA : ChildrenSized A) (hB : ChildrenSized B)
    (hA' : minEntries h ≤ entries A' ∧ entries A' ≤ maxEntries h)
    (hB' : minEntries h ≤ entries B' ∧ entries B' ≤ maxEntries h) :
    Rebalanced (.ok t') loose free n recs (c.parent = none) := by
  have hpos : 0 < entries A' := (minEntries_pos h).trans_le hA'.1
  obtain ⟨htidy', hk⟩ := htidy.borrow hR.borrow hpos
  obtain ⟨hchA, hchB⟩ := hR.borrow.childrenSized hA hB
  exact ⟨t', H, c.plug ((g.insertAfter k' B').fill A'), [], rfl, hR.kept hT, htidy',
    hg.pair (sized_iff.2 ⟨hA', hchA⟩) (sized_iff.2 ⟨hB', hchB⟩), hR.cached_iff hT hk hc⟩

/-- A page that lacks an entry, merged with a neighbour that has none to spare. -/
theorem sized_merge {X U : PageTree h} {a : ℕ} (hpair : X = A ∧ U = B ∨ X = B ∧ U = A)
    (hX : entries X + 1 = minEntries h) (hchX : ChildrenSized X) (hU : Allowed (some a) U)
    (hle : entries U ≤ minEntries h) : Allowed (some a) (merge A k B) := by
  obtain ⟨⟨hmin, -⟩, hchU⟩ := sized_iff.1 hU
  replace hmin : minEntries h ≤ entries U := hmin
  obtain ⟨hsum, hchA, hchB⟩ :
      entries A + entries B = entries U + entries X ∧ ChildrenSized A ∧ ChildrenSized B := by
    rcases hpair with ⟨rfl, rfl⟩ | ⟨rfl, rfl⟩
    exacts [⟨Nat.add_comm _ _, hchX, hchU⟩, ⟨rfl, hchU, hchX⟩]
  refine sized_iff.2 ⟨?_, childrenSized_merge hchA hchB⟩
  change minEntries h ≤ _ ∧ _
  have hmax := (room_spec h).2
  rw [entries_merge, hsum]
  omega

/-- A page of a pair that lacks an entry is merged with the other one if that has
    no entry to spare, and else gets an entry of it. -/
theorem Kept.mend {X U : PageTree h} {idx : ℤ} {fuel : ℕ} {stale : Prop}
    (hT : Kept t (c.plug ((g.insertAfter k B).fill A)) loose free n) (hc : Cached t)
    (htidy : Tidy (c.plug ((g.insertAfter k B).fill A)) recs) (hg : AllowedBeside c g)
    (hpair : idx = -2 ∧ X = A ∧ U = B ∨ idx ≠ -2 ∧ X = B ∧ U = A)
    (hnbor : (t.disk.pages g.label).neighborOf (label X) = (idx, label U, k, g.index))
    (hX : entries X + 1 = minEntries h) (hchX : ChildrenSized X) (hU : Allowed (some g.label) U)
    (hup : ∀ t', Kept t' (c.plug (g.fill (merge A k B))) (label B :: loose) free n → Cached t' →
      Tidy (c.plug (g.fill (merge A k B))) recs →
      Slim (h := h + 1) c.parent.isNone (g.fill (merge A k B)) →
      Rebalanced (t'.afterRemoval (Table.deleteEntry fuel) g.label) (label B :: loose) free n recs
        stale) :
    Rebalanced (t.afterRemoval (Table.deleteEntry (fuel + 1)) (label X)) loose free n recs
      (minEntries h < entries U ∧ c.parent = none ∨ entries U ≤ minEntries h ∧ stale) := by
  obtain ⟨-, -, hrepA, hrepB⟩ := rep_pair_iff.1 hT.rep
  obtain ⟨⟨hmemA, hmemB, hmemg⟩, -, -, -⟩ := hT.pair_ne
  obtain ⟨hrootA, hrootB⟩ := hT.pair_ne_root
  obtain ⟨⟨-, hUmax⟩, hchU⟩ := sized_iff.1 hU
  obtain ⟨hroom, hmax⟩ := room_spec h
  have hshort : entries X < minEntries h := hX ▸ Nat.lt_succ_self _
  have hafter : t.afterRemoval (Table.deleteEntry (fuel + 1)) (label X) =
      if entries U + entries X ≤ room h then
        Table.coalescePages (Table.deleteEntry (fuel + 1)) t (label X) idx (label U) g.label k
      else t.redistributePages (label X) idx (label U) g.label k g.index := by
    rcases hpair with ⟨-, rfl, rfl⟩ | ⟨-, rfl, rfl⟩
    · exact afterRemoval_of_short hT.laid hrepA hrepB hmemA hmemg hmemB hrootA hshort hnbor _
    · exact afterRemoval_of_short hT.laid hrepB hrepA hmemB hmemg hmemA hrootB hshort hnbor _
  rw [hafter]
  by_cases hle : entries U ≤ minEntries h
  · -- The neighbour has no entry to spare.
    rw [if_pos (by omega)]
    have hm : Allowed (some g.label) (merge A k B) :=
      sized_merge (hpair.imp And.right And.right) hX hchX hU hle
    have hwhich : (if idx = -2 then (label X, label U) else (label U, label X)) =
        (label A, label B) := by
      rcases hpair with ⟨hi, rfl, rfl⟩ | ⟨hi, rfl, rfl⟩
      exacts [if_pos hi, if_neg hi]
    have hlen : g.left.length + g.right.length < interSlots :=
      (Nat.lt_of_succ_le hg.size.2).trans (by decide : internalMax < interSlots)
    refine (hT.coalesced hc htidy hlen hwhich fun t' hT' hc' =>
      hup t' hT' hc' htidy.merge (hg.single hm)).congr ?_
    simp [hle, Nat.not_lt.2 hle]
  · -- The neighbour spares an entry.
    rw [if_neg (by omega)]
    rw [Nat.not_le] at hle
    have hres : Rebalanced (t.redistributePages (label X) idx (label U) g.label k g.index) loose
        free n recs (c.parent = none) := by
      rcases hpair with ⟨rfl, rfl, rfl⟩ | ⟨hi, rfl, rfl⟩
      · obtain ⟨A', k', B', t', ht', hR, hA', hB'⟩ := hT.borrowFirst (by omega)
        rw [ht']
        exact hR.rebalanced hT hc htidy hg hchX hchU ⟨by omega, by omega⟩ ⟨by omega, by omega⟩
      · obtain ⟨A', k', B', t', ht', hR, hA', hB'⟩ := hT.borrowLast (by omega) hi
        rw [ht']
        exact hR.rebalanced hT hc htidy hg hchU hchX ⟨by omega, by omega⟩ ⟨by omega, by omega⟩
    refine hres.congr ?_
    simp [hle, Nat.not_le.2 hle]

end Pair

/-- Going up from a page of `s` entries, pages that lack an entry are merged, up
    to a child of the root that gets an entry of its neighbour instead. -/
def BorrowsAtRoot : {h H : ℕ} → Ctx ℤ ℕ Leaf h H → ℕ → Prop
  | _, _, .root, _ => False
  | h, _, .up f c, s => s < minEntries h ∧ ∀ u ∈ f.sibling,
    minEntries h < entries u ∧ c.parent = none ∨
      entries u ≤ minEntries h ∧ BorrowsAtRoot c (f.left.length + f.right.length - 1)

/-- The root may have fewer entries than other pages. -/
theorem sized_root {h a : ℕ} {X : PageTree h} (hX : Allowed (some a) X) : Allowed none X := by
  obtain ⟨⟨hmin, hmax⟩, hch⟩ := sized_iff.1 hX
  exact sized_iff.2 ⟨⟨(minEntries_pos h).trans_le hmin, hmax⟩, hch⟩

/-- `delete_entry` finds the other page of a pair. -/
theorem Kept.neighborOf {h H n : ℕ} {t : Table} {loose free : List ℕ}
    {c : Ctx ℤ ℕ Leaf (h + 1) H} {g : Frame ℤ ℕ (PageTree h)} {A B X U : PageTree h} {k : ℤ}
    (hT : Kept t (c.plug ((g.insertAfter k B).fill A)) loose free n)
    (hpair : (∃ l a, g = .first l a) ∧ X = A ∧ U = B ∨ X = B ∧ U = A) :
    ∃ idx : ℤ, (idx = -2 ∧ X = A ∧ U = B ∨ idx ≠ -2 ∧ X = B ∧ U = A) ∧
      (t.disk.pages g.label).neighborOf (label X) = (idx, label U, k, g.index) := by
  obtain ⟨habove, -, -, -⟩ := rep_pair_iff.1 hT.rep
  rw [← Frame.index_map label g]
  rcases hpair with ⟨⟨l, a, rfl⟩, rfl, rfl⟩ | ⟨rfl, rfl⟩
  · exact ⟨-2, .inl ⟨rfl, rfl, rfl⟩, habove.neighbor_first rfl⟩
  · -- The page is not one of those before the pair.
    have hleft : label X ∉ (g.map label).left := by
      rw [Frame.left_map]
      intro hmem
      obtain ⟨v, hv, hlabel⟩ := List.mem_map.1 hmem
      obtain ⟨-, -, hX, -⟩ := nodup_parts hT.labels_pair
      refine hX _ (label_mem_labels X) (label X) ?_ rfl
      refine List.mem_append_left _ (List.mem_cons_of_mem _ (List.mem_append_left _ ?_))
      refine List.mem_append_left _ (List.mem_flatMap.2 ⟨v, hv, ?_⟩)
      exact hlabel ▸ label_mem_labels v
    obtain ⟨idx, hidx, hnbor⟩ := habove.neighbor_following hT.pair_ne.2.1.symm hleft
    exact ⟨idx, .inr ⟨hidx, rfl, rfl⟩, hnbor⟩

/-- The part of `delete_entry` after the removal, on a page that may lack an
    entry, with as many more calls as there are levels above. -/
theorem Kept.rebalance {h H n fuel : ℕ} {c : Ctx ℤ ℕ Leaf h H} {X : PageTree h} {t : Table}
    {loose free : List ℕ} {recs : List Record} (hfuel : H ≤ h + fuel)
    (hT : Kept t (c.plug X) loose free n) (hc : Cached t) (htidy : Tidy (c.plug X) recs)
    (hX : Slim c.parent.isNone X) (hpos : h = 0 → 0 < entries X)
    (hcs : AllowedAround c (label X)) :
    Rebalanced (t.afterRemoval (Table.deleteEntry fuel) (label X)) loose free n recs
      (BorrowsAtRoot c (entries X)) := by
  induction c generalizing t loose fuel with
  | @root h =>
    replace hT : Kept t X loose free n := hT
    rw [Table.afterRemoval, if_pos hT.root.symm]
    rcases Nat.eq_zero_or_pos (entries X) with hempty | hsome
    · cases h with
      | zero => exact absurd hempty (hpos rfl).ne'
      | succ h =>
        have hrest : Inner.rest X = [] := List.length_eq_zero_iff.1 hempty
        obtain ⟨t', ht', hT', hc'⟩ := Kept.adjustRoot_of_empty hT hc hrest
        refine ⟨t', h, Inner.first X, [Inner.label X], ht', hT', Tidy.onlyChild htidy hrest, ?_,
          iff_of_true hc' not_false⟩
        exact sized_root (hX.2 _ List.mem_cons_self)
    · refine ⟨t, _, X, [], Kept.adjustRoot_of_pos hT hc hsome, hT, htidy, ?_,
        iff_of_true hc not_false⟩
      exact sized_iff.2 ⟨⟨hsome, hX.1.2⟩, hX.2⟩
  | @up h H f c ih =>
    obtain ⟨hlen, hsib, hcs'⟩ := sized_up.1 hcs
    replace hT : Kept t (c.plug (f.fill X)) loose free n := hT
    replace htidy : Tidy (c.plug (f.fill X)) recs := htidy
    obtain ⟨-, -, hrep⟩ := rep_fill_iff.1 hT.rep
    rcases Nat.lt_or_ge (entries X) (minEntries h) with hshort | henough
    · have hX' : entries X + 1 = minEntries h := le_antisymm hshort hX.1.1
      -- The recursive call has the page above, with one child less.
      obtain ⟨fuel, rfl⟩ : ∃ m, fuel = m + 1 := ⟨fuel - 1, by have := c.le; omega⟩
      have hne : f.left ++ f.right ≠ [] := by
        intro hnil
        have hsome : 1 ≤ f.left.length + f.right.length := le_trans (by split <;> decide) hlen.1
        rw [← List.length_append, hnil] at hsome
        exact Nat.not_succ_le_zero 0 hsome
      obtain ⟨g, A, k, B, U, hU, hlabel, hfill, hperm, hpair⟩ := f.exists_pair hne X
      rw [hfill] at hT htidy
      rw [hlabel] at hsib hcs'
      have hsum : f.left.length + f.right.length = g.left.length + g.right.length + 1 := by
        simpa using hperm.length_eq
      obtain ⟨idx, hidx, hnbor⟩ := hT.neighborOf hpair
      have hup : ∀ t', Kept t' (c.plug (g.fill (merge A k B))) (label B :: loose) free n →
          Cached t' → Tidy (c.plug (g.fill (merge A k B))) recs →
          Slim (h := h + 1) c.parent.isNone (g.fill (merge A k B)) →
          Rebalanced (t'.afterRemoval (Table.deleteEntry fuel) g.label) (label B :: loose) free n
            recs (BorrowsAtRoot c (f.left.length + f.right.length - 1)) := by
        intro t' hT' hc' htidy' hslim
        have hfuel' : H ≤ h + 1 + fuel := by omega
        have hres := ih hfuel' hT' hc' htidy' hslim (fun h => absurd h (Nat.succ_ne_zero _))
          (Ctx.Sized.relabel hcs' _)
        rw [entries_fill, label, Frame.label_fill] at hres
        rwa [hsum, Nat.add_sub_cancel]
      have hg : AllowedBeside c g :=
        ⟨hsum ▸ hlen, fun u hu => hsib u (hperm.mem_iff.2 (List.mem_cons_of_mem _ hu)), hcs'⟩
      refine (hT.mend hc htidy hg hidx hnbor hX' hX.2 (hsib U (hperm.mem_iff.2 List.mem_cons_self))
        hup).congr ?_
      rw [BorrowsAtRoot, hU]
      simp [hshort]
    · refine ⟨t, _, (Ctx.up f c).plug X, [], ?_, hT, htidy, ?_, iff_of_true hc ?_⟩
      · have hmem := hT.mem_offsets (label_mem_labels_plug (.up f c) X)
        exact afterRemoval_of_enough hT.laid hrep hmem hT.ne_root henough _
      · exact sized_plug.2 ⟨hcs, sized_iff.2 ⟨⟨henough, hX.1.2⟩, hX.2⟩⟩
      · exact fun hb => (Nat.not_lt.2 henough) hb.1

/-- The table stores the tree, in search order and with its leaves linked in their
    order; the other pages of the file are those of the free list, and the copy of
    the root page is the page. -/
structure WellFormed (t : Table) {H : ℕ} (T : PageTree H) (free : List ℕ) (n : ℕ) : Prop where
  kept : Kept t T [] free n
  cached : Cached t
  tidy : Tidy T (records T)

/-- The part of `delete_entry` after the removal, at the page `deloff` of the tree
    `T`, comes to a tree of allowed sizes that is well formed and has the same
    records; the pages dropped from the tree are in front of the free list. -/
def Rebalances (t : Table) (deloff : ℕ) {H : ℕ} (T : PageTree H) (free : List ℕ) (n : ℕ) : Prop :=
  ∀ fuel, H ≤ fuel → ∃ t' H', ∃ (T' : PageTree H') (dropped : List ℕ),
    t.afterRemoval (Table.deleteEntry fuel) deloff = .ok t' ∧ WellFormed t' T' (dropped ++ free) n ∧
      Shaped T' ∧ records T' = records T ∧ (labels T).Perm (labels T' ++ dropped)

namespace WellFormed

variable {t : Table} {H n fuel : ℕ} {f : Frame ℤ ℕ (PageTree 0)} {c : Ctx ℤ ℕ Leaf 1 H}
  {l : PageTree 0} {free : List ℕ}

/-- A leaf cut down to one record lacks an entry. -/
theorem rebalanced (hT : WellFormed t ((Ctx.up f c).plug l) free n)
    (hs : AllowedAround (.up f c) (label l)) (hone : entries l = 1) (hfuel : H ≤ fuel) :
    Rebalanced (t.afterRemoval (Table.deleteEntry fuel) (label l)) [] free n
      (records ((Ctx.up f c).plug l)) (BorrowsAtRoot (.up f c) 1) := by
  rw [← hone]
  refine hT.kept.rebalance (by omega) hT.cached hT.tidy ⟨⟨?_, ?_⟩, trivial⟩
    (fun _ => hone ▸ Nat.one_pos) hs
  · rw [hone]
    exact Nat.le_refl 2
  · rw [hone]
    exact Nat.le_of_ble_eq_true rfl

theorem rebalances (hT : WellFormed t ((Ctx.up f c).plug l) free n)
    (hs : AllowedAround (.up f c) (label l)) (hone : entries l = 1)
    (hb : ¬ BorrowsAtRoot (.up f c) 1) :
    Rebalances t (label l) ((Ctx.up f c).plug l) free n := by
  intro fuel hfuel
  obtain ⟨t', H', T', dropped, ht', hT', htidy, hs', hcached⟩ := hT.rebalanced hs hone hfuel
  refine ⟨t', H', T', dropped, ht', ⟨hT', hcached.2 hb, htidy.records.symm ▸ htidy⟩, hs',
    htidy.records, ?_⟩
  -- Both tables have all pages of the file in the tree or on the free list.
  rw [List.perm_iff_count]
  intro a
  have h₁ := hT.kept.labels.count_eq a
  have h₂ := hT'.labels.count_eq a
  simp only [List.nil_append, List.count_append] at h₁ h₂ ⊢
  omega

theorem not_rebalances (hT : WellFormed t ((Ctx.up f c).plug l) free n)
    (hs : AllowedAround (.up f c) (label l)) (hone : entries l = 1)
    (hb : BorrowsAtRoot (.up f c) 1) :
    ¬ Rebalances t (label l) ((Ctx.up f c).plug l) free n := by
  intro hr
  obtain ⟨t', _, _, _, ht', hT', -⟩ := hr H le_rfl
  obtain ⟨t'', _, _, _, ht'', -, -, -, hcached⟩ := hT.rebalanced hs hone le_rfl
  obtain rfl : t' = t'' := Except.ok.inj (ht'.symm.trans ht'')
  exact hcached.1 hT'.cached hb

end WellFormed

/-- After the removal that cuts a leaf of a well-formed tree down to one record,
    `delete_entry` comes to a well-formed tree if and only if `redistribute_pages`
    is not called for a child of the root. -/
theorem rebalances_iff {t : Table} {H n : ℕ} {f : Frame ℤ ℕ (PageTree 0)} {c : Ctx ℤ ℕ Leaf 1 H}
    {l : PageTree 0} {free : List ℕ} (hT : WellFormed t ((Ctx.up f c).plug l) free n)
    (hs : AllowedAround (.up f c) (label l)) (hone : entries l = 1) :
    Rebalances t (label l) ((Ctx.up f c).plug l) free n ↔ ¬ BorrowsAtRoot (.up f c) 1 :=
  ⟨fun hr hb => hT.not_rebalances hs hone hb hr, hT.rebalances hs hone⟩

/-! ### Two leaves -/

/-- The page of a leaf below `par`. -/
def Page.ofLeaf (par : ℕ) (l : Leaf) : Page :=
  { Page.zero with
    parentPageOffset := par
    isLeaf := true
    numOfKeys := l.recs.length
    nextOffset := l.next
    records := fun i => l.recs.getD i .zero }

theorem Page.isTip_ofLeaf (par : ℕ) (l : Leaf) : (Page.ofLeaf par l).IsTip (some par) l where
  isLeaf := rfl
  parent := rfl
  recs := slots_eq_iff.2 ⟨rfl, fun i hi => by simp [Page.ofLeaf, hi]⟩
  next := rfl

/-- The page of a root above two leaves. -/
def Page.ofRoot (key : ℤ) : Page :=
  { Page.zero with
    numOfKeys := 1
    nextOffset := 4096
    bF := fun _ => ⟨key, 8336⟩ }

/-- A root with two leaves, the first of which has one record. -/
def twoLeaves (r s : Record) (ss : List Record) : Table :=
  let leaves := update (fun _ => Page.ofLeaf 12576 ⟨[r], 8336⟩) 8336
    (Page.ofLeaf 12576 ⟨s :: ss, 0⟩)
  { disk := { header := ⟨0, 12576, 4⟩, size := 16816, pages := update leaves 12576 (.ofRoot s.key) }
    hp := ⟨0, 12576, 4⟩
    rt := some (.ofRoot s.key)
    reclaimed := [] }

/-- The frame around the first leaf. -/
def besideLeaf (s : Record) (ss : List Record) : Frame ℤ ℕ (PageTree 0) :=
  .first 12576 [(s.key, (⟨8336, ⟨s :: ss, 0⟩⟩ : Tip ℕ Leaf))]

theorem twoLeaves_kept (r s : Record) (ss : List Record) :
    Kept (twoLeaves r s ss)
      ((Ctx.up (besideLeaf s ss) .root).plug (⟨4096, ⟨[r], 8336⟩⟩ : Tip ℕ Leaf)) [] [] 3 where
  laid := ⟨rfl, rfl, rfl⟩
  root := rfl
  labels := by
    change [12576, 4096, 8336].Perm [4096, 8336, 12576]
    decide
  rep := by
    refine ⟨?_, fun u hu => ?_⟩
    · change ((twoLeaves r s ss).disk.pages 12576).IsInner none ⟨12576, 4096, [(s.key, 8336)]⟩
      exact ⟨rfl, rfl, rfl, rfl⟩
    · rcases List.mem_cons.1 hu with rfl | hu
      · exact Page.isTip_ofLeaf 12576 ⟨[r], 8336⟩
      · obtain rfl := List.mem_singleton.1 hu
        exact Page.isTip_ofLeaf 12576 ⟨s :: ss, 0⟩
  freeList := rfl

theorem twoLeaves_wellFormed {r s : Record} {ss : List Record}
    (hsorted : StrictlySorted (r :: s :: ss)) :
    WellFormed (twoLeaves r s ss)
      ((Ctx.up (besideLeaf s ss) .root).plug (⟨4096, ⟨[r], 8336⟩⟩ : Tip ℕ Leaf)) [] 3 where
  kept := twoLeaves_kept r s ss
  cached := by
    have hmem := (twoLeaves_kept r s ss).root_mem_offsets
    rw [Cached, (twoLeaves_kept r s ss).laid.loadPage hmem]
    simp [twoLeaves]
  tidy := {
    ordered := by
      obtain ⟨hr, hs⟩ := List.pairwise_cons.1 hsorted
      refine ⟨fun x hx => ?_, WithBot.bot_lt_coe _, WithTop.coe_lt_top _, fun x hx => ?_⟩
      · obtain rfl := List.mem_singleton.1 hx
        exact ⟨bot_le, WithTop.coe_lt_coe.2 (hr s List.mem_cons_self)⟩
      · obtain ⟨y, hy, rfl⟩ := List.mem_map.1 hx
        refine ⟨WithBot.coe_le_coe.2 ?_, WithTop.coe_lt_top _⟩
        rcases List.mem_cons.1 hy with rfl | hy
        · exact le_rfl
        · exact ((List.pairwise_cons.1 hs).1 y hy).le
    linked := ⟨rfl, rfl, trivial⟩
    records := rfl
    sorted := by
      change StrictlySorted ([r] ++ (s :: ss ++ []))
      rwa [List.append_nil] }

theorem twoLeaves_sized {s : Record} {ss : List Record} (h : 1 ≤ ss.length) (h' : ss.length ≤ 2) :
    AllowedAround (.up (besideLeaf s ss) .root) 4096 := by
  refine ⟨⟨le_rfl, Nat.le_of_ble_eq_true rfl⟩, fun u hu => ?_, trivial⟩
  obtain rfl := List.mem_singleton.1 hu
  exact ⟨Nat.succ_le_succ h, Nat.succ_le_succ h'⟩

/-- A leaf with one record is merged with one that has two, which leaves the root
    without keys. -/
theorem rebalances_iff_oneTwo :
    let r : ℤ → Record := fun key => ⟨key, false, .empty⟩
    Rebalances (twoLeaves (r 1) (r 3) [r 4]) 4096
      ((Ctx.up (besideLeaf (r 3) [r 4]) .root).plug (⟨4096, ⟨[r 1], 8336⟩⟩ : Tip ℕ Leaf)) [] 3 := by
  intro r
  have hs : AllowedAround (.up (besideLeaf (r 3) [r 4]) .root) 4096 :=
    twoLeaves_sized le_rfl (Nat.le_succ 1)
  refine (rebalances_iff (twoLeaves_wellFormed ?_) hs rfl).2 ?_
  · simp [StrictlySorted, r]
  · rintro ⟨-, hu⟩
    rcases hu _ rfl with ⟨hlt, -⟩ | ⟨-, hroot⟩
    · exact absurd hlt (Nat.lt_irrefl 2)
    · exact hroot

/-- A leaf with one record gets one of three, and the copy of the root page keeps
    the old separator. -/
theorem rebalance_keeps_separator :
    let r : ℤ → Record := fun key => ⟨key, false, .empty⟩
    let t := twoLeaves (r 1) (r 3) [r 4, r 5]
    let f := besideLeaf (r 3) [r 4, r 5]
    let l : PageTree 0 := (⟨4096, ⟨[r 1], 8336⟩⟩ : Tip ℕ Leaf)
    WellFormed t ((Ctx.up f .root).plug l) [] 3 ∧ AllowedAround (.up f .root) (label l) ∧
      entries l = 1 ∧ ¬ Rebalances t (label l) ((Ctx.up f .root).plug l) [] 3 := by
  intro r t f l
  have hT : WellFormed t ((Ctx.up f .root).plug l) [] 3 :=
    twoLeaves_wellFormed (by simp [StrictlySorted, r])
  have hs : AllowedAround (.up f .root) (label l) := twoLeaves_sized (Nat.le_succ 1) le_rfl
  refine ⟨hT, hs, rfl, hT.not_rebalances hs rfl ⟨Nat.lt_succ_self 1, fun u hu => .inl ⟨?_, rfl⟩⟩⟩
  obtain rfl := Option.some.inj hu
  exact Nat.lt_succ_self 2

end CourseProjects.BPlusTree
