import CourseProjects.BPlusTree.Edits
import CourseProjects.BPlusTree.Kept

/-!
# Moving entries between pages

`redistribute_pages` moves one entry between two pages that follow each other, and
changes the separator between them in the page above (`Redistributed`): a leaf gets
a record, and an internal page a child, which then has another parent. What the
table stores is the tree with the entry moved (`Redistributed.kept`), but if the
page above is the root, the copy of the root page is out of date
(`Redistributed.cached_iff`).
-/

namespace CourseProjects.BPlusTree

open Slots Function PerfectTree

/-! ### Redistributing -/

/-- `redistribute_pages` has moved an entry between the pages of `A` and `B`, and
    changed the separator between them in the page above. -/
structure Redistributed (t t' : Table) {h H : ℕ} (c : Ctx ℤ ℕ Leaf (h + 1) H)
    (g : Frame ℤ ℕ (PageTree h)) (A : PageTree h) (k : ℤ) (B A' : PageTree h) (k' : ℤ)
    (B' : PageTree h) (n : ℕ) : Prop where
  borrow : Borrow A k B A' k' B'
  laid : Laid t' n
  hp : t'.hp = t.hp
  rt : t'.rt = t.rt
  pages : ∀ a, a ∉ labels A → a ∉ labels B → a ≠ g.label → t'.disk.pages a = t.disk.pages a
  above : (t'.disk.pages g.label).IsInner c.parent
    (((g.map label).insertAfter k' (label B)).fill (label A))
  left : Rep t'.disk.pages (some g.label) A'
  right : Rep t'.disk.pages (some g.label) B'

namespace Redistributed

variable {t t' : Table} {h H n : ℕ} {c : Ctx ℤ ℕ Leaf (h + 1) H} {g : Frame ℤ ℕ (PageTree h)}
  {A B A' B' : PageTree h} {k k' : ℤ} {loose free : List ℕ}

/-- The table stores the tree with the two pages changed. -/
theorem kept (hR : Redistributed t t' c g A k B A' k' B' n)
    (hT : Kept t (c.plug ((g.insertAfter k B).fill A)) loose free n) :
    Kept t' (c.plug ((g.insertAfter k' B').fill A')) loose free n := by
  obtain ⟨⟨-, -, hnd⟩, hA, hB, hfree⟩ := nodup_parts hT.labels_pair
  have hsame : ∀ a ∈ (Ctx.up g c).labels ++ (loose ++ free), a ≠ g.label →
      t'.disk.pages a = t.disk.pages a := fun a ha =>
    hR.pages a (fun hmem => hA _ hmem _ (List.mem_append_right _ ha) rfl)
      fun hmem => hB _ hmem _ ha rfl
  obtain ⟨-, haround, -, -⟩ := rep_pair_iff.1 hT.rep
  refine ⟨hR.laid, ?_, ?_, rep_pair_iff.2 ⟨?_, ?_, hR.left, hR.right⟩, ?_⟩
  · rw [hR.hp, hT.root]
    refine label_plug c ?_
    rw [label, label, Frame.label_fill, Frame.label_fill, Frame.label_insertAfter,
      Frame.label_insertAfter]
  · have hperm := (labels_plug c ((g.insertAfter k' B').fill A')).trans
      (labels_fill_insertAfter g c A' k' B')
    refine List.Perm.trans ?_ hT.labels_pair
    rw [List.perm_iff_count]
    intro a
    have h₁ := hperm.count_eq a
    have h₂ := hR.borrow.labels_perm.count_eq a
    simp only [List.count_append] at h₁ h₂ ⊢
    omega
  · rw [hR.borrow.label_left, hR.borrow.label_right]
    exact hR.above
  · exact haround.congr hnd fun a ha => hsame a (List.mem_append_left _ ha)
  · rw [hR.hp]
    exact hT.freeList.congr fun a ha => hsame a
      (List.mem_append_right _ (List.mem_append_right _ ha))
      (hfree _ List.mem_cons_self a (List.mem_append_right _ ha)).symm

/-- The copy of the root page is out of date if the page above is the root. -/
theorem cached_iff (hR : Redistributed t t' c g A k B A' k' B' n)
    (hT : Kept t (c.plug ((g.insertAfter k B).fill A)) loose free n) (hk : k' ≠ k)
    (hc : Cached t) : Cached t' ↔ c.parent ≠ none := by
  obtain ⟨⟨-, -, hndg⟩, hA, hB, -⟩ := nodup_parts hT.labels_pair
  cases c with
  | root =>
    refine iff_of_false (fun hc' => hk ?_) fun hne => hne rfl
    -- Both copies of the root page are equal, but not the separators in them.
    obtain ⟨habove, -, -, -⟩ := rep_pair_iff.1 hT.rep
    have hroot : label (h := h + 1) ((g.insertAfter k B).fill A) = g.label := by
      rw [label, Frame.label_fill, Frame.label_insertAfter]
    have hroot' : label (h := h + 1) ((g.insertAfter k' B').fill A') = g.label := by
      rw [label, Frame.label_fill, Frame.label_insertAfter]
    have h₁ := hT.page_root hc
    have h₂ := (hR.kept hT).page_root hc'
    rw [Ctx.plug, hroot] at h₁
    rw [Ctx.plug, hroot', hR.rt, h₁, Option.some.injEq] at h₂
    have h₃ := hR.above.bF_index.2
    rw [← h₂, habove.bF_index.2] at h₃
    exact (congrArg InterRecord.key h₃).symm
  | up f c =>
    refine iff_of_true ?_ (by simp [Ctx.parent])
    have hmem : t.hp.rpo ∈ (Ctx.up f c).labels := by
      rw [hT.root]
      exact label_plug_up f c _
    have hup : t.hp.rpo ∈ (Ctx.up g (Ctx.up f c)).labels :=
      List.mem_cons_of_mem _ (List.mem_append_right _ hmem)
    refine hc.congr hT.laid hR.laid hT.root_mem_offsets hR.rt (congrArg HeaderPage.rpo hR.hp)
      (hR.pages _ (fun hmem => ?_) (fun hmem => ?_) ?_)
    · exact hA _ hmem _ (List.mem_append_right _ (List.mem_append_left _ hup)) rfl
    · exact hB _ hmem _ (List.mem_append_left _ hup) rfl
    · intro he
      rw [Ctx.labels, List.nodup_cons] at hndg
      exact hndg.1 (List.mem_append_right _ (he ▸ hmem))

end Redistributed

/-- A child moves from a page to its neighbour; the others stay. -/
theorem Rep.move {pages pages' : ℕ → Page} {h : ℕ} {L R : List (PageTree h)} {X : PageTree h}
    {b : ℕ} (hnd : (L.flatMap labels ++ (labels X ++ R.flatMap labels)).Nodup)
    (hX : pages' (label X) = { pages (label X) with parentPageOffset := b })
    (hsame : ∀ a ∈ L.flatMap labels ++ (labels X ++ R.flatMap labels), a ≠ label X →
      pages' a = pages a) :
    (∀ v ∈ L ++ R, ∀ par, Rep pages par v → Rep pages' par v) ∧
      ∀ par, Rep pages par X → Rep pages' (some b) X := by
  obtain ⟨-, hndX, hL⟩ := List.nodup_append.1 hnd
  obtain ⟨hndX, -, hR⟩ := List.nodup_append.1 hndX
  have hlX : label X ∈ labels X := label_mem_labels X
  refine ⟨fun v hv par hrep => hrep.congr fun a ha => ?_, fun par hrep => ?_⟩
  · rcases List.mem_append.1 hv with hv | hv
    · have haL : a ∈ L.flatMap labels := List.mem_flatMap.2 ⟨v, hv, ha⟩
      exact hsame a (List.mem_append_left _ haL)
        (hL a haL _ (List.mem_append_left _ hlX))
    · have haR : a ∈ R.flatMap labels := List.mem_flatMap.2 ⟨v, hv, ha⟩
      exact hsame a (List.mem_append_right _ (List.mem_append_right _ haR))
        (hR _ hlX a haR).symm
  · exact hrep.reparent hndX hX fun a ha =>
      hsame a (List.mem_append_right _ (List.mem_append_left _ ha))

namespace Kept

variable {t : Table} {h H n : ℕ} {loose free : List ℕ}

/-- The pages of a pair lie in the file, and are different ones. -/
theorem pair_ne {c : Ctx ℤ ℕ Leaf (h + 1) H} {g : Frame ℤ ℕ (PageTree h)} {A B : PageTree h}
    {k : ℤ} (hT : Kept t (c.plug ((g.insertAfter k B).fill A)) loose free n) :
    (label A ∈ offsets n ∧ label B ∈ offsets n ∧ g.label ∈ offsets n) ∧
      label A ≠ label B ∧ label A ≠ g.label ∧ label B ≠ g.label := by
  have hperm := hT.labels_pair
  obtain ⟨-, hA, hB, -⟩ := nodup_parts hperm
  have hlA : label A ∈ PerfectTree.labels A := label_mem_labels A
  have hlB : label B ∈ PerfectTree.labels B ++ ((Ctx.up g c).labels ++ (loose ++ free)) :=
    List.mem_append_left _ (label_mem_labels B)
  have hlg : g.label ∈ (Ctx.up g c).labels ++ (loose ++ free) :=
    List.mem_append_left _ List.mem_cons_self
  refine ⟨⟨hperm.mem_iff.1 (List.mem_append_left _ hlA),
    hperm.mem_iff.1 (List.mem_append_right _ hlB),
    hperm.mem_iff.1 (List.mem_append_right _ (List.mem_append_right _ hlg))⟩, hA _ hlA _ hlB,
    hA _ hlA _ (List.mem_append_right _ hlg), hB _ (label_mem_labels B) _ hlg⟩

/-- A record goes from one of a pair of leaves to the other one. -/
theorem moveRecord {t' : Table} {c : Ctx ℤ ℕ Leaf (0 + 1) H} {g : Frame ℤ ℕ (PageTree 0)}
    {A B A' B' : PageTree 0} {k k' : ℤ} (hb : Borrow A k B A' k' B') (hl : Laid t' n)
    (hhp : t'.hp = t.hp) (hrt : t'.rt = t.rt)
    (habove : (t'.disk.pages g.label).IsInner c.parent
      (((g.map label).insertAfter k' (label B)).fill (label A)))
    (hleft : (t'.disk.pages (label A)).IsTip (some g.label) (Tip.data A'))
    (hright : (t'.disk.pages (label B)).IsTip (some g.label) (Tip.data B'))
    (hsame : ∀ x, x ≠ label A → x ≠ label B → x ≠ g.label →
      t'.disk.pages x = t.disk.pages x) :
    Redistributed t t' c g A k B A' k' B' n := by
  refine ⟨hb, hl, hhp, hrt, fun x hxA hxB hxg => ?_, habove, ?_, ?_⟩
  · exact hsame x (fun he => hxA (he ▸ label_mem_labels A))
      (fun he => hxB (he ▸ label_mem_labels B)) hxg
  · change (t'.disk.pages (label A')).IsTip _ _
    rw [hb.label_left]
    exact hleft
  · change (t'.disk.pages (label B')).IsTip _ _
    rw [hb.label_right]
    exact hright

/-- A leaf gets the last record of the leaf before it. -/
theorem borrowLastRecord {c : Ctx ℤ ℕ Leaf (0 + 1) H} {g : Frame ℤ ℕ (PageTree 0)}
    {a b next next' : ℕ} {rs ss : List Record} {r : Record} {k : ℤ}
    (hT : Kept t (c.plug ((g.insertAfter k (⟨b, ⟨ss, next'⟩⟩ : Tip ℕ Leaf)).fill
      (⟨a, ⟨rs ++ [r], next⟩⟩ : Tip ℕ Leaf))) loose free n) {idx : ℤ} (hidx : idx ≠ -2) :
    ∃ t', t.redistributePages b idx a g.label k g.index = .ok t' ∧
      Redistributed t t' c g (⟨a, ⟨rs ++ [r], next⟩⟩ : Tip ℕ Leaf) k (⟨b, ⟨ss, next'⟩⟩ : Tip ℕ Leaf)
        (⟨a, ⟨rs, next⟩⟩ : Tip ℕ Leaf) r.key (⟨b, ⟨r :: ss, next'⟩⟩ : Tip ℕ Leaf) n := by
  obtain ⟨habove, -, hA, hB⟩ := rep_pair_iff.1 hT.rep
  have hpA : (t.disk.pages a).IsTip (some g.label) ⟨rs ++ [r], next⟩ := hA
  have hpB : (t.disk.pages b).IsTip (some g.label) ⟨ss, next'⟩ := hB
  obtain ⟨⟨ha, hb, hg⟩, hab, hag, hbg⟩ : (a ∈ offsets n ∧ b ∈ offsets n ∧ g.label ∈ offsets n) ∧
    a ≠ b ∧ a ≠ g.label ∧ b ≠ g.label := hT.pair_ne
  obtain ⟨hlast, hpA'⟩ := hpA.dropLast
  have hpB' := hpB.cons r
  have hparent := habove.setSeparator r.key
  let p := t.disk.pages a
  let q := t.disk.pages b
  let p' : Page := { p with
    records := update p.records (p.numOfKeys - 1) { p.records (p.numOfKeys - 1) with key := 0 }
    numOfKeys := p.numOfKeys - 1 }
  let q' : Page := { q with
    records := update (shiftUp q.records 0 q.numOfKeys) 0 r
    numOfKeys := q.numOfKeys + 1 }
  let parent' := (t.disk.pages g.label).setSeparator (g.map label).index r.key
  let t₁ := (t.log .redistributePages).pwritePage g.label parent'
  let t' := (t₁.pwritePage a p').pwritePage b q'
  have hlog := hT.laid.log .redistributePages
  have hl' : Laid t' n := ((hlog.pwritePage hg parent').pwritePage ha p').pwritePage hb q'
  have hta : t'.disk.pages a = p' := by simp [t', hab]
  have htb : t'.disk.pages b = q' := by simp [t']
  have htg : t'.disk.pages g.label = parent' := by simp [t', t₁, hag.symm, hbg.symm]
  refine ⟨t', ?_, moveRecord .lastRecord hl' rfl rfl (htg ▸ hparent) (hta ▸ hpA') (htb ▸ hpB')
    fun x hxa hxb hxg => ?_⟩
  · have hleaf : ¬ (!((t.log .redistributePages).disk.pages b).isLeaf) = true := by
      change ¬ (!(t.disk.pages b).isLeaf) = true
      rw [hpB.isLeaf]
      exact Bool.false_ne_true
    rw [Table.redistributePages]
    dsimp only
    rw [hlog.page hb, ok_bind, hlog.page ha, ok_bind, hlog.page hg, ok_bind, if_pos hidx,
      if_neg hleaf]
    change Except.ok _ = Except.ok t'
    rw [← Frame.index_map label g]
    simp only [t', t₁, parent', p', q', p, q, ← hlast]
    rfl
  · have hxa' : x ≠ a := hxa
    have hxb' : x ≠ b := hxb
    simp [t', t₁, hxa', hxb', hxg]

/-- A leaf gets the first record of the leaf after it. -/
theorem borrowFirstRecord {c : Ctx ℤ ℕ Leaf (0 + 1) H} {g : Frame ℤ ℕ (PageTree 0)}
    {a b next next' : ℕ} {rs ss : List Record} {r s : Record} {k : ℤ}
    (hT : Kept t (c.plug ((g.insertAfter k (⟨b, ⟨r :: s :: ss, next'⟩⟩ : Tip ℕ Leaf)).fill
      (⟨a, ⟨rs, next⟩⟩ : Tip ℕ Leaf))) loose free n) :
    ∃ t', t.redistributePages a (-2) b g.label k g.index = .ok t' ∧
      Redistributed t t' c g (⟨a, ⟨rs, next⟩⟩ : Tip ℕ Leaf) k
        (⟨b, ⟨r :: s :: ss, next'⟩⟩ : Tip ℕ Leaf) (⟨a, ⟨rs ++ [r], next⟩⟩ : Tip ℕ Leaf) s.key
        (⟨b, ⟨s :: ss, next'⟩⟩ : Tip ℕ Leaf) n := by
  obtain ⟨habove, -, hA, hB⟩ := rep_pair_iff.1 hT.rep
  have hpA : (t.disk.pages a).IsTip (some g.label) ⟨rs, next⟩ := hA
  have hpB : (t.disk.pages b).IsTip (some g.label) ⟨r :: s :: ss, next'⟩ := hB
  obtain ⟨⟨ha, hb, hg⟩, hab, hag, hbg⟩ : (a ∈ offsets n ∧ b ∈ offsets n ∧ g.label ∈ offsets n) ∧
    a ≠ b ∧ a ≠ g.label ∧ b ≠ g.label := hT.pair_ne
  obtain ⟨hfirst, hpB'⟩ := hpB.tail
  have hpA' := hpA.concat r
  have hparent := habove.setSeparator s.key
  let p := t.disk.pages a
  let q := t.disk.pages b
  let p' : Page := { p with
    records := update p.records p.numOfKeys r
    numOfKeys := p.numOfKeys + 1 }
  let q' : Page := { q with
    records := shiftDown q.records 0 q.numOfKeys
    numOfKeys := q.numOfKeys - 1 }
  let parent' := (t.disk.pages g.label).setSeparator (g.map label).index s.key
  have hsecond : q'.records 0 = s := hpB'.records (Nat.succ_pos _)
  let t₁ := (t.log .redistributePages).pwritePage g.label parent'
  let t' := (t₁.pwritePage b q').pwritePage a p'
  have hlog := hT.laid.log .redistributePages
  have hl' : Laid t' n := ((hlog.pwritePage hg parent').pwritePage hb q').pwritePage ha p'
  have hta : t'.disk.pages a = p' := by simp [t']
  have htb : t'.disk.pages b = q' := by simp [t', hab.symm]
  have htg : t'.disk.pages g.label = parent' := by simp [t', t₁, hag.symm, hbg.symm]
  refine ⟨t', ?_, moveRecord .firstRecord hl' rfl rfl (htg ▸ hparent) (hta ▸ hpA') (htb ▸ hpB')
    fun x hxa hxb hxg => ?_⟩
  · have hleaf : ((t.log .redistributePages).disk.pages a).isLeaf = true := hpA.isLeaf
    rw [Table.redistributePages]
    dsimp only
    rw [hlog.page ha, ok_bind, hlog.page hb, ok_bind, hlog.page hg, ok_bind,
      if_neg (not_not_intro rfl), if_pos hleaf]
    change Except.ok _ = Except.ok t'
    rw [← Frame.index_map label g]
    simp only [t', t₁, parent', p', ← hfirst, ← hsecond]
    rfl
  · have hxa' : x ≠ a := hxa
    have hxb' : x ≠ b := hxb
    simp [t', t₁, hxa', hxb', hxg]

end Kept

namespace Kept

variable {t t' : Table} {h H n : ℕ} {loose free : List ℕ} {c : Ctx ℤ ℕ Leaf (h + 1 + 1) H}
  {g : Frame ℤ ℕ (PageTree (h + 1))} {k : ℤ}

/-- The pages below a pair of internal pages are different from both, and from
    the page above. -/
theorem children_pair {A B : PageTree (h + 1)}
    (hT : Kept t (c.plug ((g.insertAfter k B).fill A)) loose free n) :
    ((Inner.children A ++ Inner.children B).flatMap PerfectTree.labels).Nodup ∧
      ∀ x ∈ (Inner.children A ++ Inner.children B).flatMap PerfectTree.labels,
        x ∈ offsets n ∧ x ≠ label A ∧ x ≠ label B ∧ x ≠ g.label := by
  have hperm := hT.labels_pair
  rw [PerfectTree.labels, PerfectTree.labels, List.cons_append, List.cons_append] at hperm
  rw [List.flatMap_append]
  obtain ⟨hA, hnd⟩ := List.nodup_cons.1 (hperm.nodup_iff.2 (offsets_nodup n))
  obtain ⟨hndA, hndB, hAB⟩ := List.nodup_append.1 hnd
  obtain ⟨hB, hndB⟩ := List.nodup_cons.1 hndB
  obtain ⟨hndB, -, hup⟩ := List.nodup_append.1 hndB
  have hg : g.label ∈ (Ctx.up g c).labels ++ (loose ++ free) :=
    List.mem_append_left _ List.mem_cons_self
  refine ⟨List.nodup_append.2 ⟨hndA, hndB, fun x hx y hy =>
    hAB x hx y (List.mem_cons_of_mem _ (List.mem_append_left _ hy))⟩, fun x hx => ?_⟩
  rcases List.mem_append.1 hx with hx | hx
  · refine ⟨hperm.mem_iff.1 (List.mem_cons_of_mem _ (List.mem_append_left _ hx)), ?_, ?_, ?_⟩
    · rintro rfl
      exact hA (List.mem_append_left _ hx)
    · exact hAB x hx _ List.mem_cons_self
    · exact hAB x hx _ (List.mem_cons_of_mem _ (List.mem_append_right _ hg))
  · have hxB : x ∈ Inner.label B :: ((Inner.children B).flatMap PerfectTree.labels ++
        ((Ctx.up g c).labels ++ (loose ++ free))) :=
      List.mem_cons_of_mem _ (List.mem_append_left _ hx)
    refine ⟨hperm.mem_iff.1 (List.mem_cons_of_mem _ (List.mem_append_right _ hxB)), ?_, ?_, ?_⟩
    · rintro rfl
      exact hA (List.mem_append_right _ hxB)
    · rintro rfl
      exact hB (List.mem_append_left _ hx)
    · exact hup x hx _ hg

/-- The child `Y` goes from one of a pair of internal pages to the other one, `d`. -/
theorem moveChild {A B A' B' : PageTree (h + 1)} {L R : List (PageTree h)} {Y : PageTree h}
    {k' : ℤ} {d : ℕ} (hT : Kept t (c.plug ((g.insertAfter k B).fill A)) loose free n)
    (hb : Borrow A k B A' k' B') (hl : Laid t' n) (hhp : t'.hp = t.hp) (hrt : t'.rt = t.rt)
    (hch : Inner.children A ++ Inner.children B = L ++ Y :: R)
    (hA' : ∀ v ∈ Inner.children A', v ∈ L ∧ v ∈ Inner.children A ∨ v = Y ∧ d = label A)
    (hB' : ∀ v ∈ Inner.children B', v ∈ R ∧ v ∈ Inner.children B ∨ v = Y ∧ d = label B)
    (habove : (t'.disk.pages g.label).IsInner c.parent
      (((g.map label).insertAfter k' (label B)).fill (label A)))
    (hleft : (t'.disk.pages (label A)).IsInner (some g.label) (Inner.map label A'))
    (hright : (t'.disk.pages (label B)).IsInner (some g.label) (Inner.map label B'))
    (hmoved : t'.disk.pages (label Y) = { t.disk.pages (label Y) with parentPageOffset := d })
    (hsame : ∀ x, x ≠ label A → x ≠ label B → x ≠ g.label → x ≠ label Y →
      t'.disk.pages x = t.disk.pages x) :
    Redistributed t t' c g A k B A' k' B' n := by
  obtain ⟨-, -, ⟨-, hrepA⟩, -, hrepB⟩ := rep_pair_iff.1 hT.rep
  obtain ⟨hnd, hne⟩ := hT.children_pair
  have hflat : (Inner.children A ++ Inner.children B).flatMap PerfectTree.labels =
      L.flatMap PerfectTree.labels ++ (PerfectTree.labels Y ++ R.flatMap PerfectTree.labels) := by
    rw [hch, List.flatMap_append, List.flatMap_cons]
  have hrep : ∀ v ∈ Inner.children A ++ Inner.children B, ∃ par, Rep t.disk.pages par v := by
    intro v hv
    rcases List.mem_append.1 hv with hv | hv
    exacts [⟨_, hrepA v hv⟩, ⟨_, hrepB v hv⟩]
  have hstays : ∀ x ∈ L.flatMap PerfectTree.labels ++
      (PerfectTree.labels Y ++ R.flatMap PerfectTree.labels), x ≠ label Y →
      t'.disk.pages x = t.disk.pages x := by
    intro x hx hxY
    obtain ⟨-, hxA, hxB, hxg⟩ := hne x (hflat ▸ hx)
    exact hsame x hxA hxB hxg hxY
  obtain ⟨hstay, hmove⟩ := Rep.move (hflat ▸ hnd) hmoved hstays
  have hY : Rep t'.disk.pages (some d) Y := by
    obtain ⟨par, hpar⟩ := hrep Y (hch ▸ List.mem_append_right _ List.mem_cons_self)
    exact hmove par hpar
  refine ⟨hb, hl, hhp, hrt, fun x hxA hxB hxg => ?_, habove, ⟨?_, fun v hv => ?_⟩,
    ⟨?_, fun v hv => ?_⟩⟩
  · refine hsame x (fun he => hxA (he ▸ label_mem_labels A))
      (fun he => hxB (he ▸ label_mem_labels B)) hxg ?_
    -- The child is below one of the two pages.
    rintro rfl
    have hY : Y ∈ Inner.children A ++ Inner.children B :=
      hch ▸ List.mem_append_right _ List.mem_cons_self
    rcases List.mem_append.1 hY with hY | hY
    · exact hxA (List.mem_cons_of_mem _ (List.mem_flatMap.2 ⟨Y, hY, label_mem_labels Y⟩))
    · exact hxB (List.mem_cons_of_mem _ (List.mem_flatMap.2 ⟨Y, hY, label_mem_labels Y⟩))
  · change (t'.disk.pages (label A')).IsInner _ _
    rw [hb.label_left]
    exact hleft
  · change Rep _ (some (label A')) v
    rw [hb.label_left]
    rcases hA' v hv with ⟨hvL, hvA⟩ | ⟨rfl, rfl⟩
    exacts [hstay v (List.mem_append_left _ hvL) _ (hrepA v hvA), hY]
  · change (t'.disk.pages (label B')).IsInner _ _
    rw [hb.label_right]
    exact hright
  · change Rep _ (some (label B')) v
    rw [hb.label_right]
    rcases hB' v hv with ⟨hvR, hvB⟩ | ⟨rfl, rfl⟩
    exacts [hstay v (List.mem_append_right _ hvR) _ (hrepB v hvB), hY]

end Kept

namespace Kept

variable {t : Table} {h H n : ℕ} {loose free : List ℕ} {c : Ctx ℤ ℕ Leaf (h + 1 + 1) H}
  {g : Frame ℤ ℕ (PageTree (h + 1))} {a b : ℕ} {u v w : PageTree h} {rs ss : List (ℤ × PageTree h)}
  {k k' : ℤ}

/-- An internal page gets the last child of the page before it. -/
theorem borrowLastChild
    (hT : Kept t (c.plug ((g.insertAfter k (⟨b, w, ss⟩ : Inner ℤ ℕ (PageTree h))).fill
      (⟨a, u, rs ++ [(k', v)]⟩ : Inner ℤ ℕ (PageTree h)))) loose free n)
    {idx : ℤ} (hidx : idx ≠ -2) :
    ∃ t', t.redistributePages b idx a g.label k g.index = .ok t' ∧
      Redistributed t t' c g (⟨a, u, rs ++ [(k', v)]⟩ : Inner ℤ ℕ (PageTree h)) k
        (⟨b, w, ss⟩ : Inner ℤ ℕ (PageTree h)) (⟨a, u, rs⟩ : Inner ℤ ℕ (PageTree h)) k'
        (⟨b, v, (k, w) :: ss⟩ : Inner ℤ ℕ (PageTree h)) n := by
  obtain ⟨habove, -, hA, hB⟩ := rep_pair_iff.1 hT.rep
  obtain ⟨⟨ha, hb, hg⟩, hab, hag, hbg⟩ : (a ∈ offsets n ∧ b ∈ offsets n ∧ g.label ∈ offsets n) ∧
    a ≠ b ∧ a ≠ g.label ∧ b ≠ g.label := hT.pair_ne
  have hpA : (t.disk.pages a).IsInner (some g.label)
      ⟨a, label u, rs.map (fun e => (e.1, label e.2)) ++ [(k', label v)]⟩ := by
    simpa [Inner.map] using hA.1
  have hpB : (t.disk.pages b).IsInner (some g.label)
      ⟨b, label w, ss.map fun e => (e.1, label e.2)⟩ := hB.1
  obtain ⟨hlast, hpA'⟩ := hpA.dropLast
  have hpB' := hpB.cons k (label v)
  have hparent := habove.setSeparator k'
  -- The child is a page below `a`.
  obtain ⟨hv, hva, hvb, hvg⟩ := hT.children_pair.2 (label v)
    (List.mem_flatMap.2 ⟨v, by simp [Inner.children], label_mem_labels v⟩)
  let p := t.disk.pages a
  let q := t.disk.pages b
  let p' : Page := { p with numOfKeys := p.numOfKeys - 1 }
  let q' : Page := { q with
    bF := update (shiftUp q.bF 0 q.numOfKeys) 0 ⟨k, q.nextOffset⟩
    nextOffset := label v
    numOfKeys := q.numOfKeys + 1 }
  let parent' := (t.disk.pages g.label).setSeparator (g.map label).index k'
  let t₁ := (t.log .redistributePages).pwritePage (label v)
    { t.disk.pages (label v) with parentPageOffset := b }
  let t' := ((t₁.pwritePage g.label parent').pwritePage a p').pwritePage b q'
  have hlog := hT.laid.log .redistributePages
  have hl' : Laid t' n :=
    (((hlog.pwritePage hv _).pwritePage hg parent').pwritePage ha p').pwritePage hb q'
  have hta : t'.disk.pages a = p' := by simp [t', hab]
  have htb : t'.disk.pages b = q' := by simp [t']
  have htg : t'.disk.pages g.label = parent' := by simp [t', t₁, hag.symm, hbg.symm]
  have htv : t'.disk.pages (label v) = { t.disk.pages (label v) with parentPageOffset := b } := by
    simp [t', t₁, show label v ≠ a from hva, show label v ≠ b from hvb, hvg]
  refine ⟨t', ?_, hT.moveChild .lastChild hl' rfl rfl (L := u :: rs.map Prod.snd) (Y := v)
    (R := w :: ss.map Prod.snd) (d := b) ?_ ?_ ?_ ?_ ?_ ?_ htv fun x hxa hxb hxg hxv => ?_⟩
  · have hleaf : (!((t.log .redistributePages).disk.pages b).isLeaf) = true := by
      change (!(t.disk.pages b).isLeaf) = true
      rw [hpB.isLeaf]
      rfl
    have hset := hlog.setParent hv b
    have hoff : (((t.log .redistributePages).disk.pages a).bF
        (((t.log .redistributePages).disk.pages a).numOfKeys - 1)) = ⟨k', label v⟩ := hlast
    rw [Table.redistributePages]
    dsimp only
    rw [hlog.page hb, ok_bind, hlog.page ha, ok_bind, hlog.page hg, ok_bind, if_pos hidx,
      if_pos hleaf, hoff, hset]
    change Except.ok _ = Except.ok t'
    rw [← Frame.index_map label g]
    rfl
  · simp [Inner.children]
  · intro x hx
    simp [Inner.children] at hx ⊢
    tauto
  · intro x hx
    simp [Inner.children, label] at hx ⊢
    tauto
  · rw [htg]
    exact hparent
  · change (t'.disk.pages a).IsInner _ _
    rw [hta]
    exact hpA'
  · change (t'.disk.pages b).IsInner _ _
    rw [htb]
    exact hpB'
  · have hxa' : x ≠ a := hxa
    have hxb' : x ≠ b := hxb
    simp [t', t₁, hxa', hxb', hxg, hxv]

/-- An internal page gets the first child of the page after it. -/
theorem borrowFirstChild
    (hT : Kept t (c.plug ((g.insertAfter k (⟨b, v, (k', w) :: ss⟩ : Inner ℤ ℕ (PageTree h))).fill
      (⟨a, u, rs⟩ : Inner ℤ ℕ (PageTree h)))) loose free n) :
    ∃ t', t.redistributePages a (-2) b g.label k g.index = .ok t' ∧
      Redistributed t t' c g (⟨a, u, rs⟩ : Inner ℤ ℕ (PageTree h)) k
        (⟨b, v, (k', w) :: ss⟩ : Inner ℤ ℕ (PageTree h))
        (⟨a, u, rs ++ [(k, v)]⟩ : Inner ℤ ℕ (PageTree h)) k'
        (⟨b, w, ss⟩ : Inner ℤ ℕ (PageTree h)) n := by
  obtain ⟨habove, -, hA, hB⟩ := rep_pair_iff.1 hT.rep
  obtain ⟨⟨ha, hb, hg⟩, hab, hag, hbg⟩ : (a ∈ offsets n ∧ b ∈ offsets n ∧ g.label ∈ offsets n) ∧
    a ≠ b ∧ a ≠ g.label ∧ b ≠ g.label := hT.pair_ne
  have hpA : (t.disk.pages a).IsInner (some g.label)
      ⟨a, label u, rs.map fun e => (e.1, label e.2)⟩ := hA.1
  have hpB : (t.disk.pages b).IsInner (some g.label)
      ⟨b, label v, (k', label w) :: ss.map fun e => (e.1, label e.2)⟩ := hB.1
  obtain ⟨hfirst, hpB'⟩ := hpB.tail
  have hpA' := hpA.concat k (label v)
  have hparent := habove.setSeparator k'
  -- The child is a page below `b`.
  obtain ⟨hv, hva, hvb, hvg⟩ := hT.children_pair.2 (label v)
    (List.mem_flatMap.2 ⟨v, by simp [Inner.children], label_mem_labels v⟩)
  let p := t.disk.pages a
  let q := t.disk.pages b
  let p' : Page := { p with
    bF := update p.bF p.numOfKeys ⟨k, label v⟩
    numOfKeys := p.numOfKeys + 1 }
  let q' : Page := { q with
    nextOffset := (q.bF 0).pOffset
    bF := shiftDown q.bF 0 q.numOfKeys
    numOfKeys := q.numOfKeys - 1 }
  let parent' := (t.disk.pages g.label).setSeparator (g.map label).index k'
  let t₁ := (t.log .redistributePages).pwritePage (label v)
    { t.disk.pages (label v) with parentPageOffset := a }
  let t' := ((t₁.pwritePage g.label parent').pwritePage b q').pwritePage a p'
  have hlog := hT.laid.log .redistributePages
  have hl' : Laid t' n :=
    (((hlog.pwritePage hv _).pwritePage hg parent').pwritePage hb q').pwritePage ha p'
  have hta : t'.disk.pages a = p' := by simp [t']
  have htb : t'.disk.pages b = q' := by simp [t', hab.symm]
  have htg : t'.disk.pages g.label = parent' := by simp [t', t₁, hag.symm, hbg.symm]
  have htv : t'.disk.pages (label v) = { t.disk.pages (label v) with parentPageOffset := a } := by
    simp [t', t₁, show label v ≠ a from hva, show label v ≠ b from hvb, hvg]
  refine ⟨t', ?_, hT.moveChild .firstChild hl' rfl rfl (L := u :: rs.map Prod.snd) (Y := v)
    (R := w :: ss.map Prod.snd) (d := a) ?_ ?_ ?_ ?_ ?_ ?_ htv fun x hxa hxb hxg hxv => ?_⟩
  · have hleaf : ¬ ((t.log .redistributePages).disk.pages a).isLeaf = true := by
      change ¬ (t.disk.pages a).isLeaf = true
      rw [hpA.isLeaf]
      exact Bool.false_ne_true
    have hset := hlog.setParent hv a
    have hnext : ((t.log .redistributePages).disk.pages b).nextOffset = label v := hpB.first
    have hkey : (((t.log .redistributePages).disk.pages b).bF 0).key = k' :=
      congrArg InterRecord.key hfirst
    rw [Table.redistributePages]
    dsimp only
    rw [hlog.page ha, ok_bind, hlog.page hb, ok_bind, hlog.page hg, ok_bind,
      if_neg (not_not_intro rfl), if_neg hleaf, hnext, update_self, hset]
    change Except.ok _ = Except.ok t'
    rw [← Frame.index_map label g, hkey]
    rfl
  · simp [Inner.children]
  · intro x hx
    simp [Inner.children, label] at hx ⊢
    tauto
  · intro x hx
    simp [Inner.children] at hx ⊢
    tauto
  · rw [htg]
    exact hparent
  · change (t'.disk.pages a).IsInner _ _
    rw [hta]
    simpa [Inner.map] using hpA'
  · change (t'.disk.pages b).IsInner _ _
    rw [htb]
    exact hpB'
  · have hxa' : x ≠ a := hxa
    have hxb' : x ≠ b := hxb
    simp [t', t₁, hxa', hxb', hxg, hxv]

end Kept

namespace Kept

variable {t : Table} {h H n : ℕ} {loose free : List ℕ} {c : Ctx ℤ ℕ Leaf (h + 1) H}
  {g : Frame ℤ ℕ (PageTree h)} {A B : PageTree h} {k : ℤ}

/-- `redistribute_pages` takes the last entry of the page before. -/
theorem borrowLast (hT : Kept t (c.plug ((g.insertAfter k B).fill A)) loose free n)
    (hA : 0 < entries A) {idx : ℤ} (hidx : idx ≠ -2) :
    ∃ A' k' B' t', t.redistributePages (label B) idx (label A) g.label k g.index = .ok t' ∧
      Redistributed t t' c g A k B A' k' B' n ∧ entries A' + 1 = entries A ∧
      entries B' = entries B + 1 := by
  cases h with
  | zero =>
    obtain ⟨a, recs, next⟩ := A
    obtain ⟨b, ss, next'⟩ := B
    rcases List.eq_nil_or_concat recs with rfl | ⟨rs, r, hrs⟩
    · exact absurd hA (Nat.lt_irrefl 0)
    rw [List.concat_eq_append] at hrs
    subst hrs
    obtain ⟨t', ht', hR⟩ := hT.borrowLastRecord hidx
    exact ⟨_, _, _, t', ht', hR, by simp [entries], rfl⟩
  | succ h =>
    obtain ⟨a, u, es⟩ := A
    obtain ⟨b, w, ss⟩ := B
    rcases List.eq_nil_or_concat es with rfl | ⟨rs, e, hrs⟩
    · exact absurd hA (Nat.lt_irrefl 0)
    rw [List.concat_eq_append] at hrs
    subst hrs
    obtain ⟨t', ht', hR⟩ := hT.borrowLastChild hidx
    exact ⟨_, _, _, t', ht', hR, by simp [entries], rfl⟩

/-- `redistribute_pages` takes the first entry of the page after. -/
theorem borrowFirst (hT : Kept t (c.plug ((g.insertAfter k B).fill A)) loose free n)
    (hB : 1 < entries B) :
    ∃ A' k' B' t', t.redistributePages (label A) (-2) (label B) g.label k g.index = .ok t' ∧
      Redistributed t t' c g A k B A' k' B' n ∧ entries A' = entries A + 1 ∧
      entries B' + 1 = entries B := by
  cases h with
  | zero =>
    obtain ⟨a, rs, next⟩ := A
    obtain ⟨b, recs, next'⟩ := B
    rcases recs with _ | ⟨r, _ | ⟨s, ss⟩⟩
    · exact absurd hB (Nat.not_lt_zero 1)
    · exact absurd hB (Nat.lt_irrefl 1)
    obtain ⟨t', ht', hR⟩ := hT.borrowFirstRecord
    exact ⟨_, _, _, t', ht', hR, by simp [entries], rfl⟩
  | succ h =>
    obtain ⟨a, u, rs⟩ := A
    obtain ⟨b, v, es⟩ := B
    rcases es with _ | ⟨⟨k', w⟩, ss⟩
    · exact absurd hB (Nat.not_lt_zero 1)
    obtain ⟨t', ht', hR⟩ := hT.borrowFirstChild
    exact ⟨_, _, _, t', ht', hR, by simp [entries], rfl⟩

end Kept

end CourseProjects.BPlusTree
