import CourseProjects.BPlusTree.Allocator
import CourseProjects.BPlusTree.Siblings

/-!
# Tables with free pages

A table stores a tree (`Kept`) when the pages of the file are those of the tree,
those of the free list, and those that were taken out of the tree but are not yet
on the free list. Its copy of the root page is up to date (`Cached`) or not.

A pair of pages that follow each other below a page is taken apart from the pages
around it (`rep_pair_iff`, `Kept.labels_pair`).
-/

namespace CourseProjects.BPlusTree

open Slots Function PerfectTree

@[simp] theorem Table.disk_log (t : Table) (r : Reclaim) : (t.log r).disk = t.disk := rfl

namespace Laid

variable {t : Table} {n : ℕ} {a : ℕ}

theorem log (h : Laid t n) (r : Reclaim) : Laid (t.log r) n :=
  ⟨h.size, h.numOfPages, h.header⟩

theorem setRt (h : Laid t n) (rt : Option Page) : Laid { t with rt := rt } n :=
  ⟨h.size, h.numOfPages, h.header⟩

theorem setRoot (h : Laid t n) (a : ℕ) (rt : Option Page) :
    Laid { t with rt := rt, hp := { t.hp with rpo := a } }.syncHeader n :=
  ⟨h.size, h.numOfPages, rfl⟩

end Laid

/-! ### A table and its tree -/

/-- The copy of the root page in memory is the one on disk. -/
def Cached (t : Table) : Prop := t.rt = t.loadPage t.hp.rpo

theorem Cached.congr {t t' : Table} {n : ℕ} (h : Cached t) (hl : Laid t n) (hl' : Laid t' n)
    (hmem : t.hp.rpo ∈ offsets n) (hrt : t'.rt = t.rt) (hroot : t'.hp.rpo = t.hp.rpo)
    (hp : t'.disk.pages t.hp.rpo = t.disk.pages t.hp.rpo) : Cached t' := by
  rw [Cached, hrt, hroot, hl'.loadPage hmem, hp, ← hl.loadPage hmem]
  exact h

/-- The table stores the tree; its other pages are those of the free list and
    the `loose` ones, which are in neither. -/
structure Kept (t : Table) {H : ℕ} (T : PageTree H) (loose free : List ℕ) (n : ℕ) : Prop where
  laid : Laid t n
  root : t.hp.rpo = label T
  labels : (labels T ++ (loose ++ free)).Perm (offsets n)
  rep : Rep t.disk.pages none T
  freeList : FreeList t.disk.pages t.hp.fpo free

/-- The pages around a hole below the page of the frame `g`. -/
structure Around (pages : ℕ → Page) {h H : ℕ} (g : Frame ℤ ℕ (PageTree h))
    (c : Ctx ℤ ℕ Leaf (h + 1) H) : Prop where
  siblings : ∀ v ∈ g.left ++ g.right, Rep pages (some g.label) v
  ctx : RepCtx pages c g.label

section Around

variable {pages pages' : ℕ → Page} {h H : ℕ} {g : Frame ℤ ℕ (PageTree h)}
  {c : Ctx ℤ ℕ Leaf (h + 1) H} {A B X : PageTree h} {k : ℤ}

/-- A page of the tree, with what is around it. -/
theorem rep_fill_iff : Rep pages none (c.plug (g.fill X)) ↔
    (pages g.label).IsInner c.parent ((g.map label).fill (label X)) ∧ Around pages g c ∧
      Rep pages (some g.label) X := by
  have hplug : Rep pages none ((Ctx.up g c).plug X) ↔ _ := rep_plug
  have hlabel : ((g.map label).fill (label X)).label = g.label := by simp
  refine hplug.trans ?_
  rw [RepCtx, Ctx.Everywhere, hlabel]
  constructor
  · rintro ⟨⟨hn, hs, hc⟩, hX⟩
    exact ⟨hn, ⟨hs, hc⟩, hX⟩
  · rintro ⟨hn, ⟨hs, hc⟩, hX⟩
    exact ⟨⟨hn, hs, hc⟩, hX⟩

/-- Two pages that follow each other, with what is around them. -/
theorem rep_pair_iff : Rep pages none (c.plug ((g.insertAfter k B).fill A)) ↔
    (pages g.label).IsInner c.parent (((g.map label).insertAfter k (label B)).fill (label A)) ∧
      Around pages g c ∧ Rep pages (some g.label) A ∧ Rep pages (some g.label) B := by
  rw [rep_fill_iff, Frame.label_insertAfter, Frame.map_insertAfter]
  refine and_congr_right fun _ => ?_
  constructor
  · rintro ⟨⟨hs, hc⟩, hA⟩
    rw [Frame.left_insertAfter, Frame.right_insertAfter] at hs
    rw [Frame.label_insertAfter] at hs hc
    refine ⟨⟨fun v hv => hs v ?_, hc⟩, hA, hs B (by simp)⟩
    simp only [List.mem_append, List.mem_cons] at hv ⊢
    tauto
  · rintro ⟨⟨hs, hc⟩, hA, hB⟩
    refine ⟨⟨fun v hv => ?_, by rwa [Frame.label_insertAfter]⟩, hA⟩
    rw [Frame.left_insertAfter, Frame.right_insertAfter] at hv
    rw [Frame.label_insertAfter]
    simp only [List.mem_append, List.mem_cons] at hv hs
    rcases hv with hv | rfl | hv
    exacts [hs v (.inl hv), hB, hs v (.inr hv)]

/-- Only the pages around the hole matter. -/
theorem Around.congr (ha : Around pages g c) (hnd : (Ctx.up g c).labels.Nodup)
    (hp : ∀ a ∈ (Ctx.up g c).labels, a ≠ g.label → pages' a = pages a) : Around pages' g c := by
  rw [Ctx.labels, List.nodup_cons] at hnd
  have hother : ∀ a ∈ g.left.flatMap labels ++ g.right.flatMap labels ++ c.labels,
      pages' a = pages a := fun a hmem =>
    hp a (List.mem_cons_of_mem _ hmem) fun he => hnd.1 (he ▸ hmem)
  refine ⟨fun v hv => (ha.siblings v hv).congr fun a hmem => hother a ?_,
    ha.ctx.congr fun a hmem => hother a (List.mem_append_right _ hmem)⟩
  rw [← List.flatMap_append]
  exact List.mem_append_left _ (List.mem_flatMap.2 ⟨v, hv, hmem⟩)

end Around

/-- Four groups of pages that make up a file have none in common. -/
theorem nodup_parts {as bs cs ds : List ℕ} {n : ℕ}
    (h : (as ++ (bs ++ (cs ++ ds))).Perm (offsets n)) :
    (as.Nodup ∧ bs.Nodup ∧ cs.Nodup) ∧ (∀ a ∈ as, ∀ b ∈ bs ++ (cs ++ ds), a ≠ b) ∧
      (∀ b ∈ bs, ∀ c ∈ cs ++ ds, b ≠ c) ∧ ∀ c ∈ cs, ∀ d ∈ ds, c ≠ d := by
  obtain ⟨has, hnd, ha⟩ := List.nodup_append.1 (h.nodup_iff.2 (offsets_nodup n))
  obtain ⟨hbs, hnd, hb⟩ := List.nodup_append.1 hnd
  obtain ⟨hcs, -, hc⟩ := List.nodup_append.1 hnd
  exact ⟨⟨has, hbs, hcs⟩, ha, hb, hc⟩

/-- In the middle of `coalesce_pages`: the contents of `B` are in the page of
    `A`, and the page above still has both. -/
structure Merged (t : Table) {h H : ℕ} (c : Ctx ℤ ℕ Leaf (h + 1) H) (g : Frame ℤ ℕ (PageTree h))
    (A : PageTree h) (k : ℤ) (B : PageTree h) (loose free : List ℕ) (n : ℕ) : Prop where
  laid : Laid t n
  root : t.hp.rpo = label (c.plug (g.fill A))
  labels : (labels A ++ (labels B ++ ((Ctx.up g c).labels ++ (loose ++ free)))).Perm (offsets n)
  above : (t.disk.pages g.label).IsInner c.parent
    (((g.map label).insertAfter k (label B)).fill (label A))
  around : Around t.disk.pages g c
  rep : Rep t.disk.pages (some g.label) (merge A k B)
  freeList : FreeList t.disk.pages t.hp.fpo free

namespace Kept

variable {t t₁ : Table} {h H n : ℕ} {c : Ctx ℤ ℕ Leaf (h + 1) H} {g : Frame ℤ ℕ (PageTree h)}
  {A B : PageTree h} {k : ℤ} {loose free : List ℕ}

theorem mem_offsets {T : PageTree H} (hT : Kept t T loose free n) {a : ℕ}
    (ha : a ∈ PerfectTree.labels T) : a ∈ offsets n :=
  hT.labels.mem_iff.1 (List.mem_append_left _ ha)

/-- The root page lies in the file. -/
theorem root_mem_offsets {T : PageTree H} (hT : Kept t T loose free n) : t.hp.rpo ∈ offsets n :=
  hT.mem_offsets (hT.root ▸ label_mem_labels T)

/-- The copy of the root page, if it is up to date. -/
theorem page_root {T : PageTree H} (hT : Kept t T loose free n) (hc : Cached t) :
    t.rt = some (t.disk.pages (label T)) := by
  rw [hc, hT.laid.loadPage hT.root_mem_offsets, hT.root]

/-- The pages of a pair and those around it. -/
theorem labels_pair (hT : Kept t (c.plug ((g.insertAfter k B).fill A)) loose free n) :
    (PerfectTree.labels A ++ (PerfectTree.labels B ++
      ((Ctx.up g c).labels ++ (loose ++ free)))).Perm (offsets n) := by
  have hperm := (labels_plug c ((g.insertAfter k B).fill A)).trans
    (labels_fill_insertAfter g c A k B)
  have := (hperm.append_right (loose ++ free)).symm.trans hT.labels
  simpa only [List.append_assoc] using this

/-- The pages of both in one. -/
theorem merged (hT : Kept t (c.plug ((g.insertAfter k B).fill A)) loose free n) (hl : Laid t₁ n)
    (hhp : t₁.hp = t.hp)
    (hpages : ∀ a, a ∉ PerfectTree.labels A → a ∉ PerfectTree.labels B →
      t₁.disk.pages a = t.disk.pages a)
    (hrep : Rep t₁.disk.pages (some g.label) (merge A k B)) :
    Merged t₁ c g A k B loose free n ∧ (t₁.rt = t.rt → Cached t → Cached t₁) := by
  have hperm := hT.labels_pair
  obtain ⟨⟨-, -, hndup⟩, hA, hB, -⟩ := nodup_parts hperm
  have hsame : ∀ a ∈ (Ctx.up g c).labels ++ (loose ++ free),
      t₁.disk.pages a = t.disk.pages a := fun a ha =>
    hpages a (fun hmem => hA _ hmem _ (List.mem_append_right _ ha) rfl)
      fun hmem => hB _ hmem _ ha rfl
  obtain ⟨habove, haround, -, -⟩ := rep_pair_iff.1 hT.rep
  have hroot : t.hp.rpo = label (c.plug (g.fill A)) := by
    refine hT.root.trans (label_plug c ?_)
    rw [label, label, Frame.label_fill, Frame.label_fill, Frame.label_insertAfter]
  have hrootmem : t.hp.rpo ∈ (Ctx.up g c).labels := hroot ▸ label_plug_up g c A
  refine ⟨⟨hl, hhp ▸ hroot, hperm, ?_, ?_, hrep, ?_⟩, fun hrt hcached => ?_⟩
  · rwa [hsame _ (List.mem_append_left _ List.mem_cons_self)]
  · exact haround.congr hndup fun a ha _ => hsame a (List.mem_append_left _ ha)
  · rw [hhp]
    exact hT.freeList.congr fun a ha =>
      hsame a (List.mem_append_right _ (List.mem_append_right _ ha))
  · refine hcached.congr hT.laid hl (hperm.mem_iff.1 ?_) hrt (congrArg HeaderPage.rpo hhp)
      (hsame _ (List.mem_append_left _ hrootmem))
    exact List.mem_append_right _ (List.mem_append_right _ (List.mem_append_left _ hrootmem))

end Kept

end CourseProjects.BPlusTree
