import CourseProjects.BPlusTree.Edits
import CourseProjects.BPlusTree.Kept

/-!
# Merging pages

`coalesce_pages` puts the contents of two pages that follow each other in the
first (`Kept.coalesce`), takes the second out of the page above
(`Merged.removeEntry`) and gives it to the free list (`Kept.usetofree`). When the
page above is the root, it may be left without keys: `adjust_root` then makes its
only child the root (`Kept.adjustRoot_of_empty`).
-/

namespace CourseProjects.BPlusTree

open Slots Function PerfectTree

/-! ### Coalescing -/

theorem Rep.isLeaf {pages : ℕ → Page} {par : Option ℕ} {h : ℕ} {T : PageTree h}
    (hT : Rep pages par T) : (pages (label T)).isLeaf = decide (h = 0) := by
  cases h with
  | zero => exact Page.IsTip.isLeaf hT
  | succ h => exact Page.IsInner.isLeaf hT.1

theorem Rep.numOfKeys {pages : ℕ → Page} {par : Option ℕ} {h : ℕ} {T : PageTree h}
    (hT : Rep pages par T) : (pages (label T)).numOfKeys = entries T := by
  cases h with
  | zero => exact Page.IsTip.numOfKeys hT
  | succ h =>
    exact (Page.IsInner.numOfKeys hT.1).trans (List.length_map _)

namespace Kept

variable {t : Table} {h H n : ℕ}

/-- The leaves. -/
theorem coalesceLeaves {c : Ctx ℤ ℕ Leaf (0 + 1) H} {g : Frame ℤ ℕ (PageTree 0)}
    {A B : PageTree 0} {k : ℤ} {loose free : List ℕ}
    (hT : Kept t (c.plug ((g.insertAfter k B).fill A)) loose free n) :
    ∃ t₁, Merged t₁ c g A k B loose free n ∧ (Cached t → Cached t₁) ∧
      ∀ deleteEntry wbc idx nbor,
        (if idx = -2 then (wbc, nbor) else (nbor, wbc)) = (label A, label B) →
        Table.coalescePages deleteEntry t wbc idx nbor g.label k =
          deleteEntry t₁ k g.label >>= fun t => t.usetofree (label B) := by
  obtain ⟨-, -, hA, hB⟩ := rep_pair_iff.1 hT.rep
  have hAmem : label A ∈ offsets n :=
    hT.labels_pair.mem_iff.1 (List.mem_append_left _ (label_mem_labels A))
  have hBmem : label B ∈ offsets n := hT.labels_pair.mem_iff.1
    (List.mem_append_right _ (List.mem_append_left _ (label_mem_labels B)))
  have hpA : (t.disk.pages (label A)).IsTip (some g.label) (Tip.data A) := hA
  have hpB : (t.disk.pages (label B)).IsTip (some g.label) (Tip.data B) := hB
  let p := t.disk.pages (label A)
  let q := t.disk.pages (label B)
  let p' : Page := { p with
    records := blit p.records p.numOfKeys q.records 0 q.numOfKeys
    numOfKeys := p.numOfKeys + q.numOfKeys
    nextOffset := q.nextOffset }
  let t₁ := (t.log .coalescePages).pwritePage (label A) p'
  have hlog := hT.laid.log .coalescePages
  have hp' : p'.IsTip (some g.label) (Tip.data (merge A k B)) := hpA.append hpB
  have hrep : Rep t₁.disk.pages (some g.label) (merge A k B) := by
    change (t₁.disk.pages (label A)).IsTip _ _
    simpa [t₁] using hp'
  obtain ⟨hM, hcached⟩ := hT.merged (hlog.pwritePage hAmem p') rfl (fun a ha _ => by
    refine update_of_ne ?_ _ _
    rintro rfl
    exact ha (label_mem_labels A)) hrep
  refine ⟨t₁, hM, hcached rfl, ?_⟩
  · intro deleteEntry wbc idx nbor hidx
    rw [Table.coalescePages, hidx]
    dsimp only
    rw [hlog.page hBmem, ok_bind, hlog.page hAmem, ok_bind]
    have hleaf : ((t.log .coalescePages).disk.pages (label B)).isLeaf = true := hpB.isLeaf
    rw [hleaf]
    rfl

/-- The internal pages. -/
theorem coalesceInner {c : Ctx ℤ ℕ Leaf (h + 1 + 1) H} {g : Frame ℤ ℕ (PageTree (h + 1))}
    {A B : PageTree (h + 1)} {k : ℤ} {loose free : List ℕ}
    (hT : Kept t (c.plug ((g.insertAfter k B).fill A)) loose free n) :
    ∃ t₁, Merged t₁ c g A k B loose free n ∧ (Cached t → Cached t₁) ∧
      ∀ deleteEntry wbc idx nbor,
        (if idx = -2 then (wbc, nbor) else (nbor, wbc)) = (label A, label B) →
        Table.coalescePages deleteEntry t wbc idx nbor g.label k =
          deleteEntry t₁ k g.label >>= fun t => t.usetofree (label B) := by
  obtain ⟨-, -, ⟨hpA, hchA⟩, hpB, hchB⟩ := rep_pair_iff.1 hT.rep
  have hperm := hT.labels_pair
  obtain ⟨⟨hndA, hndB, -⟩, hdisj, -, -⟩ := nodup_parts hperm
  have hmemA : ∀ a ∈ PerfectTree.labels A, a ∈ offsets n := fun a ha =>
    hperm.mem_iff.1 (List.mem_append_left _ ha)
  have hmemB : ∀ a ∈ PerfectTree.labels B, a ∈ offsets n := fun a ha =>
    hperm.mem_iff.1 (List.mem_append_right _ (List.mem_append_left _ ha))
  have hAB : ∀ a ∈ PerfectTree.labels A, ∀ b ∈ PerfectTree.labels B, a ≠ b := fun a ha b hb =>
    hdisj a ha b (List.mem_append_left _ hb)
  have hkid : ∀ v ∈ Inner.children B, ∀ a ∈ PerfectTree.labels v, a ∈ PerfectTree.labels B :=
    fun v hv a ha => List.mem_cons_of_mem _ (List.mem_flatMap.2 ⟨v, hv, ha⟩)
  let p := t.disk.pages (label A)
  let q := t.disk.pages (label B)
  let p' : Page := { p with
    bF := blit (update p.bF p.numOfKeys ⟨k, q.nextOffset⟩) (p.numOfKeys + 1) q.bF 0 q.numOfKeys
    numOfKeys := p.numOfKeys + 1 + q.numOfKeys }
  have hp' : p'.IsInner (some g.label) ((Inner.append A k B).map label) := by
    rw [Inner.map_append]
    exact Page.IsInner.append hpA hpB k
  -- The children of `B` are those from the slot of the new separator on.
  have hkids : slots (fun i => (p'.bF (p.numOfKeys + i)).pOffset) (q.numOfKeys + 1) =
      (Inner.children B).map label := by
    have hnum : p'.numOfKeys = p.numOfKeys + (q.numOfKeys + 1) := by
      simp only [p']
      omega
    have hlen : p.numOfKeys = (Inner.rest A).length :=
      (Page.IsInner.numOfKeys hpA).trans (List.length_map _)
    rw [← drop_slots fun i => (p'.bF i).pOffset, ← hnum, ← map_slots InterRecord.pOffset, hp'.rest,
      hlen]
    simp [Inner.append, Inner.children, InterRecord.ofEntry, Function.comp_def]
  have hlog := hT.laid.log .coalescePages
  obtain ⟨t₂, hfold, hl₂, hhp₂, hrt₂, -, hpages₂⟩ := hlog.setParents
    (l := (Inner.children B).map label) (fun a ha => by
      obtain ⟨v, hv, rfl⟩ := List.mem_map.1 ha
      exact hmemB _ (hkid v hv _ (label_mem_labels v))) (label A)
  let t₁ := t₂.pwritePage (label A) p'
  have hpages : ∀ a, a ≠ label A → t₁.disk.pages a =
      if a ∈ (Inner.children B).map label then { t.disk.pages a with parentPageOffset := label A }
      else t.disk.pages a := by
    intro a ha
    simp only [t₁, Table.pages_pwritePage, update_of_ne ha, hpages₂]
    rfl
  have hA : label A ∈ PerfectTree.labels A := label_mem_labels A
  have hsame : ∀ a, a ∉ PerfectTree.labels A → a ∉ PerfectTree.labels B →
      t₁.disk.pages a = t.disk.pages a := by
    intro a ha hb
    rw [hpages a fun he => ha (he ▸ hA), if_neg]
    intro hmem
    obtain ⟨v, hv, rfl⟩ := List.mem_map.1 hmem
    exact hb (hkid v hv _ (label_mem_labels v))
  have hrep : Rep t₁.disk.pages (some g.label) (merge A k B) := by
    refine ⟨?_, ?_⟩
    · change (t₁.disk.pages (label A)).IsInner _ ((Inner.append A k B).map label)
      simpa [t₁] using hp'
    intro v hv
    have hv' : v ∈ (Inner.append A k B).children := hv
    rw [Inner.children_append, List.mem_append] at hv'
    change Rep t₁.disk.pages (some (label A)) v
    rcases hv' with hv | hv
    · -- A child of `A` stays as it is.
      refine Rep.congr (hchA v hv) fun a ha => ?_
      have haA : a ∈ PerfectTree.labels A :=
        List.mem_cons_of_mem _ (List.mem_flatMap.2 ⟨v, hv, ha⟩)
      rw [hpages a, if_neg]
      · intro hmem
        obtain ⟨w, hw, rfl⟩ := List.mem_map.1 hmem
        exact hAB _ haA _ (hkid w hw _ (label_mem_labels w)) rfl
      · rintro rfl
        exact (List.nodup_cons.1 hndA).1 (List.mem_flatMap.2 ⟨v, hv, ha⟩)
    · -- A child of `B` gets `A` as its parent.
      have hne : ∀ a ∈ PerfectTree.labels v, a ≠ label A := fun a ha he =>
        hAB _ hA _ (hkid v hv a ha) he.symm
      refine Rep.reparent (hchB v hv) ((List.nodup_flatMap.1 (List.nodup_cons.1 hndB).2).1 v hv) ?_
        fun a ha hroot => ?_
      · rw [hpages _ (hne _ (label_mem_labels v)), if_pos (List.mem_map_of_mem hv)]
      · rw [hpages a (hne a ha), if_neg]
        intro hmem
        obtain ⟨w, hw, rfl⟩ := List.mem_map.1 hmem
        exact hroot (congrArg label (children_eq_of_mem_labels hndB hw hv (label_mem_labels w) ha))
  obtain ⟨hM, hcached⟩ := hT.merged (hl₂.pwritePage (hmemA _ hA) p') hhp₂ hsame hrep
  refine ⟨t₁, hM, hcached hrt₂, ?_⟩
  · intro deleteEntry wbc idx nbor hidx
    have hleaf : ((t.log .coalescePages).disk.pages (label B)).isLeaf = false := hpB.isLeaf
    rw [Table.coalescePages, hidx]
    dsimp only
    rw [hlog.page (hmemB _ (label_mem_labels B)), ok_bind, hlog.page (hmemA _ hA), ok_bind, hleaf]
    have hfold' : (slots (fun i => (p'.bF (p.numOfKeys + i)).pOffset) (q.numOfKeys + 1)).foldlM
        (Table.setParent (label A)) (t.log .coalescePages) = .ok t₂ := by
      rw [hkids]
      exact hfold
    exact congrArg (· >>= fun t₂ => deleteEntry (t₂.pwritePage (label A) p') k g.label >>= fun t =>
      t.usetofree (label B)) hfold'

end Kept

namespace Kept

variable {t : Table} {h H n : ℕ} {loose free : List ℕ} {c : Ctx ℤ ℕ Leaf (h + 1) H}
  {g : Frame ℤ ℕ (PageTree h)} {A B : PageTree h} {k : ℤ}

/-- `coalesce_pages` puts the contents of both pages of a pair in the first. -/
theorem coalesce (hT : Kept t (c.plug ((g.insertAfter k B).fill A)) loose free n) :
    ∃ t₁, Merged t₁ c g A k B loose free n ∧ (Cached t → Cached t₁) ∧
      ∀ deleteEntry wbc idx nbor,
        (if idx = -2 then (wbc, nbor) else (nbor, wbc)) = (label A, label B) →
        Table.coalescePages deleteEntry t wbc idx nbor g.label k =
          deleteEntry t₁ k g.label >>= fun t => t.usetofree (label B) := by
  cases h with
  | zero => exact hT.coalesceLeaves
  | succ h => exact hT.coalesceInner

end Kept

/-- The page with parent `0` is that of a root. -/
theorem Rep.unroot {pages : ℕ → Page} {h : ℕ} {T : PageTree h} (hT : Rep pages (some 0) T) :
    Rep pages none T := by
  cases h with
  | zero =>
    obtain ⟨hl, hp, hr, hn⟩ : (pages (label T)).IsTip (some 0) (Tip.data T) := hT
    exact ⟨hl, hp, hr, hn⟩
  | succ h =>
    obtain ⟨⟨hl, hp, hf, hr⟩, hch⟩ := hT
    exact ⟨⟨hl, hp, hf, hr⟩, hch⟩

namespace Merged

variable {t : Table} {h H n : ℕ} {c : Ctx ℤ ℕ Leaf (h + 1) H} {g : Frame ℤ ℕ (PageTree h)}
  {A B : PageTree h} {k : ℤ} {loose free : List ℕ}

/-- The page above without the second page of the pair. -/
theorem kept {t' : Table} {p' : Page} (hM : Merged t c g A k B loose free n) (hl : Laid t' n)
    (hhp : t'.hp = t.hp) (hpages : t'.disk.pages = update t.disk.pages g.label p')
    (hp' : p'.IsInner c.parent ((g.map label).fill (label A))) :
    Kept t' (c.plug (g.fill (merge A k B))) (label B :: loose) free n := by
  obtain ⟨⟨-, -, hnd⟩, hA, hB, hfree⟩ := nodup_parts hM.labels
  have hg : g.label ∈ (Ctx.up g c).labels := List.mem_cons_self
  -- Only the page above changes, which is in neither tree nor in the free list.
  have hother : ∀ a, a ≠ g.label → t'.disk.pages a = t.disk.pages a := fun a ha => by
    rw [hpages, update_of_ne ha]
  have hne : ∀ a ∈ PerfectTree.labels (merge A k B), a ≠ g.label := by
    intro a ha
    have hAB := (labels_merge (A := A) (B := B) (k := k)).mem_iff.2 (List.mem_cons_of_mem _ ha)
    rcases List.mem_append.1 hAB with hmem | hmem
    · exact hA a hmem _ (List.mem_append_right _ (List.mem_append_left _ hg))
    · exact hB a hmem _ (List.mem_append_left _ hg)
  refine ⟨hl, ?_, ?_, rep_fill_iff.2 ⟨?_, ?_, ?_⟩, ?_⟩
  · rw [hhp, hM.root]
    refine label_plug c ?_
    rw [label, label, Frame.label_fill, Frame.label_fill]
  · rw [List.perm_iff_count]
    intro a
    have h₁ := (labels_plug (Ctx.up g c) (merge A k B)).count_eq a
    have h₂ := (labels_merge (A := A) (B := B) (k := k)).count_eq a
    have h₃ := hM.labels.count_eq a
    simp only [Ctx.plug, List.count_append, List.count_cons] at h₁ h₂ h₃ ⊢
    omega
  · rw [label_merge, hpages, update_self]
    exact hp'
  · exact hM.around.congr hnd fun a _ ha => hother a ha
  · exact hM.rep.congr fun a ha => hother a (hne a ha)
  · rw [hhp]
    exact hM.freeList.congr fun a ha =>
      hother a (hfree _ hg a (List.mem_append_right _ ha)).symm

/-- `remove_entry_from_page` takes the second page out of the page above. -/
theorem removeEntry (hM : Merged t c g A k B loose free n) (hk : ∀ e ∈ g.before A, e.1 < k)
    (hlen : g.left.length + g.right.length < interSlots) (hcached : Cached t) :
    ∃ t', t.removeEntryFromPage k g.label = .ok t' ∧
      Kept t' (c.plug (g.fill (merge A k B))) (label B :: loose) free n ∧ Cached t' := by
  have hup : ∀ a ∈ (Ctx.up g c).labels, a ∈ offsets n := fun a ha => hM.labels.mem_iff.1
    (List.mem_append_right _ (List.mem_append_right _ (List.mem_append_left _ ha)))
  have hg : g.label ∈ offsets n := hup _ List.mem_cons_self
  have hroot : t.hp.rpo ∈ offsets n := hup _ (hM.root ▸ label_plug_up g c A)
  let p := t.disk.pages g.label
  have hnum : p.numOfKeys ≤ interSlots := by
    have h₁ : p.numOfKeys = _ := hM.above.numOfKeys
    have h₂ := entries_fill (f := g.insertAfter k B) (X := A)
    rw [← Frame.map_insertAfter, ← Frame.map_fill, Inner.rest_map, List.length_map] at h₁
    simp only [entries, Frame.left_insertAfter, Frame.right_insertAfter, List.length_cons] at h₂
    omega
  have hk' : ∀ e ∈ (g.map label).before (label A), e.1 < k := by
    rw [Frame.before_map]
    intro e he
    obtain ⟨e', he', rfl⟩ := List.mem_map.1 he
    exact hk e' he'
  obtain ⟨hscan, hp'⟩ := hM.above.eraseEntry hk' hnum
  let p' : Page := { p with
    bF := shiftDown p.bF (g.map label).index p.numOfKeys
    numOfKeys := p.numOfKeys - 1 }
  let t₁ := t.pwritePage g.label p'
  have hl₁ : Laid t₁ n := hM.laid.pwritePage hg p'
  have hremove : t.removeEntryFromPage k g.label =
      .ok (if g.label = t₁.hp.rpo then { t₁ with rt := t₁.loadPage g.label } else t₁) := by
    have hleaf : ¬ (t.disk.pages g.label).isLeaf = true := by
      rw [hM.above.isLeaf]
      exact Bool.false_ne_true
    have hlt : (g.map label).index ≠ interSlots := (hM.above.bF_index.1.trans_le hnum).ne
    rw [Table.removeEntryFromPage, hM.laid.page hg, ok_bind, if_neg hleaf]
    dsimp only
    rw [hscan, if_neg hlt]
    rfl
  -- The copy of the root page is read again if it is the page above.
  by_cases heq : g.label = t₁.hp.rpo
  · rw [if_pos heq] at hremove
    refine ⟨_, hremove, hM.kept (hl₁.setRt _) rfl rfl hp', ?_⟩
    rw [Cached, heq]
    rfl
  · rw [if_neg heq] at hremove
    refine ⟨_, hremove, hM.kept hl₁ rfl rfl hp', hcached.congr hM.laid hl₁ hroot rfl rfl ?_⟩
    exact update_of_ne (Ne.symm heq) _ _

end Merged

namespace Kept

variable {t : Table} {h H n : ℕ} {loose free : List ℕ}

/-- `usetofree` puts a loose page in front of the free list. -/
theorem usetofree {T : PageTree H} {a : ℕ} (hT : Kept t T (a :: loose) free n) :
    ∃ t', t.usetofree a = .ok t' ∧ Kept t' T loose (a :: free) n ∧ (Cached t' ↔ Cached t) := by
  have hnd := hT.labels.nodup_iff.2 (offsets_nodup n)
  obtain ⟨-, hndl, hdisj⟩ := List.nodup_append.1 hnd
  have ha : a ∈ offsets n := hT.labels.mem_iff.1 (List.mem_append_right _ List.mem_cons_self)
  have hloose : a ∉ loose ++ free := (List.nodup_cons.1 hndl).1
  have hne : ∀ b ∈ PerfectTree.labels T, b ≠ a := fun b hb => hdisj b hb a List.mem_cons_self
  obtain ⟨t', ht', hl', hhp, hrt, hpages⟩ := hT.laid.usetofree ha
  have hother : ∀ b, b ≠ a → t'.disk.pages b = t.disk.pages b := fun b hb => by
    rw [hpages, update_of_ne hb]
  have hroot : t'.hp.rpo = t.hp.rpo := by rw [hhp]
  refine ⟨t', ht', ⟨hl', hroot.trans hT.root, ?_, hT.rep.congr fun b hb => hother b (hne b hb), ?_⟩,
    ?_⟩
  · have hperm : (loose ++ a :: free).Perm (a :: (loose ++ free)) := List.perm_middle
    exact (hperm.append_left _).trans hT.labels
  · refine ⟨by rw [hhp], ?_⟩
    rw [hpages, update_self]
    exact hT.freeList.update (fun hmem => hloose (List.mem_append_right _ hmem)) _
  · have hp := hother t.hp.rpo (hT.root ▸ hne _ (label_mem_labels T))
    exact ⟨fun h => h.congr hl' hT.laid (hroot ▸ hT.root_mem_offsets) hrt.symm hroot.symm
      (hroot ▸ hp.symm), fun h => h.congr hT.laid hl' hT.root_mem_offsets hrt hroot hp⟩

/-- `adjust_root` keeps a root with keys. -/
theorem adjustRoot_of_pos {T : PageTree H} (hT : Kept t T loose free n) (hc : Cached t)
    (hpos : 0 < entries T) : t.adjustRoot = .ok t := by
  rw [Table.adjustRoot, hT.page_root hc]
  exact if_pos (hT.rep.numOfKeys ▸ hpos)

/-- `adjust_root` replaces a root without keys by its only child. -/
theorem adjustRoot_of_empty {N : Inner ℤ ℕ (PageTree h)}
    (hT : Kept (H := h + 1) t N loose free n) (hc : Cached t) (hN : N.rest = []) :
    ∃ t', t.adjustRoot = .ok t' ∧ Kept t' N.first loose (N.label :: free) n ∧ Cached t' := by
  obtain ⟨a, T, r⟩ := N
  obtain rfl : r = [] := hN
  obtain ⟨hn, hch⟩ := hT.rep
  have hn : (t.disk.pages a).IsInner none ⟨a, label T, []⟩ := hn
  have hT' : Rep t.disk.pages (some a) T := hch T (by simp [Inner.children])
  have hlabels : PerfectTree.labels (h := h + 1) (⟨a, T, []⟩ : Inner ℤ ℕ (PageTree h)) =
      a :: PerfectTree.labels T := by
    simp [PerfectTree.labels, Inner.children]
  have hperm := hT.labels
  rw [hlabels] at hperm
  have hnd := hperm.nodup_iff.2 (offsets_nodup n)
  obtain ⟨ha, hnd'⟩ := List.nodup_cons.1 hnd
  obtain ⟨hndT, -, hdisj⟩ := List.nodup_append.1 hnd'
  have hlT : label T ∈ PerfectTree.labels T := label_mem_labels T
  have hne : label T ≠ a := by
    rintro rfl
    exact ha (List.mem_append_left _ hlT)
  have hmem : a ∈ offsets n := hperm.mem_iff.1 List.mem_cons_self
  have hTmem : label T ∈ offsets n :=
    hperm.mem_iff.1 (List.mem_cons_of_mem _ (List.mem_append_left _ hlT))
  have hroot : t.hp.rpo = a := hT.root
  -- The old root goes to the free list, and the child loses its parent.
  obtain ⟨t₁, ht₁, hl₁, hhp, -, hpages⟩ := (hT.laid.log .adjustRoot).usetofree hmem
  let t₂ := { t₁ with hp := { t₁.hp with rpo := label T } }.syncHeader
  let t₃ := t₂.pwritePage (label T) { t.disk.pages (label T) with parentPageOffset := 0 }
  have hl₃ : Laid t₃ n := (hl₁.setRoot (label T) t₁.rt).pwritePage hTmem _
  have hpT : t₃.disk.pages (label T) =
      { t.disk.pages (label T) with parentPageOffset := 0 } := update_self _ _ _
  have hpages₃ : ∀ b, b ≠ label T → t₃.disk.pages b =
      update t.disk.pages a ((t.disk.pages a).freed t.hp.fpo) b := by
    intro b hb
    refine (update_of_ne hb _ _).trans ?_
    change t₁.disk.pages b = _
    rw [hpages]
    rfl
  have hfpo : t₃.hp.fpo = a := congrArg HeaderPage.fpo hhp
  refine ⟨{ t₃ with rt := t₃.loadPage (label T) }, ?_, ⟨hl₃.setRt _, rfl, ?_, ?_, ?_⟩, rfl⟩
  · have hpage : t.rt = some (t.disk.pages a) := hT.page_root hc
    have hnum : (t.disk.pages a).numOfKeys = 0 := hn.numOfKeys
    have hnext : (t.disk.pages a).nextOffset = label T := hn.first
    rw [Table.adjustRoot, hpage]
    simp only [hnum, hn.isLeaf, hnext, Nat.lt_irrefl, if_false, Bool.not_false, if_true]
    rw [hT.laid.page hTmem, ok_bind, hroot, ht₁]
    rfl
  · refine List.Perm.trans ?_ hperm
    rw [List.perm_iff_count]
    intro b
    simp only [List.count_append, List.count_cons]
    omega
  · refine Rep.unroot (Rep.reparent hT' hndT hpT fun b hb hbT => ?_)
    have hba : b ≠ a := by
      rintro rfl
      exact ha (List.mem_append_left _ hb)
    change t₃.disk.pages b = _
    rw [hpages₃ b hbT, update_of_ne hba]
  · refine ⟨hfpo, ?_⟩
    change FreeList t₃.disk.pages (t₃.disk.pages a).parentPageOffset free
    rw [hpages₃ a hne.symm, update_self]
    have hfree : FreeList t₃.disk.pages t.hp.fpo free := by
      refine hT.freeList.congr fun b hb => ?_
      have hbT : b ≠ label T := fun he =>
        hdisj _ hlT b (List.mem_append_right _ hb) he.symm
      have hba : b ≠ a := by
        rintro rfl
        exact ha (List.mem_append_right _ (List.mem_append_right _ hb))
      rw [hpages₃ b hbT, update_of_ne hba]
    exact hfree

end Kept

end CourseProjects.BPlusTree
