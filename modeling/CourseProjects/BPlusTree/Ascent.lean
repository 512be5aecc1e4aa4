import CourseProjects.BPlusTree.Rep

/-!
# The way up from a split

After a split, the tree in the file has a page too many: it stands nowhere below
its parent yet, and has to be put, with a separator, right after the page that
was split (`Pending`). `insert_into_parent` does so, on the page itself or by
splitting it too, up to a new root: the table then stores the tree that
`insertUp` gives (`insertIntoParent_pending`).
-/

namespace CourseProjects.BPlusTree

open Slots Function PerfectTree

/-! ### The page above -/

namespace Page.IsInner

variable {p : Page} {par : Option ℕ} {g : Frame ℤ ℕ ℕ} {a : ℕ}

/-- `get_left_index` finds the page in its parent. -/
theorem leftIndex (hp : p.IsInner par (g.fill a)) (ha : a ∉ g.left) :
    (if a = p.nextOffset then (pure (-1) : Except Fault ℤ)
      else
        let i := scan (fun i => (p.bF i).pOffset = a) p.numOfKeys
        if i = p.numOfKeys then pure (-10) else pure (i : ℤ)) = .ok ((g.index : ℤ) - 1) := by
  cases g with
  | first b after =>
    exact if_pos hp.first.symm
  | later b m before k after =>
    simp only [Frame.left, List.mem_cons, List.mem_map, not_or, not_exists, not_and] at ha
    have hlt : before.length < p.numOfKeys := by
      rw [hp.numOfKeys]
      simp [Frame.fill]
    -- The search passes the entries before the hole and stops at the hole.
    have hscan : scan (fun i => (p.bF i).pOffset = a) p.numOfKeys = before.length := by
      refine scan_eq hlt ?_ fun j hj => ?_
      · rw [hp.bF (by simp [Frame.fill])]
        simp [InterRecord.ofEntry, Frame.fill]
      · rw [hp.bF (by simp [Frame.fill]; omega)]
        simpa [InterRecord.ofEntry, Frame.fill, hj] using ha.2 _ (List.getElem_mem hj)
    have hfirst : p.nextOffset = m := hp.first
    rw [if_neg (by rw [hfirst]; exact ha.1)]
    dsimp only
    rw [hscan, if_neg hlt.ne]
    simp [Frame.index]

/-- The entries of the page with one more, after the hole. -/
theorem rest_insertAfter (hp : p.IsInner par (g.fill a)) (k : ℤ) (b : ℕ) :
    (slots p.bF p.numOfKeys).insertIdx g.index ⟨k, b⟩ =
      ((g.insertAfter k b).fill a).rest.map .ofEntry := by
  rw [Frame.rest_fill_insertAfter, List.map_insertIdx, hp.rest]
  rfl

theorem index_le (hp : p.IsInner par (g.fill a)) : g.index ≤ p.numOfKeys := by
  rw [hp.numOfKeys]
  exact g.index_le a

/-- `insert_into_internal` puts an entry after the hole. -/
theorem insertAfter (hp : p.IsInner par (g.fill a)) (k : ℤ) (b : ℕ) :
    Page.IsInner { p with
      bF := update (shiftUp p.bF g.index p.numOfKeys) g.index ⟨k, b⟩
      numOfKeys := p.numOfKeys + 1 } par ((g.insertAfter k b).fill a) where
  isLeaf := hp.isLeaf
  parent := hp.parent
  first := by rw [Frame.first_fill_insertAfter, ← hp.first]
  rest := by rw [slots_shiftUp p.bF hp.index_le, hp.rest_insertAfter]

/-- The array in which `insert_into_internal_as` gathers the entries. -/
theorem slots_temp (hp : p.IsInner par (g.fill a)) (k : ℤ) (b : ℕ) :
    slots (update (spread p.bF g.index p.numOfKeys fun _ => .zero) g.index ⟨k, b⟩)
        (p.numOfKeys + 1) = ((g.insertAfter k b).fill a).rest.map .ofEntry := by
  rw [slots_spread p.bF hp.index_le, hp.rest_insertAfter]

end Page.IsInner

theorem Table.slotAfter_index (i : ℕ) : Table.slotAfter ((i : ℤ) - 1) = .ok i := by
  rw [Table.slotAfter, if_pos (by omega)]
  simp

/-! ### The halves of a split page -/

section Halves

variable {temp : ℕ → InterRecord} {N : Inner ℤ ℕ ℕ} {k' : ℤ} {b : ℕ} {r : List (ℤ × ℕ)}

/-- The entry between the halves goes up. -/
theorem temp_cut (ht : slots temp (internalMax + 1) = N.rest.map .ofEntry)
    (hd : N.rest.drop (cut internalMax) = (k', b) :: r) :
    temp (cut internalMax) = ⟨k', b⟩ := by
  have hlt : cut internalMax < (N.rest.map InterRecord.ofEntry).length := by
    rw [← ht, length_slots]
    decide
  rw [(slots_eq_iff.1 ht).2 _ hlt, List.getElem_map]
  rw [List.length_map] at hlt
  rw [List.drop_eq_getElem_cons hlt, List.cons.injEq] at hd
  rw [hd.1]
  rfl

/-- The left half. -/
theorem Page.IsInner.takeHalf {p : Page} {par : Option ℕ} {g : Frame ℤ ℕ ℕ} {a : ℕ}
    (hp : p.IsInner par (g.fill a)) (hfirst : (g.fill a).first = N.first)
    (ht : slots temp (internalMax + 1) = N.rest.map .ofEntry) :
    Page.IsInner { p with
      bF := blit p.bF 0 temp 0 (cut internalMax)
      numOfKeys := cut internalMax } par ⟨N.label, N.first, N.rest.take (cut internalMax)⟩ where
  isLeaf := hp.isLeaf
  parent := hp.parent
  first := by rw [← hfirst, ← hp.first]
  rest := by
    have hle : cut internalMax ≤ internalMax + 1 := by decide
    rw [slots_blit_take _ _ hle, ht, List.map_take]

/-- The right half, on a cleared page. -/
theorem Page.IsInner.dropHalf {p : Page} {par : Option ℕ} (hp : p.parentPageOffset = par.getD 0)
    (s : ℕ) (ht : slots temp (internalMax + 1) = N.rest.map .ofEntry)
    (hd : N.rest.drop (cut internalMax) = (k', b) :: r) :
    Page.IsInner { Page.zero with
      nextOffset := (temp (cut internalMax)).pOffset
      bF := blit Page.zero.bF 0 temp (cut internalMax + 1)
        (internalMax + 1 - (cut internalMax + 1))
      numOfKeys := Page.zero.numOfKeys + (internalMax + 1 - (cut internalMax + 1))
      parentPageOffset := p.parentPageOffset } par ⟨s, b, r⟩ where
  isLeaf := rfl
  parent := hp
  first := by rw [temp_cut ht hd]
  rest := by
    have hr : N.rest.drop (cut internalMax + 1) = r := by
      rw [← List.drop_drop, hd, List.drop_one, List.tail_cons]
    simp only [Page.zero, Nat.zero_add]
    rw [slots_blit_drop, ht, ← List.map_drop, hr]

end Halves

/-! ### A page waiting for its place -/

/-- In the middle of an insertion: the page of `u` is still to be put after that
    of `l`, which fills the hole of `c`. -/
structure Pending (t : Table) (n : ℕ) {h H : ℕ} (c : Ctx ℤ ℕ Leaf h H) (l u : PageTree h) :
    Prop where
  sound : Sound t n
  rooted : Rooted t
  root : t.hp.rpo = label (c.plug l)
  labels : (labels l ++ (labels u ++ c.labels)).Perm (offsets n)
  ctx : RepCtx t.disk.pages c (label l)
  left : Rep t.disk.pages c.parent l
  right : Rep t.disk.pages c.parent u

/-- The page of a tree, whatever its height, has its parent. -/
theorem Rep.parent {pages : ℕ → Page} {h : ℕ} {par : Option ℕ} {t : PageTree h}
    (ht : Rep pages par t) : (pages (label t)).parentPageOffset = par.getD 0 := by
  cases h with
  | zero => exact Page.IsTip.parent ht
  | succ h => exact Page.IsInner.parent ht.1

/-- The halves `n` and `n'` of a split page are represented once the children of
    the right half have it as their parent. -/
theorem Rep.halves {pages pages' : ℕ → Page} {par : Option ℕ} {h : ℕ}
    {n n' : Inner ℤ ℕ (PageTree h)}
    (hnd : (labels (h := h + 1) n ++ labels (h := h + 1) n').Nodup)
    (hn : (pages' n.label).IsInner par (n.map label))
    (hn' : (pages' n'.label).IsInner par (n'.map label))
    (hch : ∀ v ∈ n.children ++ n'.children, Rep pages (some n.label) v)
    (hmoved : ∀ v ∈ n'.children,
      pages' (label v) = { pages (label v) with parentPageOffset := n'.label })
    (hkept : ∀ a ∈ labels (h := h + 1) n ++ labels (h := h + 1) n', a ≠ n.label → a ≠ n'.label →
      (∀ v ∈ n'.children, a ≠ label v) → pages' a = pages a) :
    Rep pages' par (h := h + 1) n ∧ Rep pages' par (h := h + 1) n' := by
  obtain ⟨hndn, hndn', hdisj⟩ := List.nodup_append.1 hnd
  have hmem : ∀ {n : Inner ℤ ℕ (PageTree h)} {v : PageTree h} {a : ℕ}, v ∈ n.children →
      a ∈ labels v → a ∈ labels (h := h + 1) n :=
    fun hv ha => List.mem_cons_of_mem _ (List.mem_flatMap.2 ⟨_, hv, ha⟩)
  refine ⟨⟨hn, fun v hv => ?_⟩, ⟨hn', fun v hv => ?_⟩⟩
  · refine (hch v (List.mem_append_left _ hv)).congr fun a ha => ?_
    refine hkept a (List.mem_append_left _ (hmem hv ha)) ?_ ?_ fun w hw => ?_
    · rintro rfl
      exact (List.nodup_cons.1 hndn).1 (List.mem_flatMap.2 ⟨v, hv, ha⟩)
    · exact hdisj _ (hmem hv ha) _ List.mem_cons_self
    · exact hdisj _ (hmem hv ha) _ (hmem hw (label_mem_labels w))
  · have hndv : (labels v).Nodup := (List.nodup_flatMap.1 (List.nodup_cons.1 hndn').2).1 v hv
    refine (hch v (List.mem_append_right _ hv)).reparent hndv (hmoved v hv) fun a ha hne => ?_
    refine hkept a (List.mem_append_right _ (hmem hv ha)) ?_ ?_ fun w hw => ?_
    · exact (hdisj _ List.mem_cons_self _ (hmem hv ha)).symm
    · rintro rfl
      exact (List.nodup_cons.1 hndn').1 (List.mem_flatMap.2 ⟨v, hv, ha⟩)
    · -- A label shared with another child would make it the same child.
      rintro rfl
      exact hne (congrArg label (children_eq_of_mem_labels hndn' hw hv (label_mem_labels w) ha))

namespace Pending

variable {t : Table} {n h H : ℕ}

section

variable {c : Ctx ℤ ℕ Leaf h H} {l u : PageTree h}

theorem mem_offsets (hp : Pending t n c l u) {a : ℕ}
    (ha : a ∈ PerfectTree.labels l ∨ a ∈ PerfectTree.labels u ∨ a ∈ c.labels) : a ∈ offsets n :=
  hp.labels.mem_iff.1 (by simpa using ha)

theorem nodup (hp : Pending t n c l u) :
    (PerfectTree.labels l ++ (PerfectTree.labels u ++ c.labels)).Nodup :=
  hp.labels.nodup_iff.2 (offsets_nodup n)

theorem label_left_mem (hp : Pending t n c l u) : label l ∈ offsets n :=
  hp.mem_offsets (.inl (label_mem_labels l))

theorem label_right_mem (hp : Pending t n c l u) : label u ∈ offsets n :=
  hp.mem_offsets (.inr (.inl (label_mem_labels u)))

end

/-- At the root, `insert_into_new_root` adds a level. -/
theorem newRoot {l u : PageTree h} (hp : Pending t n .root l u) (k : ℤ) :
    ∃ t', t.insertIntoNewRoot (label l) k (label u) = .ok t' ∧
      Stored t' (h := h + 1) (⟨pageOffset n, l, [(k, u)]⟩ : Inner ℤ ℕ (PageTree h)) := by
  obtain ⟨t₁, hnew, hs, hpages, hrpo, hrt⟩ := hp.sound.newPage
  have hnd := hp.nodup
  simp only [Ctx.labels, List.append_nil] at hnd
  obtain ⟨hndl, hndu, hdisj⟩ := List.nodup_append.1 hnd
  have hfresh : ∀ a, a ∈ offsets n → a ≠ pageOffset n :=
    fun a ha he => not_mem_offsets n (he ▸ ha)
  have hl := hfresh _ hp.label_left_mem
  have hu := hfresh _ hp.label_right_mem
  have hlu : label u ≠ label l :=
    (hdisj _ (label_mem_labels l) _ (label_mem_labels u)).symm
  have hmem : ∀ a ∈ offsets n, a ∈ offsets (n + 1) := by
    intro a ha
    rw [offsets_succ]
    exact List.mem_append_left _ ha
  have hroot : pageOffset n ∈ offsets (n + 1) := by simp [offsets_succ]
  -- The pages after the three writes.
  let nr : Page := { (t₁.disk.pages (pageOffset n)) with
    bF := update (t₁.disk.pages (pageOffset n)).bF 0 ⟨k, label u⟩
    nextOffset := label l
    numOfKeys := (t₁.disk.pages (pageOffset n)).numOfKeys + 1 }
  let t₂ := ((t₁.pwritePage (pageOffset n) nr).pwritePage (label l)
    { t₁.disk.pages (label l) with parentPageOffset := pageOffset n }).pwritePage (label u)
    { t₁.disk.pages (label u) with parentPageOffset := pageOffset n }
  have hs₂ : Sound t₂ (n + 1) :=
    ((hs.pwritePage hroot nr).pwritePage (hmem _ hp.label_left_mem) _).pwritePage
      (hmem _ hp.label_right_mem) _
  have hnr : t₂.disk.pages (pageOffset n) = nr := by
    simp [t₂, hl.symm, hu.symm]
  have hpl : t₂.disk.pages (label l) =
      { t.disk.pages (label l) with parentPageOffset := pageOffset n } := by
    simp [t₂, hlu.symm, hpages, hl]
  have hpu : t₂.disk.pages (label u) =
      { t.disk.pages (label u) with parentPageOffset := pageOffset n } := by
    simp [t₂, hpages, hu]
  have hother : ∀ a ∈ offsets n, a ≠ label l → a ≠ label u →
      t₂.disk.pages a = t.disk.pages a := by
    intro a ha hal hau
    simp [t₂, hpages, hal, hau, hfresh a ha]
  refine ⟨{ t₂ with rt := t₂.loadPage (pageOffset n),
                    hp := { t₂.hp with rpo := pageOffset n } }.syncHeader, ?_,
    Stored.of_perm ⟨?_, ?_⟩ rfl ?_ (hs₂.setRoot _ _) ?_⟩
  · rw [Table.insertIntoNewRoot, hnew, ok_bind]
    dsimp only
    rw [hs.page hroot, ok_bind, hs.page (hmem _ hp.label_left_mem), ok_bind,
      hs.page (hmem _ hp.label_right_mem), ok_bind]
    rfl
  · change (t₂.disk.pages (pageOffset n)).IsInner none _
    rw [hnr]
    refine ⟨?_, ?_, rfl, ?_⟩ <;> simp [nr, hpages, Page.zero, slots, InterRecord.ofEntry]
  · intro v hv
    change Rep t₂.disk.pages (some (pageOffset n)) v
    simp only [Inner.children, List.map_cons, List.map_nil, List.mem_cons, List.not_mem_nil,
      or_false] at hv
    rcases hv with rfl | rfl
    · refine Rep.reparent hp.left hndl hpl fun a ha hne => ?_
      refine hother a (hp.mem_offsets (.inl ha)) hne ?_
      exact hdisj _ ha _ (label_mem_labels u)
    · refine Rep.reparent hp.right hndu hpu fun a ha hne => ?_
      refine hother a (hp.mem_offsets (.inr (.inl ha))) ?_ hne
      exact (hdisj _ (label_mem_labels l) _ ha).symm
  · have hperm := hp.labels
    simp only [Ctx.labels, List.append_nil] at hperm
    rw [offsets_succ, PerfectTree.labels]
    simp only [Inner.children, List.map_cons, List.map_nil, List.flatMap_cons, List.flatMap_nil,
      List.append_nil]
    exact (List.Perm.cons _ hperm).trans (List.perm_append_singleton _ _).symm
  · refine ⟨nr, ?_, Nat.succ_pos _⟩
    change t₂.loadPage (pageOffset n) = some nr
    rw [hs₂.loadPage hroot, hnr]

section

variable {f : Frame ℤ ℕ (PageTree h)} {c : Ctx ℤ ℕ Leaf (h + 1) H} {l u : PageTree h}

/-- The labels of the page above, with the new child, and around it. -/
theorem labels_up (hp : Pending t n (.up f c) l u) (k : ℤ) :
    (PerfectTree.labels (h := h + 1) ((f.insertAfter k u).fill l) ++ c.labels).Perm (offsets n) :=
  (labels_fill_insertAfter f c l k u).trans hp.labels

/-- The page above. -/
theorem above (hp : Pending t n (.up f c) l u) :
    (t.disk.pages f.label).IsInner c.parent ((f.map label).fill (label l)) := by
  have hn : (t.disk.pages ((f.map label).fill (label l)).label).IsInner c.parent
      ((f.map label).fill (label l)) := hp.ctx.1
  rwa [Frame.label_fill, Frame.label_map] at hn

theorem above_mem (hp : Pending t n (.up f c) l u) : f.label ∈ offsets n :=
  hp.mem_offsets (.inr (.inr List.mem_cons_self))

/-- The children of the page above, with the new one. -/
theorem children (hp : Pending t n (.up f c) l u) {k : ℤ} {v : PageTree h}
    (hv : v ∈ ((f.insertAfter k u).fill l).children) : Rep t.disk.pages (some f.label) v := by
  have hs := hp.ctx.2.1
  rw [Frame.children_fill, Frame.left_insertAfter, Frame.right_insertAfter] at hv
  simp only [List.mem_append, List.mem_cons] at hv hs
  rcases hv with hv | rfl | rfl | hv
  exacts [hs v (.inl hv), hp.left, hp.right, hs v (.inr hv)]

/-- The children before the hole have other labels. -/
theorem label_not_mem_left (hp : Pending t n (.up f c) l u) :
    label l ∉ (f.map label).left := by
  rw [Frame.left_map, List.mem_map]
  rintro ⟨v, hv, hvl⟩
  refine (List.nodup_append.1 hp.nodup).2.2 _ (label_mem_labels l) (label v) ?_ hvl.symm
  refine List.mem_append_right _ (List.mem_cons_of_mem _ (List.mem_append_left _
    (List.mem_append_left _ (List.mem_flatMap.2 ⟨v, hv, label_mem_labels v⟩))))

theorem getLeftIndex (hp : Pending t n (.up f c) l u) :
    t.getLeftIndex (label l) = .ok ((f.index : ℤ) - 1) := by
  have hpar : (t.disk.pages (label l)).parentPageOffset = f.label := hp.left.parent
  rw [Table.getLeftIndex, hp.sound.page hp.label_left_mem, ok_bind, hpar,
    hp.sound.page hp.above_mem, ok_bind, ← Frame.index_map label f]
  exact hp.above.leftIndex hp.label_not_mem_left

/-- A page with room, in `insert_into_internal`, takes the entry. -/
theorem fits (hp : Pending t n (.up f c) l u) (k : ℤ) :
    ∃ t', t.insertIntoInternal f.label ((f.index : ℤ) - 1) k (label u) = .ok t' ∧
      Stored t' (c.plug ((f.insertAfter k u).fill l)) := by
  have hnd := (hp.labels_up k).nodup_iff.2 (offsets_nodup n)
  obtain ⟨hndn, -, hdisj⟩ := List.nodup_append.1 hnd
  rw [PerfectTree.labels, Frame.label_fill, Frame.label_insertAfter, List.nodup_cons] at hndn
  -- The table after the write of the page above.
  let p := t.disk.pages f.label
  let p' : Page := { p with
    bF := update (shiftUp p.bF f.index p.numOfKeys) f.index ⟨k, label u⟩
    numOfKeys := p.numOfKeys + 1 }
  let t₁ := t.pwritePage f.label p'
  have hs₁ : Sound t₁ n := hp.sound.pwritePage hp.above_mem p'
  have hrep : Rep t₁.disk.pages none (c.plug ((f.insertAfter k u).fill l)) := by
    refine rep_plug.2 ⟨?_, ?_, fun v hv => ?_⟩
    · have hl : label (h := h + 1) ((f.insertAfter k u).fill l) = f.label := by
        rw [label, Frame.label_fill, Frame.label_insertAfter]
      rw [hl]
      refine RepCtx.congr hp.ctx.2.2 fun a ha => update_of_ne ?_ _ _
      rintro rfl
      refine hdisj _ ?_ _ ha rfl
      exact hl ▸ label_mem_labels _
    · have hn := hp.above.insertAfter k (label u)
      rw [Frame.index_map, ← Frame.map_insertAfter, ← Frame.map_fill] at hn
      change (t₁.disk.pages ((f.insertAfter k u).fill l).label).IsInner c.parent _
      rw [Frame.label_fill, Frame.label_insertAfter]
      simpa [t₁, p', p] using hn
    · rw [Frame.label_fill, Frame.label_insertAfter]
      refine (hp.children hv).congr fun a ha => update_of_ne ?_ _ _
      rintro rfl
      exact hndn.1 (List.mem_flatMap.2 ⟨v, hv, ha⟩)
  have hroot : t₁.hp.rpo = label (c.plug ((f.insertAfter k u).fill l)) := by
    refine hp.root.trans (label_plug c ?_)
    simp [label]
  have hperm := (labels_plug c ((f.insertAfter k u).fill l)).trans (hp.labels_up k)
  have heq : t.insertIntoInternal f.label ((f.index : ℤ) - 1) k (label u) =
      .ok (if f.label = t₁.hp.rpo then { t₁ with rt := t₁.loadPage f.label } else t₁) := by
    rw [Table.insertIntoInternal, hp.sound.page hp.above_mem, ok_bind, Table.slotAfter_index]
    rfl
  -- The copy of the root page is refreshed if the page is the root.
  split at heq
  · refine ⟨_, heq, Stored.of_perm hrep hroot hperm (hs₁.setRt _) ⟨p', ?_, Nat.succ_pos _⟩⟩
    change t₁.loadPage f.label = some p'
    rw [hs₁.loadPage hp.above_mem]
    simp [t₁]
  · exact ⟨_, heq, Stored.of_perm hrep hroot hperm hs₁ hp.rooted⟩

/-- A full page is split by `insert_into_internal_as`: its right half is then
    the page to be put in its place, one level up. -/
theorem splits (hp : Pending t n (.up f c) l u) {k k' : ℤ} {m : PageTree h}
    {r : List (ℤ × PageTree h)} {N : Inner ℤ ℕ (PageTree h)}
    (hN : (f.insertAfter k u).fill l = N) (hlen : N.rest.length = internalMax + 1)
    (hd : N.rest.drop (cut internalMax) = (k', m) :: r) :
    ∃ t', Pending t' (n + 1) c
        (⟨N.label, N.first, N.rest.take (cut internalMax)⟩ : Inner ℤ ℕ (PageTree h))
        (⟨pageOffset n, m, r⟩ : Inner ℤ ℕ (PageTree h)) ∧
      ∀ up, Table.insertIntoInternalAs up t f.label ((f.index : ℤ) - 1) k (label u) =
        up t' f.label k' (pageOffset n) := by
  have hlabel : N.label = f.label := by rw [← hN, Frame.label_fill, Frame.label_insertAfter]
  have hrest : N.rest = N.rest.take (cut internalMax) ++ (k', m) :: r := by
    rw [← hd, List.take_append_drop]
  let left : Inner ℤ ℕ (PageTree h) := ⟨N.label, N.first, N.rest.take (cut internalMax)⟩
  let right : Inner ℤ ℕ (PageTree h) := ⟨pageOffset n, m, r⟩
  -- The labels: those of the page and the new one, all different.
  have hperm : (PerfectTree.labels (h := h + 1) left ++
      (PerfectTree.labels (h := h + 1) right ++ c.labels)).Perm (offsets (n + 1)) := by
    have h₁ := (labels_split hd (pageOffset n)).append_right c.labels
    have h₂ := hp.labels_up k
    rw [hN] at h₂
    rw [offsets_succ, ← List.append_assoc]
    exact (h₁.trans (h₂.cons (pageOffset n))).trans (List.perm_append_singleton _ _).symm
  have hnd := hperm.nodup_iff.2 (offsets_nodup (n + 1))
  rw [← List.append_assoc] at hnd
  have hchildren : ∀ v ∈ left.children ++ right.children, v ∈ N.children := by
    intro v hv
    rw [Inner.children, hrest]
    simp only [left, right, Inner.children, List.map_append, List.map_cons, List.mem_append,
      List.mem_cons] at hv ⊢
    tauto
  -- The arrays: all entries, and those of the halves.
  let p := t.disk.pages f.label
  let temp := update (spread p.bF f.index p.numOfKeys fun _ => .zero) f.index ⟨k, label u⟩
  have hnum : p.numOfKeys + 1 = internalMax + 1 := by
    have h₁ : p.numOfKeys = (f.fill l).rest.length := by
      rw [hp.above.numOfKeys, ← Frame.map_fill, Inner.rest_map, List.length_map]
    have h₂ := congrArg (fun n => n.rest.length) hN
    simp only [Frame.rest_fill_insertAfter, List.length_insertIdx_of_le_length (f.index_le l),
      hlen] at h₂
    rw [h₁, h₂]
  have htemp : slots temp (internalMax + 1) = (N.map label).rest.map .ofEntry := by
    have h₁ := hp.above.slots_temp k (label u)
    rw [hnum, ← Frame.map_insertAfter, ← Frame.map_fill, hN, Frame.index_map] at h₁
    exact h₁
  have hd' : (N.map label).rest.drop (cut internalMax) =
      (k', label m) :: r.map fun e => (e.1, label e.2) := by
    rw [Inner.rest_map, ← List.map_drop, hd, List.map_cons]
  have hfirst : ((f.map label).fill (label l)).first = (N.map label).first := by
    rw [← Frame.map_fill, Inner.first_map, Inner.first_map, ← hN, Frame.first_fill_insertAfter]
  let old : Page := { p with
    bF := blit p.bF 0 temp 0 (cut internalMax)
    numOfKeys := cut internalMax }
  let new : Page := { Page.zero with
    nextOffset := (temp (cut internalMax)).pOffset
    bF := blit Page.zero.bF 0 temp (cut internalMax + 1) (internalMax + 1 - (cut internalMax + 1))
    numOfKeys := Page.zero.numOfKeys + (internalMax + 1 - (cut internalMax + 1))
    parentPageOffset := p.parentPageOffset }
  have hold : old.IsInner c.parent (left.map label) := by
    have h₁ := hp.above.takeHalf hfirst htemp
    rwa [Inner.rest_map, ← List.map_take] at h₁
  have hnewp : new.IsInner c.parent (right.map label) :=
    Page.IsInner.dropHalf hp.above.parent (pageOffset n) htemp hd'
  -- The table: a new page, the children of the right half moved, both halves written.
  obtain ⟨t₁, hnew, hs, hpages, hrpo, hrt⟩ := hp.sound.newPage
  have hfresh : ∀ a ∈ offsets n, a ≠ pageOffset n := fun a ha he => not_mem_offsets n (he ▸ ha)
  have hmem : ∀ a ∈ offsets n, a ∈ offsets (n + 1) := fun a ha => by simp [offsets_succ, ha]
  have hnewmem : pageOffset n ∈ offsets (n + 1) := by simp [offsets_succ]
  have hright : ∀ v ∈ right.children, label v ∈ PerfectTree.labels (h := h + 1) right :=
    fun v hv => List.mem_cons_of_mem _ (List.mem_flatMap.2 ⟨v, hv, label_mem_labels v⟩)
  have hkids : ∀ a ∈ right.children.map label, a ∈ offsets (n + 1) := by
    intro a ha
    obtain ⟨v, hv, rfl⟩ := List.mem_map.1 ha
    exact hperm.mem_iff.1 (List.mem_append_right _ (List.mem_append_left _ (hright v hv)))
  obtain ⟨t₂, hfold, hs₂, hhp₂, hrt₂, hpages₂⟩ := hs.setParents hkids (pageOffset n)
  let t₃ := (t₂.pwritePage f.label old).pwritePage (pageOffset n) new
  have hs₃ : Sound t₃ (n + 1) :=
    (hs₂.pwritePage (hmem _ hp.above_mem) old).pwritePage hnewmem new
  have hpold : t₃.disk.pages f.label = old := by simp [t₃, hfresh _ hp.above_mem]
  have hpnew : t₃.disk.pages (pageOffset n) = new := by simp [t₃]
  have hother : ∀ a, a ≠ f.label → a ≠ pageOffset n → t₃.disk.pages a =
      if a ∈ right.children.map label then { t.disk.pages a with parentPageOffset := pageOffset n }
      else t.disk.pages a := by
    intro a ha hne
    simp [t₃, ha, hne, hpages₂, hpages]
  obtain ⟨hndlr, -, hdisjc⟩ := List.nodup_append.1 hnd
  obtain ⟨-, hndr, hdisj⟩ := List.nodup_append.1 hndlr
  have hleftright : Rep t₃.disk.pages c.parent (h := h + 1) left ∧
      Rep t₃.disk.pages c.parent (h := h + 1) right := Rep.halves hndlr
    (hlabel.symm ▸ hpold.symm ▸ hold) (hpnew.symm ▸ hnewp)
    (fun v hv => hlabel.symm ▸ hp.children (hN.symm ▸ hchildren v hv))
    (fun v hv => ?_) (fun a _ ha hne hkept => ?_)
  · refine ⟨t₃, ⟨hs₃, ?_, ?_, hperm, ?_, hleftright.1, hleftright.2⟩, fun up => ?_⟩
    · obtain ⟨rt, hrt', hpos⟩ := hp.rooted
      exact ⟨rt, hrt₂.trans (hrt.trans hrt'), hpos⟩
    · have h₁ : t₃.hp.rpo = t.hp.rpo := (congrArg HeaderPage.rpo hhp₂).trans hrpo
      rw [h₁, hp.root]
      refine label_plug c ?_
      rw [label, Frame.label_fill]
      exact hlabel.symm
    · have hl : label (h := h + 1) left = f.label := hlabel
      rw [hl]
      refine RepCtx.congr hp.ctx.2.2 fun a ha => ?_
      have hne := fun x hx => (hdisjc x hx a ha).symm
      rw [hother a (hl ▸ hne _ (List.mem_append_left _ (label_mem_labels (h := h + 1) left)))
        (hne _ (List.mem_append_right _ (label_mem_labels (h := h + 1) right))), if_neg]
      intro hk
      obtain ⟨v, hv, rfl⟩ := List.mem_map.1 hk
      exact hne _ (List.mem_append_right _ (hright v hv)) rfl
    · -- The code moves the leftmost child first, then the others.
      have hrestkids : slots (fun i => (new.bF i).pOffset) new.numOfKeys =
          (right.rest.map Prod.snd).map label := by
        rw [← map_slots InterRecord.pOffset, hnewp.rest]
        simp [InterRecord.ofEntry]
      have hfold' : (Table.setParent (pageOffset n) t₁ new.nextOffset >>= fun t =>
          (slots (fun i => (new.bF i).pOffset) new.numOfKeys).foldlM
            (Table.setParent (pageOffset n)) t) = .ok t₂ := by
        rw [hrestkids, hnewp.first]
        exact hfold
      have hstep : Table.insertIntoInternalAs up t f.label ((f.index : ℤ) - 1) k (label u) =
          ((Table.setParent (pageOffset n) t₁ new.nextOffset >>= fun t =>
            (slots (fun i => (new.bF i).pOffset) new.numOfKeys).foldlM
              (Table.setParent (pageOffset n)) t) >>= fun t₂ =>
            up ((t₂.pwritePage f.label old).pwritePage (pageOffset n) new) f.label
              (temp (cut internalMax)).key (pageOffset n)) := by
        rw [Table.insertIntoInternalAs, hp.sound.page hp.above_mem, ok_bind,
          Table.slotAfter_index, ok_bind]
        dsimp only
        rw [hnew, ok_bind]
        dsimp only
        rw [hs.page hnewmem, ok_bind, hpages, bind_assoc]
        simp only [update_self]
        rfl
      rw [hstep, hfold', ok_bind, temp_cut htemp hd']
  · have hl : label v ≠ f.label :=
      hlabel ▸ (hdisj _ (label_mem_labels (h := h + 1) left) _ (hright v hv)).symm
    have hr : label v ≠ pageOffset n := by
      intro he
      have hmv := label_mem_labels v
      rw [he] at hmv
      exact (List.nodup_cons.1 hndr).1 (List.mem_flatMap.2 ⟨v, hv, hmv⟩)
    rw [hother _ hl hr, if_pos (List.mem_map_of_mem hv)]
  · rw [hother a (hlabel ▸ ha) hne, if_neg]
    intro hk
    obtain ⟨v, hv, rfl⟩ := List.mem_map.1 hk
    exact hkept v hv rfl

end

/-- `insert_into_parent` puts the page in its place: the table then stores the
    tree with both. -/
theorem insertIntoParent {tipOk : Bool → Leaf → Prop} {min : ℕ} {c : Ctx ℤ ℕ Leaf h H}
    {l u : PageTree h} (hp : Pending t n c l u) (hc : c.Sized tipOk min internalMax (label l))
    (k : ℤ) {fuel : ℕ} (hfuel : H < h + fuel) :
    ∃ t', Table.insertIntoParent fuel t (label l) k (label u) = .ok t' ∧
      Stored t' (insertUp internalMax (cut internalMax) (· + sizeofPage) c l k u
        (pageOffset n)).2 := by
  have hle := c.le
  induction fuel generalizing t n h k with
  | zero => omega
  | succ fuel ih =>
    cases c with
    | root =>
      obtain ⟨t', ht', hT⟩ := hp.newRoot k
      refine ⟨t', ?_, hT⟩
      rw [Table.insertIntoParent, hp.sound.page hp.label_left_mem, ok_bind, hp.left.parent]
      exact ht'
    | up f c =>
      have hparent : (t.disk.pages (label l)).parentPageOffset = f.label := hp.left.parent
      have hne : f.label ≠ 0 := fun h0 => zero_not_mem_offsets n (h0 ▸ hp.above_mem)
      have hlen : ((f.insertAfter k u).fill l).rest.length =
          (t.disk.pages f.label).numOfKeys + 1 := by
        rw [Frame.rest_fill_insertAfter, List.length_insertIdx_of_le_length (f.index_le l),
          hp.above.numOfKeys, ← Frame.map_fill, Inner.rest_map, List.length_map]
      have hmax : (t.disk.pages f.label).numOfKeys ≤ internalMax := by
        rw [hp.above.numOfKeys]
        exact hc.1.2
      rw [Table.insertIntoParent, hp.sound.page hp.label_left_mem, ok_bind, hparent]
      simp only [if_neg hne, hp.getLeftIndex, ok_bind, hp.sound.page hp.above_mem]
      -- Either the page above has room, or it is split in turn.
      by_cases hroom : (t.disk.pages f.label).numOfKeys < internalMax
      · obtain ⟨t', ht', hT⟩ := hp.fits k
        rw [if_pos hroom, insertUp_fits (hlen ▸ hroom)]
        exact ⟨t', ht', hT⟩
      · have hfull : ((f.insertAfter k u).fill l).rest.length = internalMax + 1 := by omega
        rcases hd : ((f.insertAfter k u).fill l).rest.drop (cut internalMax) with
          _ | ⟨⟨k', m⟩, r⟩
        · rw [List.drop_eq_nil_iff, hfull] at hd
          exact absurd hd (by decide)
        · obtain ⟨t₁, hp₁, hstep⟩ := hp.splits rfl hfull hd
          rw [if_neg hroom, hstep, insertUp_splits rfl (by omega) hd]
          have hc₁ := hc.2.2
          obtain ⟨t', ht', hT⟩ := ih hp₁ (Ctx.Sized.relabel hc₁ _) k' (by omega) c.le
          rw [← pageOffset_succ] at hT
          refine ⟨t', ?_, hT⟩
          rw [← ht']
          simp [label]

end Pending

end CourseProjects.BPlusTree
