import CourseProjects.BPlusTree.Rep

/-!
# The descent to a leaf

In a table that stores a tree, `find_leaf` follows the search for the key down
to a tip (`findLeaf_stored`): it never reads outside the file and takes as many
steps as the tree is high, fewer than the file has bytes. What `db_find` then
returns is read off the records of the tip (`dbFind_stored`).
-/

namespace CourseProjects.BPlusTree

open Slots PerfectTree

/-! ### One step down -/

/-- `find_leaf` follows the search for the key to a child. -/
theorem Page.IsInner.childFor {p : Page} {par : Option ℕ} {h : ℕ}
    {n : Inner ℤ ℕ (PageTree h)} (hp : p.IsInner par (n.map label)) (key : ℤ) :
    ∃ (f : Frame ℤ ℕ (PageTree h)) (u : PageTree h),
      f.fill u = n ∧ f.Routes key ∧ p.childFor key = label u := by
  have hnum : p.numOfKeys = n.rest.length := by simpa using hp.numOfKeys
  have hbF : ∀ {i} (hi : i < n.rest.length), p.bF i = .ofEntry (n.rest[i].1, label n.rest[i].2) :=
    fun {i} hi => by simpa using hp.bF (i := i) (by simpa using hi)
  set i := scan (fun i => ¬(p.bF i).key ≤ key) p.numOfKeys with hi
  have hle : i ≤ n.rest.length := hnum ▸ scan_le _ _
  -- The search stops at the first separator above the key.
  have hstop : ∀ (hlt : i < n.rest.length), key < n.rest[i].1 := by
    intro hlt
    have hlt' : i < p.numOfKeys := hnum ▸ hlt
    have := stop_scan hlt'
    rw [← hi, hbF hlt] at this
    simpa [InterRecord.ofEntry] using this
  have hchild : p.childFor key = if i = 0 then p.nextOffset else (p.bF (i - 1)).pOffset := rfl
  obtain ⟨f, u, hf, hfi⟩ := n.exists_frame hle
  refine ⟨f, u, hf, ?_, ?_⟩
  · cases f with
    | first b a =>
      subst hf
      intro e he
      obtain ⟨r, rfl⟩ : ∃ r, a = e :: r := List.head?_eq_some_iff.1 he
      simp only [Frame.index] at hfi
      simpa [← hfi, Frame.fill] using hstop (by simp [← hfi, Frame.fill])
    | later b m before k a =>
      subst hf
      simp only [Frame.index] at hfi
      refine ⟨?_, fun e he => ?_⟩
      · have hlt : before.length < i := by omega
        have := not_stop_of_lt_scan (hi ▸ hlt)
        rw [hbF (by simp [Frame.fill])] at this
        simpa [InterRecord.ofEntry, Frame.fill] using this
      · obtain ⟨r, rfl⟩ : ∃ r, a = e :: r := List.head?_eq_some_iff.1 he
        simpa [← hfi, Frame.fill, List.getElem_append_right] using
          hstop (by simp [← hfi, Frame.fill])
  · rw [hchild]
    cases f with
    | first b a =>
      subst hf
      simp only [Frame.index] at hfi
      rw [if_pos hfi.symm, hp.first]
      rfl
    | later b m before k a =>
      subst hf
      simp only [Frame.index] at hfi
      rw [if_neg (by omega), hbF (by simp [Frame.fill]; omega)]
      simp [InterRecord.ofEntry, Frame.fill, ← hfi]

/-! ### The whole descent -/

/-- A tree is no higher than it has labels. -/
theorem height_lt_length_labels : {h : ℕ} → (T : PageTree h) → h < (labels T).length
  | 0, _ => Nat.one_pos
  | h + 1, T => by
    have := height_lt_length_labels (Inner.first T)
    rw [labels, Inner.children, List.flatMap_cons]
    simp only [List.length_cons, List.length_append]
    omega

theorem findLeafFrom_rep {t : Table} {N : ℕ} (hs : Sound t N) (key : ℤ) {h H : ℕ}
    (c : Ctx ℤ ℕ Leaf h H) (T : PageTree h) (hT : ∀ a ∈ labels T, a ∈ offsets N)
    {par : Option ℕ} (hrep : Rep t.disk.pages par T) (hc : c.Routed key) {fuel : ℕ}
    (hfuel : h < fuel) :
    ∃ (c' : Ctx ℤ ℕ Leaf 0 H) (l : PageTree 0), c'.plug l = c.plug T ∧ c'.Routed key ∧
      t.findLeafFrom key fuel (label T) = .ok (label l) := by
  induction h generalizing fuel par with
  | zero =>
    have hl : (t.disk.pages (label T)).IsTip par (Tip.data T) := hrep
    obtain ⟨fuel, rfl⟩ := Nat.exists_eq_succ_of_ne_zero (Nat.pos_iff_ne_zero.1 hfuel)
    refine ⟨c, T, rfl, hc, ?_⟩
    rw [Table.findLeafFrom, hs.page (hT _ (label_mem_labels T)), ok_bind, hl.isLeaf]
    rfl
  | succ h ih =>
    have hn : (t.disk.pages (label T)).IsInner par (Inner.map label T) := hrep.1
    obtain ⟨fuel, rfl⟩ := Nat.exists_eq_succ_of_ne_zero (Nat.ne_zero_of_lt hfuel)
    obtain ⟨f, u, hf, hr, hchild⟩ := hn.childFor key
    have hu : u ∈ Inner.children T := by
      rw [← hf, Frame.children_fill]
      simp
    obtain ⟨c', l, hplug, hc', hfind⟩ := ih (.up f c) u
      (fun a ha => hT a (List.mem_cons_of_mem _ (List.mem_flatMap.2 ⟨u, hu, ha⟩)))
      (hrep.2 u hu) ⟨hr, hc⟩ (Nat.lt_of_succ_lt_succ hfuel)
    refine ⟨c', l, hplug.trans (by rw [Ctx.plug, hf]), hc', ?_⟩
    rw [Table.findLeafFrom, hs.page (hT _ (label_mem_labels T)), ok_bind, hn.isLeaf]
    simpa [hchild] using hfind

/-- `find_leaf` goes down to the tip that the search for the key leads to. -/
theorem findLeaf_stored {t : Table} {H : ℕ} {T : PageTree H} (hT : Stored t T) (key : ℤ) :
    ∃ (c : Ctx ℤ ℕ Leaf 0 H) (l : PageTree 0), c.plug l = T ∧ c.Routed key ∧
      t.findLeaf key = .ok (label l) := by
  obtain ⟨r, hr, -⟩ := hT.rooted
  have hfuel : H < t.disk.size := by
    have := height_lt_length_labels T
    rw [hT.sound.size, pageOffset_eq]
    omega
  obtain ⟨c, l, hplug, hc, hfind⟩ := findLeafFrom_rep hT.sound key .root T
    (fun a ha => hT.mem_offsets ha) hT.rep trivial hfuel
  refine ⟨c, l, hplug, hc, ?_⟩
  rw [Table.findLeaf, hr, hT.root]
  exact hfind

/-! ### Looking up a key -/

/-- What `db_find` finds in a list of records: the first record with the key,
    if it is not logically deleted. -/
def lookup (recs : List Record) (key : ℤ) : Option Value :=
  match recs.find? (fun r => r.key = key) with
  | some r => if r.logicalDel then none else some r.value
  | none => none

/-- The search of a leaf ends at the first record with the key, or past the
    records in use. -/
theorem Page.keyIndex_eq (p : Page) (key : ℤ) :
    p.keyIndex key = (slots p.records p.numOfKeys).findIdx fun r => r.key = key :=
  scan_eq_findIdx p.records (fun r => r.key = key) p.numOfKeys

/-- `db_find` looks the key up in the records of the leaf. -/
theorem dbFind_stored {t : Table} {H : ℕ} {c : Ctx ℤ ℕ Leaf 0 H} {l : PageTree 0}
    (hT : Stored t (c.plug l)) {key : ℤ} (hfind : t.findLeaf key = .ok (label l)) :
    t.dbFind key = .ok (lookup l.data.recs key) := by
  have hl : (t.disk.pages (label l)).IsTip c.parent l.data := (rep_plug.1 hT.rep).2
  rw [Table.dbFind, hfind, ok_bind, hT.page (label_mem_labels_plug c l), ok_bind,
    Page.keyIndex_eq, hl.recs, hl.numOfKeys, lookup, List.find?_eq_getElem?_findIdx]
  dsimp only
  by_cases hi : l.data.recs.findIdx (fun r => decide (r.key = key)) < l.data.recs.length
  · rw [hl.records hi, List.getElem?_eq_getElem hi]
    simp only [hi.ne, if_false]
    split <;> rfl
  · -- The slot past the records in use is read too, but decides nothing.
    rw [List.getElem?_eq_none (Nat.not_lt.1 hi)]
    simp only [Nat.le_antisymm List.findIdx_le_length (Nat.not_lt.1 hi), if_true]
    split <;> rfl

end CourseProjects.BPlusTree
