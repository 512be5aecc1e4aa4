import CourseProjects.BPlusTree.Ascent
import CourseProjects.BPlusTree.Descent

/-!
# What the calls do to a leaf

Insertions and deletions change the records of one leaf, as lists:

* `insert_into_leaf` inserts before the first key that is not smaller
  (`insertRecord`, `insertIntoLeaf_stored`);
* `delete_entry` removes the first record with the key, or only marks it if the
  leaf has no record to spare (`removeKey`, `deleteEntry_stored`); nothing is
  ever merged;
* the purge of a full leaf removes one record at most (`purge_stored`);
* `insert_into_leaf_as` leaves two leaves of two records each, of which it is
  certain only if nothing was purged what they are (`insertIntoLeafAs_stored`).
-/

namespace CourseProjects.BPlusTree

open Slots Function PerfectTree

/-! ### Lists of records -/

/-- The records with a new one, before the first whose key is not smaller. -/
def insertRecord (r : Record) (recs : List Record) : List Record :=
  recs.orderedInsert (fun a b => a.key ≤ b.key) r

theorem insertRecord_eq_insertIdx (r : Record) (recs : List Record) :
    insertRecord r recs = recs.insertIdx (recs.findIdx fun x => ¬x.key < r.key) r := by
  induction recs with
  | nil => rfl
  | cons x recs ih =>
    rw [insertRecord, List.orderedInsert_cons, List.findIdx_cons]
    by_cases h : r.key ≤ x.key
    · simp [h]
    · simpa [h, insertRecord] using ih

/-- A new record splits the records around it. -/
theorem insertRecord_eq_append (r : Record) (recs : List Record) :
    ∃ a b, recs = a ++ b ∧ insertRecord r recs = a ++ r :: b ∧ (∀ x ∈ a, x.key < r.key) ∧
      ∀ x ∈ b.head?, r.key ≤ x.key := by
  refine ⟨recs.takeWhile fun x => ¬r.key ≤ x.key, recs.dropWhile fun x => ¬r.key ≤ x.key,
    List.takeWhile_append_dropWhile.symm, List.orderedInsert_eq_take_drop _ _ _, fun x hx => ?_,
    fun x hx => ?_⟩
  · simpa using List.mem_takeWhile_imp hx
  · have := List.head?_dropWhile_not (fun x : Record => decide ¬r.key ≤ x.key) recs
    rw [Option.mem_def] at hx
    rw [hx] at this
    simpa using this

/-- The record, logically deleted. -/
def Record.mark (r : Record) : Record := { r with logicalDel := true }

/-- The records without the first one of the key, if there is one to spare, and
    otherwise with that record marked as deleted. -/
def removeKey (key : ℤ) (recs : List Record) : List Record :=
  let i := recs.findIdx fun r => r.key = key
  if recs.length ≤ cut leafMax then recs.modify i Record.mark else recs.eraseIdx i

/-- Removing a key that is there removes or marks its first record. -/
theorem removeKey_eq_append {key : ℤ} {recs : List Record} (h : ∃ r ∈ recs, r.key = key) :
    ∃ a r b, recs = a ++ r :: b ∧ (∀ x ∈ a, x.key ≠ key) ∧ r.key = key ∧
      removeKey key recs = if recs.length ≤ cut leafMax then a ++ r.mark :: b else a ++ b := by
  have hlt : (recs.findIdx fun r => r.key = key) < recs.length := by
    rw [List.findIdx_lt_length]
    simpa using h
  have hkey : recs[recs.findIdx fun r => r.key = key].key = key := by
    simpa using List.findIdx_getElem (w := hlt)
  refine ⟨recs.take (recs.findIdx fun r => r.key = key), recs[recs.findIdx fun r => r.key = key],
    recs.drop ((recs.findIdx fun r => r.key = key) + 1), ?_, fun x hx => ?_, hkey, ?_⟩
  · rw [← List.drop_eq_getElem_cons hlt, List.take_append_drop]
  · obtain ⟨i, hi, rfl⟩ := List.mem_iff_getElem.1 hx
    have hlt' : i < recs.findIdx fun r => r.key = key := by
      rw [List.length_take] at hi
      exact hi.trans_le (Nat.min_le_left _ _)
    simpa using List.not_of_lt_findIdx hlt'
  · rw [removeKey]
    split
    · rw [List.modify_eq_take_cons_drop hlt]
    · rw [List.eraseIdx_eq_take_drop_succ]

theorem length_removeKey {key : ℤ} {recs : List Record} (h : ∃ r ∈ recs, r.key = key) :
    (removeKey key recs).length =
      if recs.length ≤ cut leafMax then recs.length else recs.length - 1 := by
  obtain ⟨a, r, b, hr, -, -, hrem⟩ := removeKey_eq_append h
  rw [hrem]
  split <;> simp [hr]

/-- The keys that remain. -/
theorem keys_removeKey {key : ℤ} {recs : List Record} (h : ∃ r ∈ recs, r.key = key) :
    (removeKey key recs).map Record.key =
      if recs.length ≤ cut leafMax then recs.map Record.key
      else (recs.map Record.key).erase key := by
  obtain ⟨a, r, b, hr, ha, hkey, hrem⟩ := removeKey_eq_append h
  have hna : key ∉ a.map Record.key := by simpa using ha
  rw [hrem]
  split
  · simp [hr, Record.mark]
  · have hmap : recs.map Record.key = a.map Record.key ++ key :: b.map Record.key := by
      rw [hr, List.map_append, List.map_cons, hkey]
    rw [hmap, List.erase_append_right _ hna, List.erase_cons_head, List.map_append]

/-- Other keys are still there, whether the record is removed or marked. -/
theorem subperm_keys_removeKey {key : ℤ} {ks : List ℤ} {recs : List Record}
    (h : ∃ r ∈ recs, r.key = key) (hks : (key :: ks).Subperm (recs.map Record.key)) :
    ks.Subperm ((removeKey key recs).map Record.key) := by
  rw [keys_removeKey h]
  split
  · exact (List.sublist_cons_self key ks).subperm.trans hks
  · simpa using hks.erase key

/-- The records after the removal of keys, one after the other. -/
def removeKeys (ks : List ℤ) (recs : List Record) : List Record :=
  ks.foldl (fun recs key => removeKey key recs) recs

/-- The records after the purge of a leaf: the key of every logically deleted record is
    removed, whatever record of the key comes first then. -/
def purgeRecords (recs : List Record) : List Record :=
  removeKeys ((recs.filter Record.logicalDel).map Record.key) recs

/-- The purge changes nothing if nothing is logically deleted. -/
theorem purgeRecords_of_live {recs : List Record} (h : ∀ r ∈ recs, r.logicalDel = false) :
    purgeRecords recs = recs := by
  rw [purgeRecords, List.filter_eq_nil_iff.2 (by simpa using h)]
  rfl

/-- The sizes of a leaf: a leaf that is the root may have a single record. -/
def leafOk (root : Bool) (l : Leaf) : Prop :=
  (if root then 1 else cut leafMax) ≤ l.recs.length ∧ l.recs.length ≤ leafMax

/-- A deletion keeps the sizes. -/
theorem leafOk.removeKey {root : Bool} {l : Leaf} (h : leafOk root l) {key : ℤ}
    (hkey : ∃ r ∈ l.recs, r.key = key) (next : ℕ) : leafOk root ⟨removeKey key l.recs, next⟩ := by
  obtain ⟨hmin, hmax⟩ := h
  have hcut : cut leafMax = 2 := rfl
  rw [leafOk, length_removeKey hkey]
  by_cases hfew : l.recs.length ≤ cut leafMax
  · rw [if_pos hfew]
    exact ⟨hmin, hmax⟩
  · rw [if_neg hfew]
    refine ⟨?_, by omega⟩
    split <;> omega

/-! ### Leaf pages -/

namespace Page.IsTip

variable {p : Page} {par : Option ℕ} {l : Leaf}

/-- `insert_into_leaf` inserts the record. -/
theorem insert (hp : p.IsTip par l) (r : Record) :
    Page.IsTip { p with
      records := update (shiftUp p.records (scan (fun i => ¬(p.records i).key < r.key) p.numOfKeys)
        p.numOfKeys) (scan (fun i => ¬(p.records i).key < r.key) p.numOfKeys) r
      numOfKeys := p.numOfKeys + 1 } par ⟨insertRecord r l.recs, l.next⟩ where
  isLeaf := hp.isLeaf
  parent := hp.parent
  next := hp.next
  recs := by
    have hscan : scan (fun i => ¬(p.records i).key < r.key) p.numOfKeys =
        l.recs.findIdx fun x => ¬x.key < r.key := by
      rw [← hp.recs]
      exact scan_eq_findIdx p.records (fun x => ¬x.key < r.key) p.numOfKeys
    rw [slots_shiftUp _ (scan_le _ _), hscan, hp.recs, insertRecord_eq_insertIdx]

/-- The removal finds a key of the leaf among the records in use. -/
theorem scan_key (hp : p.IsTip par l) {key : ℤ} (h : ∃ r ∈ l.recs, r.key = key)
    (hlen : l.recs.length ≤ leafMax) :
    scan (fun i => (p.records i).key = key) recordSlots = l.recs.findIdx fun r => r.key = key := by
  have hlt : (l.recs.findIdx fun r => r.key = key) < l.recs.length := by
    rw [List.findIdx_lt_length]
    simpa using h
  refine scan_eq ?_ ?_ fun j hj => ?_
  · have : leafMax ≤ recordSlots := by decide
    omega
  · rw [hp.records hlt]
    exact List.findIdx_getElem (w := hlt)
  · rw [hp.records (hj.trans hlt)]
    simpa using List.not_of_lt_findIdx hj

/-- A logical deletion. -/
theorem markDeleted (hp : p.IsTip par l) {key : ℤ} (hfew : l.recs.length ≤ cut leafMax) :
    (p.markDeleted (l.recs.findIdx fun r => r.key = key)).IsTip par ⟨removeKey key l.recs, l.next⟩
    where
  isLeaf := hp.isLeaf
  parent := hp.parent
  next := hp.next
  recs := by
    rw [removeKey, if_pos hfew, ← hp.recs]
    exact slots_update p.records Record.mark _ _

/-- A physical deletion. -/
theorem eraseRecord (hp : p.IsTip par l) {key : ℤ} (h : ∃ r ∈ l.recs, r.key = key)
    (hmany : cut leafMax < l.recs.length) :
    Page.IsTip { p with
      records := shiftDown p.records (l.recs.findIdx fun r => r.key = key) p.numOfKeys
      numOfKeys := p.numOfKeys - 1 } par ⟨removeKey key l.recs, l.next⟩ where
  isLeaf := hp.isLeaf
  parent := hp.parent
  next := hp.next
  recs := by
    have hlt : (l.recs.findIdx fun r => r.key = key) < p.numOfKeys := by
      rw [hp.numOfKeys, List.findIdx_lt_length]
      simpa using h
    rw [removeKey, if_neg (Nat.not_le.2 hmany), slots_shiftDown _ hlt, hp.recs]

end Page.IsTip

/-! ### Writing a leaf -/

namespace Stored

variable {t : Table} {H : ℕ} {c : Ctx ℤ ℕ Leaf 0 H} {l : PageTree 0}

theorem leaf (hT : Stored t (c.plug l)) : (t.disk.pages (label l)).IsTip c.parent l.data :=
  (rep_plug.1 hT.rep).2

theorem leaf_page (hT : Stored t (c.plug l)) : t.page (label l) = .ok (t.disk.pages (label l)) :=
  hT.page (label_mem_labels_plug c l)

/-- Refreshing the copy of the root page. -/
theorem refresh {h : ℕ} {T : PageTree h} (hT : Stored t T) {a : ℕ} {p : Page}
    (hp : t.loadPage a = some p) (hpos : 0 < p.numOfKeys) :
    Stored { t with rt := t.loadPage a } T :=
  ⟨hT.rep, hT.root, hT.labels, hT.sound.setRt _, p, hp, hpos⟩

/-- Writing the page of a leaf changes the leaf. -/
theorem writeLeaf (hT : Stored t (c.plug l)) {p : Page} {d : Leaf} (hp : p.IsTip c.parent d) :
    Stored (t.pwritePage (label l) p) (c.plug (⟨label l, d⟩ : Tip ℕ Leaf)) := by
  have hperm : (PerfectTree.labels (c.plug (⟨label l, d⟩ : Tip ℕ Leaf))).Perm
      (PerfectTree.labels (c.plug l)) := (labels_plug c _).trans (labels_plug c l).symm
  refine of_perm (rep_plug.2 ⟨?_, ?_⟩) (hT.root.trans (label_plug c rfl)) (hperm.trans hT.labels)
    (hT.sound.pwritePage (hT.mem_offsets (label_mem_labels_plug c l)) p) hT.rooted
  · refine RepCtx.congr (rep_plug.1 hT.rep).1 fun a ha => update_of_ne ?_ _ _
    rintro rfl
    have hnd := (labels_plug c l).nodup_iff.1 hT.nodup
    exact (List.nodup_append.1 hnd).2.2 _ (label_mem_labels l) _ ha rfl
  · change Page.IsTip _ _ _
    simpa [label] using hp

/-- `insert_into_leaf` inserts the record. -/
theorem insertIntoLeaf (hT : Stored t (c.plug l)) (r : Record) :
    ∃ t', t.insertIntoLeaf (label l) r = .ok t' ∧
      Stored t' (c.plug (⟨label l, ⟨insertRecord r l.data.recs, l.data.next⟩⟩ : Tip ℕ Leaf)) := by
  refine ⟨_, ?_, hT.writeLeaf (hT.leaf.insert r)⟩
  rw [Table.insertIntoLeaf, hT.leaf_page]
  rfl

/-- `remove_entry_from_page` removes or marks the first record of the key. -/
theorem removeEntryFromPage (hT : Stored t (c.plug l)) {key : ℤ}
    (hkey : ∃ r ∈ l.data.recs, r.key = key) (hlen : l.data.recs.length ≤ leafMax) :
    ∃ t', t.removeEntryFromPage key (label l) = .ok t' ∧
      Stored t' (c.plug (⟨label l, ⟨removeKey key l.data.recs, l.data.next⟩⟩ : Tip ℕ Leaf)) := by
  have hi := hT.leaf.scan_key hkey hlen
  have hlt : (l.data.recs.findIdx fun r => r.key = key) < recordSlots := by
    have h₁ : (l.data.recs.findIdx fun r => r.key = key) ≤ l.data.recs.length :=
      List.findIdx_le_length
    have h₂ : leafMax < recordSlots := by decide
    omega
  have hnum := hT.leaf.numOfKeys
  rw [Table.removeEntryFromPage, hT.leaf_page, ok_bind, if_pos hT.leaf.isLeaf]
  simp only [hi, if_neg hlt.ne]
  have hcut : cut leafMax = 2 := rfl
  by_cases hfew : l.data.recs.length ≤ cut leafMax
  · rw [if_pos (by omega)]
    exact ⟨_, rfl, hT.writeLeaf (hT.leaf.markDeleted hfew)⟩
  · have hp := hT.leaf.eraseRecord hkey (Nat.not_le.1 hfew)
    have hw := hT.writeLeaf hp
    rw [if_neg (by omega)]
    -- The copy of the root page is refreshed if the leaf is the root.
    split
    · refine ⟨_, rfl, hw.refresh (hw.sound.loadPage (hw.mem_offsets ?_)) ?_⟩
      · exact label_mem_labels_plug c _
      · simp only [Table.pages_pwritePage, update_self]
        omega
    · exact ⟨_, rfl, hw⟩

/-- `delete_entry` does nothing after the removal, whatever it would call on the parent: the root is
    not empty and no other leaf gets too small. -/
theorem afterRemoval (hT : Stored t (c.plug l)) (hl : leafOk c.parent.isNone l.data)
    (deleteEntry : Table → ℤ → ℕ → Except Fault Table) :
    t.afterRemoval deleteEntry (label l) = .ok t := by
  rw [Table.afterRemoval]
  by_cases hroot : label l = t.hp.rpo
  · obtain ⟨r, hr, hpos⟩ := hT.rooted
    rw [if_pos hroot, Table.adjustRoot, hr]
    exact if_pos hpos
  · have hpar : c.parent.isNone = false := by
      cases c with
      | root => exact absurd hT.root.symm hroot
      | up f c => rfl
    have hsize := hl.1
    rw [hpar] at hsize
    rw [if_neg hroot, hT.leaf_page, ok_bind]
    simp only [hT.leaf.isLeaf, if_true]
    exact if_pos (hT.leaf.numOfKeys ▸ hsize)

/-- `delete_entry` on a key of a leaf never gets past the removal. -/
theorem deleteEntry (hT : Stored t (c.plug l)) {key : ℤ}
    (hkey : ∃ r ∈ l.data.recs, r.key = key) (hl : leafOk c.parent.isNone l.data) {fuel : ℕ}
    (hfuel : 0 < fuel) :
    ∃ t', Table.deleteEntry fuel t key (label l) = .ok t' ∧
      Stored t' (c.plug (⟨label l, ⟨removeKey key l.data.recs, l.data.next⟩⟩ : Tip ℕ Leaf)) := by
  obtain ⟨fuel, rfl⟩ := Nat.exists_eq_succ_of_ne_zero hfuel.ne'
  obtain ⟨t', ht', hT'⟩ := hT.removeEntryFromPage hkey hl.2
  refine ⟨t', ?_, hT'⟩
  rw [Table.deleteEntry_succ, ht', ok_bind]
  exact hT'.afterRemoval (hl.removeKey hkey l.data.next) _

theorem size_pos (hT : Stored t (c.plug l)) : 0 < t.disk.size := by
  rw [hT.sound.size, pageOffset_eq]
  omega

/-- Deleting keys of a leaf, as many times as it has them at most. -/
theorem deleteEntries (hT : Stored t (c.plug l)) (hl : leafOk c.parent.isNone l.data)
    {ks : List ℤ} (hks : ks.Subperm (l.data.recs.map Record.key)) :
    ∃ t', ks.foldlM (fun t key => Table.deleteEntry t.disk.size t key (label l)) t = .ok t' ∧
      Stored t' (c.plug (⟨label l, ⟨removeKeys ks l.data.recs, l.data.next⟩⟩ : Tip ℕ Leaf)) ∧
      leafOk c.parent.isNone ⟨removeKeys ks l.data.recs, l.data.next⟩ := by
  induction ks generalizing t l with
  | nil => exact ⟨t, rfl, hT, hl⟩
  | cons k ks ih =>
    have hkey : ∃ r ∈ l.data.recs, r.key = k := by
      simpa using hks.subset List.mem_cons_self
    obtain ⟨t₁, ht₁, hT₁⟩ := hT.deleteEntry hkey hl hT.size_pos
    obtain ⟨t', ht', hT', hl'⟩ := ih hT₁ (hl.removeKey hkey _) (subperm_keys_removeKey hkey hks)
    refine ⟨t', ?_, hT', hl'⟩
    rw [List.foldlM_cons, ht₁]
    exact ht'

/-- The purge of a leaf. -/
theorem purge (hT : Stored t (c.plug l)) (hl : leafOk c.parent.isNone l.data) :
    ∃ t', t.purge (label l) (t.disk.pages (label l)) = .ok t' ∧
      Stored t' (c.plug (⟨label l, ⟨purgeRecords l.data.recs, l.data.next⟩⟩ : Tip ℕ Leaf)) ∧
      leafOk c.parent.isNone ⟨purgeRecords l.data.recs, l.data.next⟩ := by
  have hsub := ((List.filter_sublist (p := Record.logicalDel) (l := l.data.recs)).map
    Record.key).subperm
  obtain ⟨t', ht', hT', hl'⟩ := hT.deleteEntries hl hsub
  refine ⟨t', ?_, hT', hl'⟩
  rw [← ht', ← hT.leaf.recs, slots, Table.purge, List.foldlM_map, List.foldlM_filter,
    List.foldlM_map]

end Stored

/-! ### Splitting a leaf -/

/-- The records `insert_into_leaf_as` distributes over the two leaves, one more
    than fit in one. -/
def splitRecords (p : Page) (inst : Record) : List Record :=
  slots (update (spread p.records (scan (fun i => ¬(p.records i).key < inst.key) leafMax)
    p.numOfKeys fun _ => .zero) (scan (fun i => ¬(p.records i).key < inst.key) leafMax) inst)
    (leafMax + 1)

theorem length_splitRecords (p : Page) (inst : Record) :
    (splitRecords p inst).length = leafMax + 1 := length_slots _ _

/-- In a full leaf they are its records and the new one. -/
theorem splitRecords_full {p : Page} {par : Option ℕ} {l : Leaf} (hp : p.IsTip par l)
    (hfull : l.recs.length = leafMax) (inst : Record) :
    splitRecords p inst = insertRecord inst l.recs := by
  have hnum : p.numOfKeys = leafMax := hp.numOfKeys.trans hfull
  have hscan : scan (fun i => ¬(p.records i).key < inst.key) leafMax =
      l.recs.findIdx fun x => ¬x.key < inst.key := by
    rw [← hp.recs, hnum]
    exact scan_eq_findIdx p.records (fun x => ¬x.key < inst.key) leafMax
  rw [splitRecords, hnum, slots_spread _ (scan_le _ _), hscan, insertRecord_eq_insertIdx,
    ← hp.recs, hnum]

/-- The tree after a split of the leaf that fills the hole, with the records
    `recs` in place of its own, between which `key` separates. -/
def splitLeaf {H : ℕ} (c : Ctx ℤ ℕ Leaf 0 H) (l : PageTree 0) (recs : List Record) (key : ℤ) :
    Σ H', PageTree H' :=
  let n := (labels (c.plug l)).length
  insertUp internalMax (cut internalMax) (· + sizeofPage) c
    (⟨label l, ⟨recs.take (cut leafMax), pageOffset n⟩⟩ : Tip ℕ Leaf) key
    (⟨pageOffset n, ⟨recs.drop (cut leafMax), l.data.next⟩⟩ : Tip ℕ Leaf) (pageOffset (n + 1))

theorem slots_clearKeys (f : ℕ → Record) (n : ℕ) : slots (Table.clearKeys f n) n = slots f n :=
  slots_congr fun _ hi => if_neg fun h => absurd h.1 (Nat.not_le.2 hi)

namespace Page.IsTip

variable {p : Page} {par : Option ℕ} {l : Leaf} {temp : ℕ → Record}

/-- The left leaf. -/
theorem takeHalf (hp : p.IsTip par l) (new : ℕ) :
    Page.IsTip { p with
      records := Table.clearKeys (blit p.records 0 temp 0 (cut leafMax)) (cut leafMax)
      numOfKeys := cut leafMax
      nextOffset := new } par ⟨(slots temp (leafMax + 1)).take (cut leafMax), new⟩ where
  isLeaf := hp.isLeaf
  parent := hp.parent
  next := rfl
  recs := by
    have hle : cut leafMax ≤ leafMax + 1 := by decide
    rw [slots_clearKeys, slots_blit_take _ _ hle]

/-- The right leaf, on a cleared page. -/
theorem dropHalf (hp : p.IsTip par l) :
    Page.IsTip { Page.zero with
      isLeaf := true
      records := Table.clearKeys
        (blit Page.zero.records 0 temp (cut leafMax) (leafMax + 1 - cut leafMax))
        (Page.zero.numOfKeys + (leafMax + 1 - cut leafMax))
      numOfKeys := Page.zero.numOfKeys + (leafMax + 1 - cut leafMax)
      nextOffset := p.nextOffset
      parentPageOffset := p.parentPageOffset }
      par ⟨(slots temp (leafMax + 1)).drop (cut leafMax), l.next⟩ where
  isLeaf := rfl
  parent := hp.parent
  next := hp.next
  recs := by
    simp only [Page.zero, Nat.zero_add]
    rw [slots_clearKeys, slots_blit_drop]

end Page.IsTip

namespace Stored

variable {t : Table} {H : ℕ} {c : Ctx ℤ ℕ Leaf 0 H} {l : PageTree 0}

/-- `insert_into_leaf_as` splits the leaf. -/
theorem insertIntoLeafAs (hT : Stored t (c.plug l))
    (hc : c.Sized leafOk (cut internalMax) internalMax (label l)) (inst : Record) :
    ∃ x xs t', (splitRecords (t.disk.pages (label l)) inst).drop (cut leafMax) = x :: xs ∧
      t.insertIntoLeafAs (label l) inst = .ok t' ∧
      Stored t' (splitLeaf c l (splitRecords (t.disk.pages (label l)) inst) x.key).2 := by
  let n := (PerfectTree.labels (c.plug l)).length
  let ol := t.disk.pages (label l)
  let temp := update (spread ol.records (scan (fun i => ¬(ol.records i).key < inst.key) leafMax)
    ol.numOfKeys fun _ => .zero) (scan (fun i => ¬(ol.records i).key < inst.key) leafMax) inst
  let nl : Page := { Page.zero with
    isLeaf := true
    records := Table.clearKeys
      (blit Page.zero.records 0 temp (cut leafMax) (leafMax + 1 - cut leafMax))
      (Page.zero.numOfKeys + (leafMax + 1 - cut leafMax))
    numOfKeys := Page.zero.numOfKeys + (leafMax + 1 - cut leafMax)
    nextOffset := ol.nextOffset
    parentPageOffset := ol.parentPageOffset }
  let ol' : Page := { ol with
    records := Table.clearKeys (blit ol.records 0 temp 0 (cut leafMax)) (cut leafMax)
    numOfKeys := cut leafMax
    nextOffset := pageOffset n }
  let left : Tip ℕ Leaf := ⟨label l, ⟨(slots temp (leafMax + 1)).take (cut leafMax), pageOffset n⟩⟩
  let right : Tip ℕ Leaf :=
    ⟨pageOffset n, ⟨(slots temp (leafMax + 1)).drop (cut leafMax), l.data.next⟩⟩
  have hleft : ol'.IsTip c.parent left.data := hT.leaf.takeHalf (pageOffset n)
  have hright : nl.IsTip c.parent right.data := hT.leaf.dropHalf
  -- The first key of the right leaf goes up.
  have hlen : cut leafMax < (slots temp (leafMax + 1)).length := by
    rw [length_slots]
    decide
  have hkey : nl.records 0 = (slots temp (leafMax + 1))[cut leafMax] := by
    rw [hright.records (by simp only [right, List.length_drop]; omega)]
    simp [right]
  -- The table after the writes of both leaves.
  have hs₀ : Sound t n := hT.sound
  obtain ⟨t₁, hnew, hs, hpages, hrpo, hrt⟩ := hs₀.newPage
  let t₂ := (t₁.pwritePage (pageOffset n) nl).pwritePage (label l) ol'
  have hlmem : label l ∈ offsets n := hT.mem_offsets (label_mem_labels_plug c l)
  have hmem : ∀ a ∈ offsets n, a ∈ offsets (n + 1) := fun a ha => by simp [offsets_succ, ha]
  have hnewmem : pageOffset n ∈ offsets (n + 1) := by simp [offsets_succ]
  have hfresh : ∀ a ∈ offsets n, a ≠ pageOffset n := fun a ha he => not_mem_offsets n (he ▸ ha)
  have hnd := (labels_plug c l).nodup_iff.1 hT.nodup
  have hp₂ : Pending t₂ (n + 1) c left right := by
    refine ⟨(hs.pwritePage hnewmem nl).pwritePage (hmem _ hlmem) ol', ?_, ?_, ?_, ?_, ?_, ?_⟩
    · obtain ⟨rt, hrt', hpos⟩ := hT.rooted
      exact ⟨rt, hrt.trans hrt', hpos⟩
    · exact hrpo.trans (hT.root.trans (label_plug c rfl))
    · have hperm := (labels_plug c l).symm.trans hT.labels
      rw [offsets_succ]
      exact (List.Perm.swap (pageOffset n) (label l) c.labels).trans
        ((hperm.cons _).trans (List.perm_append_singleton _ _).symm)
    · refine RepCtx.congr (rep_plug.1 hT.rep).1 fun a ha => ?_
      have hal : a ≠ label l :=
        ((List.nodup_append.1 hnd).2.2 _ (label_mem_labels l) a ha).symm
      have han : a ≠ pageOffset n := by
        refine hfresh a (hT.mem_offsets ((labels_plug c l).mem_iff.2 ?_))
        exact List.mem_append_right _ ha
      simp [t₂, hal, han, hpages]
    · change (t₂.disk.pages (label l)).IsTip _ _
      simpa [t₂] using hleft
    · change (t₂.disk.pages (pageOffset n)).IsTip _ _
      simpa [t₂, (hfresh _ hlmem).symm] using hright
  have hfuel : H < 0 + t₂.disk.size := by
    have h₁ := hp₂.sound.size
    have h₂ := height_lt_length_labels (c.plug l)
    rw [h₁, pageOffset_eq]
    omega
  obtain ⟨t', ht', hT'⟩ := hp₂.insertIntoParent hc (nl.records 0).key hfuel
  refine ⟨_, _, t', List.drop_eq_getElem_cons hlen, ?_, ?_⟩
  · rw [← ht', Table.insertIntoLeafAs, hnew, ok_bind]
    dsimp only
    rw [hs.page hnewmem, ok_bind, hs.page (hmem _ hlmem), ok_bind, hpages, update_self,
      update_of_ne (hfresh _ hlmem)]
    rfl
  · rw [hkey] at hT'
    exact hT'

end Stored

end CourseProjects.BPlusTree
