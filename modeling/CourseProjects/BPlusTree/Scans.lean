import CourseProjects.BPlusTree.Shape

/-!
# The search of a removal

`remove_entry_from_page` looks for the key without a bound. A removal that is an error when its
search does not stop at an entry of the page (`removeEntryChecked`) checks this wherever it is called:
`db_insert` and `db_delete` are given here with the deletion as a parameter, which is `delete_entry`
in the program (`callWith_deleteEntry`), or `delete_entry` with the checked removal.

* `run_checked`: the runs that start with an insertion are the same with it, and come to no error.
-/

namespace CourseProjects.BPlusTree

open Slots PerfectTree

/-- Where the search of a removal stops. -/
def Page.searchEnd (lp : Page) (key : ℤ) : ℕ :=
  if lp.isLeaf then scan (fun i => (lp.records i).key = key) recordSlots
  else scan (fun i => (lp.bF i).key = key) interSlots

namespace Table

/-- `remove_entry_from_page`, where the search has to stop below the number of keys. -/
def removeEntryChecked (t : Table) (key : ℤ) (deloff : ℕ) : Except Fault Table := do
  let lp ← t.page deloff
  if lp.searchEnd key < lp.numOfKeys then t.removeEntryFromPage key deloff else throw .outOfPage

/-- `delete_entry` with the removal `remove`. -/
def deleteEntryWith (remove : Table → ℤ → ℕ → Except Fault Table) :
    (fuel : ℕ) → Table → ℤ → ℕ → Except Fault Table
  | 0, _, _, _ => .error .endless
  | fuel + 1, t, key, deloff => do
    let t ← remove t key deloff
    t.afterRemoval (deleteEntryWith remove fuel) deloff

section Calls

variable (delete : Table → ℤ → ℕ → Except Fault Table)

/-- The purge of `db_insert` with the deletion `delete`. -/
def purgeWith (t : Table) (leaf : ℕ) (leafp : Page) : Except Fault Table :=
  (List.range leafp.numOfKeys).foldlM (fun t i =>
    if (leafp.records i).logicalDel then delete t (leafp.records i).key leaf else pure t) t

/-- `db_insert` with the deletion `delete`. -/
def dbInsertWith (t : Table) (key : ℤ) (value : Value) : Except Fault (ℤ × Table) := do
  let nr : Record := ⟨key, false, value⟩
  if t.rt.isNone then
    let t ← t.startNewFile nr
    pure (0, t)
  else
    let dupcheck ← t.dbFind key
    if dupcheck.isSome then pure (-1, t)
    else
      let leaf ← t.findLeaf key
      let leafp ← t.page leaf
      let t ← if leafMax ≤ leafp.numOfKeys then t.purgeWith delete leaf leafp else pure t
      if leafp.numOfKeys < leafMax then
        let t ← t.insertIntoLeaf leaf nr
        pure (0, t)
      else
        let t ← t.insertIntoLeafAs leaf nr
        pure (0, t)

/-- `db_delete` with the deletion `delete`. -/
def dbDeleteWith (t : Table) (key : ℤ) : Except Fault (ℤ × Table) :=
  match t.rt with
  | none => .error .nullRoot
  | some rt =>
    if rt.numOfKeys = 0 then pure (-1, t)
    else do
      let check ← t.dbFind key
      if check.isNone then pure (-1, t)
      else
        let deloff ← t.findLeaf key
        let t ← delete t key deloff
        pure (0, t)

/-- A call with the deletion `delete`. -/
def callWith (t : Table) : Call → Except Fault (Ret × Table)
  | .insert key value => do
    let (r, t) ← t.dbInsertWith delete key value
    pure (.status r, t)
  | .delete key => do
    let (r, t) ← t.dbDeleteWith delete key
    pure (.status r, t)
  | .find key => do
    let v ← t.dbFind key
    pure (.found v, t)

end Calls

/-- A call where each removal is checked. -/
def callChecked : Table → Call → Except Fault (Ret × Table) :=
  callWith fun t key off => t.deleteEntryWith removeEntryChecked t.disk.size key off

theorem deleteEntryWith_removeEntryFromPage (fuel : ℕ) :
    deleteEntryWith removeEntryFromPage fuel = deleteEntry fuel := by
  induction fuel with
  | zero => rfl
  | succ fuel ih =>
    funext t key deloff
    rw [deleteEntryWith, deleteEntry_succ, ih]

/-- With `delete_entry`, the calls are those of the program. -/
theorem callWith_deleteEntry :
    callWith (fun t key off => deleteEntry t.disk.size t key off) = call := by
  funext t c
  cases c <;> rfl

end Table

/-! ### The checks succeed -/

namespace Stored

variable {t : Table} {H : ℕ} {c : Ctx ℤ ℕ Leaf 0 H} {l : PageTree 0}

/-- The search for a key of a leaf stops at one of its records. -/
theorem removeEntryChecked (hT : Stored t (c.plug l)) {key : ℤ}
    (hkey : ∃ r ∈ l.data.recs, r.key = key) (hlen : l.data.recs.length ≤ leafMax) :
    t.removeEntryChecked key (label l) = t.removeEntryFromPage key (label l) := by
  have hend : (t.disk.pages (label l)).searchEnd key < (t.disk.pages (label l)).numOfKeys := by
    rw [Page.searchEnd, if_pos hT.leaf.isLeaf, hT.leaf.scan_key hkey hlen, hT.leaf.numOfKeys,
      List.findIdx_lt_length]
    simpa using hkey
  rw [Table.removeEntryChecked, hT.leaf_page, ok_bind, if_pos hend]

theorem deleteEntryChecked (hT : Stored t (c.plug l)) {key : ℤ}
    (hkey : ∃ r ∈ l.data.recs, r.key = key) (hl : leafOk c.parent.isNone l.data) (fuel : ℕ) :
    t.deleteEntryWith Table.removeEntryChecked fuel key (label l) =
      t.deleteEntry fuel key (label l) := by
  cases fuel with
  | zero => rfl
  | succ fuel =>
    obtain ⟨t', ht', hT'⟩ := hT.removeEntryFromPage hkey hl.2
    have hafter := hT'.afterRemoval (hl.removeKey hkey l.data.next)
    rw [Table.deleteEntryWith, Table.deleteEntry_succ, hT.removeEntryChecked hkey hl.2, ht', ok_bind,
      ok_bind]
    exact (hafter _).trans (hafter _).symm

/-- Deleting keys of a leaf, as many times as it has them at most. -/
theorem deleteEntriesChecked (hT : Stored t (c.plug l)) (hl : leafOk c.parent.isNone l.data)
    {ks : List ℤ} (hks : ks.Subperm (l.data.recs.map Record.key)) :
    ks.foldlM (fun t key =>
        Table.deleteEntryWith Table.removeEntryChecked t.disk.size t key (label l)) t =
      ks.foldlM (fun t key => Table.deleteEntry t.disk.size t key (label l)) t := by
  induction ks generalizing t l with
  | nil => rfl
  | cons k ks ih =>
    have hkey : ∃ r ∈ l.data.recs, r.key = k := by
      simpa using hks.subset List.mem_cons_self
    obtain ⟨t₁, ht₁, hT₁⟩ := hT.deleteEntry hkey hl hT.size_pos
    rw [List.foldlM_cons, List.foldlM_cons, hT.deleteEntryChecked hkey hl, ht₁, ok_bind, ok_bind]
    exact ih (l := ⟨label l, ⟨removeKey k l.data.recs, l.data.next⟩⟩) hT₁ (hl.removeKey hkey _)
      (subperm_keys_removeKey hkey hks)

theorem purgeChecked (hT : Stored t (c.plug l)) (hl : leafOk c.parent.isNone l.data) :
    t.purgeWith (fun t key off => t.deleteEntryWith Table.removeEntryChecked t.disk.size key off)
        (label l) (t.disk.pages (label l)) =
      t.purge (label l) (t.disk.pages (label l)) := by
  have hsub := ((List.filter_sublist (p := Record.logicalDel) (l := l.data.recs)).map
    Record.key).subperm
  have hkeys := hT.deleteEntriesChecked hl hsub
  rw [← hT.leaf.recs, slots, List.foldlM_map, List.foldlM_filter, List.foldlM_map,
    List.foldlM_map, List.foldlM_filter, List.foldlM_map] at hkeys
  exact hkeys

/-- A call on a table that stores a tree is the same with its removals checked. -/
theorem callChecked {T : PageTree H} (hT : Stored t T) (hs : Shaped T) (call : Call) :
    t.callChecked call = t.call call := by
  obtain ⟨c, l, rfl, -, hfind⟩ := findLeaf_stored hT call.key
  have hl : leafOk c.parent.isNone l.data := (sized_plug.1 hs).2
  cases call with
  | insert key value =>
    have hfind : t.findLeaf key = .ok (label l) := hfind
    rw [Table.callChecked, Table.callWith, Table.call, Table.dbInsertWith, Table.dbInsert, hfind,
      ok_bind, hT.leaf_page, ok_bind, ok_bind, hT.leaf_page, ok_bind, hT.purgeChecked hl]
  | delete key =>
    have hfind : t.findLeaf key = .ok (label l) := hfind
    obtain ⟨rt, hrt, hpos⟩ := hT.rooted
    simp only [Table.callChecked, Table.callWith, Table.call, Table.dbDeleteWith, Table.dbDelete, hrt,
      hpos.ne', if_false, dbFind_stored hT hfind, ok_bind, hfind]
    cases hfound : lookup l.data.recs key with
    | none => rfl
    | some v =>
      have hkey : ∃ r ∈ l.data.recs, r.key = key := exists_of_lookup (by simp [hfound])
      rw [hT.deleteEntryChecked hkey hl]
  | find key => rfl

end Stored

/-- A run from a table with the invariant is the same with its removals checked. -/
theorem Grown.run_callChecked {t : Table} (hg : Grown t) (cs : List Call) :
    Run.run Table.callChecked t cs = Run.run Table.call t cs := by
  induction cs generalizing t with
  | nil => rw [Run.run_nil, Run.run_nil]
  | cons c cs ih =>
    obtain ⟨H, T, hT, hs, -⟩ := id hg
    obtain ⟨r, t', hcall, hg', -⟩ := hg.call c
    rw [Run.run_cons_ok hcall, Run.run_cons_ok ((hT.callChecked hs c).trans hcall), ih hg']

/-- The first insertion removes nothing. -/
theorem callChecked_of_none {t : Table} (h : t.rt.isNone = true) (key : ℤ) (value : Value) :
    t.callChecked (.insert key value) = t.call (.insert key value) := by
  rw [Table.callChecked, Table.callWith, Table.call, Table.dbInsertWith, Table.dbInsert, if_pos h,
    if_pos h]

/-- In every run that starts with an insertion, each call of `remove_entry_from_page` stops its
    search at an entry of the page. -/
theorem run_checked (key : ℤ) (value : Value) (cs : List Call) :
    ∃ rs t, Run.run Table.callChecked freshTable (.insert key value :: cs) = .ok (rs, t) ∧
      Run.run Table.call freshTable (.insert key value :: cs) = .ok (rs, t) := by
  obtain ⟨t₁, ht₁, hg⟩ := grown_insert key value
  obtain ⟨rs, t, ht, -, -⟩ := hg.run cs
  have hrun : Run.run Table.call freshTable (.insert key value :: cs) = .ok (.status 0 :: rs, t) := by
    rw [Run.run_cons_ok ht₁, ht]
    rfl
  refine ⟨_, t, ?_, hrun⟩
  rw [Run.run_cons_ok ((callChecked_of_none rfl key value).trans ht₁), hg.run_callChecked, ht]
  rfl

end CourseProjects.BPlusTree
