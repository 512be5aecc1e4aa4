import CourseProjects.BPlusTree.Delete

/-!
# Calls on a table

`db_insert` and `db_delete`, the calls on a table, and their runs.
-/

namespace CourseProjects.BPlusTree

open Slots

namespace Table

/-- The purge of `db_insert`: `delete_entry` on every key that is logically
    deleted in `leafp`, a copy of the leaf read before the loop. -/
def purge (t : Table) (leaf : ℕ) (leafp : Page) : Except Fault Table :=
  (List.range leafp.numOfKeys).foldlM (fun t i =>
    if (leafp.records i).logicalDel then deleteEntry t.disk.size t (leafp.records i).key leaf
    else pure t) t

/-- `db_insert`: whether the leaf is full is decided on the copy `leafp` read
    before the purge. -/
def dbInsert (t : Table) (key : ℤ) (value : Value) : Except Fault (ℤ × Table) := do
  let nr : Record := ⟨key, false, value⟩
  if t.rt.isNone then
    let t ← t.startNewFile nr
    pure (0, t)
  else
    let dupcheck ← t.dbFind key
    if dupcheck.isSome then pure (-1, t)
    else
      let leaf ← t.findLeaf key
      let leafp ← t.page leaf
      let t ← if leafMax ≤ leafp.numOfKeys then t.purge leaf leafp else pure t
      if leafp.numOfKeys < leafMax then
        let t ← t.insertIntoLeaf leaf nr
        pure (0, t)
      else
        let t ← t.insertIntoLeafAs leaf nr
        pure (0, t)

/-- `db_delete`. -/
def dbDelete (t : Table) (key : ℤ) : Except Fault (ℤ × Table) :=
  match t.rt with
  | none => .error .nullRoot
  | some rt =>
    if rt.numOfKeys = 0 then pure (-1, t)
    else do
      let check ← t.dbFind key
      if check.isNone then pure (-1, t)
      else
        let deloff ← t.findLeaf key
        let t ← deleteEntry t.disk.size t key deloff
        pure (0, t)

end Table

/-- A call on a table. -/
inductive Call
  | insert (key : ℤ) (value : Value)
  | delete (key : ℤ)
  | find (key : ℤ)
  deriving DecidableEq

/-- What a call returns: a status, or the value found. -/
inductive Ret
  | status (r : ℤ)
  | found (v : Option Value)
  deriving DecidableEq

/-- One call. -/
def Table.call (t : Table) : Call → Except Fault (Ret × Table)
  | .insert key value => do
    let (r, t) ← t.dbInsert key value
    pure (.status r, t)
  | .delete key => do
    let (r, t) ← t.dbDelete key
    pure (.status r, t)
  | .find key => do
    let v ← t.dbFind key
    pure (.found v, t)

end CourseProjects.BPlusTree
