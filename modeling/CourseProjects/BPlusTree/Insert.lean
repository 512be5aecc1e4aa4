import CourseProjects.BPlusTree.Page

/-!
# Search and insertion

`find_leaf`, `db_find` and the insertion functions of `bpt.c`, statement by
statement. An insertion works its way up from the leaf by the
`parent_page_offset` of the pages: `insert_into_parent` and
`insert_into_internal_as` call each other, one level up each time, which the
argument `fuel` bounds.
-/

namespace CourseProjects.BPlusTree

open Slots Function

/-- `cut`. -/
def cut (length : ℕ) : ℕ := if length % 2 = 0 then length / 2 else length / 2 + 1

/-- The child of the internal page `p` that `find_leaf` follows for `key`. -/
def Page.childFor (p : Page) (key : ℤ) : ℕ :=
  let i := scan (fun i => ¬(p.bF i).key ≤ key) p.numOfKeys
  if i = 0 then p.nextOffset else (p.bF (i - 1)).pOffset

/-- The index at which the search of a leaf for `key` ends. -/
def Page.keyIndex (p : Page) (key : ℤ) : ℕ :=
  scan (fun i => (p.records i).key = key) p.numOfKeys

namespace Table

/-- The loop of `find_leaf`, from the page at `loc`. -/
def findLeafFrom (t : Table) (key : ℤ) : (fuel : ℕ) → (loc : ℕ) → Except Fault ℕ
  | 0, _ => .error .endless
  | fuel + 1, loc => do
    let p ← t.page loc
    if p.isLeaf then pure loc else t.findLeafFrom key fuel (p.childFor key)

/-- `find_leaf`. -/
def findLeaf (t : Table) (key : ℤ) : Except Fault ℕ :=
  match t.rt with
  | none => pure 0
  | some _ => t.findLeafFrom key t.disk.size t.hp.rpo

/-- `db_find`: the slot at which the search ends is checked for a logical
    deletion before it is checked to be in use. -/
def dbFind (t : Table) (key : ℤ) : Except Fault (Option Value) := do
  let fin ← t.findLeaf key
  let p ← t.page fin
  let i := p.keyIndex key
  if (p.records i).logicalDel then pure none
  else if i = p.numOfKeys then pure none
  else pure (some (p.records i).value)

/-- `start_new_file`. -/
def startNewFile (t : Table) (rec : Record) : Except Fault Table := do
  let (ro, t) ← t.newPage
  let rt ← t.page ro
  let t := { t with hp := { t.hp with rpo := ro } }.syncHeader
  let rt := { rt with numOfKeys := 1, isLeaf := true, records := update rt.records 0 rec }
  let t := t.pwritePage t.hp.rpo rt
  pure { t with rt := t.loadPage t.hp.rpo }

/-- `insert_into_leaf`. -/
def insertIntoLeaf (t : Table) (leaf : ℕ) (inst : Record) : Except Fault Table := do
  let p ← t.page leaf
  let insertionPoint := scan (fun i => ¬(p.records i).key < inst.key) p.numOfKeys
  pure (t.pwritePage leaf { p with
    records := update (shiftUp p.records insertionPoint p.numOfKeys) insertionPoint inst
    numOfKeys := p.numOfKeys + 1 })

/-- `get_left_index`. -/
def getLeftIndex (t : Table) (left : ℕ) : Except Fault ℤ := do
  let child ← t.page left
  let parent ← t.page child.parentPageOffset
  if left = parent.nextOffset then pure (-1)
  else
    let i := scan (fun i => (parent.bF i).pOffset = left) parent.numOfKeys
    if i = parent.numOfKeys then pure (-10) else pure i

/-- `insert_into_new_root`. -/
def insertIntoNewRoot (t : Table) (old : ℕ) (key : ℤ) (newp : ℕ) :
    Except Fault Table := do
  let (newRoot, t) ← t.newPage
  let nr ← t.page newRoot
  let nr := { nr with
    bF := update nr.bF 0 ⟨key, newp⟩
    nextOffset := old
    numOfKeys := nr.numOfKeys + 1 }
  let left ← t.page old
  let right ← t.page newp
  let t := t.pwritePage newRoot nr
  let t := t.pwritePage old { left with parentPageOffset := newRoot }
  let t := t.pwritePage newp { right with parentPageOffset := newRoot }
  let t := { t with rt := t.loadPage newRoot, hp := { t.hp with rpo := newRoot } }
  pure t.syncHeader

/-- The slot after `left_index`, which must lie in the page. -/
def slotAfter (leftIndex : ℤ) : Except Fault ℕ :=
  if 0 ≤ leftIndex + 1 then pure (leftIndex + 1).toNat else throw .outOfPage

/-- `insert_into_internal`. -/
def insertIntoInternal (t : Table) (bumo : ℕ) (leftIndex : ℤ) (key : ℤ) (newp : ℕ) :
    Except Fault Table := do
  let parent ← t.page bumo
  let i ← slotAfter leftIndex
  let t := t.pwritePage bumo { parent with
    bF := update (shiftUp parent.bF i parent.numOfKeys) i ⟨key, newp⟩
    numOfKeys := parent.numOfKeys + 1 }
  pure (if bumo = t.hp.rpo then { t with rt := t.loadPage bumo } else t)

/-- Loads the page at `child`, sets its parent to `newp` and writes it back. -/
def setParent (newp : ℕ) (t : Table) (child : ℕ) : Except Fault Table := do
  let ch ← t.page child
  pure (t.pwritePage child { ch with parentPageOffset := newp })

/-- `insert_into_internal_as`, given the `insert_into_parent` it ends with. -/
def insertIntoInternalAs (insertIntoParent : Table → ℕ → ℤ → ℕ → Except Fault Table)
    (t : Table) (bumo : ℕ) (leftIndex : ℤ) (key : ℤ) (newp : ℕ) :
    Except Fault Table := do
  let oldParent ← t.page bumo
  let i ← slotAfter leftIndex
  let temp := update (spread oldParent.bF i oldParent.numOfKeys fun _ => .zero) i ⟨key, newp⟩
  let split := cut internalMax
  let (newP, t) ← t.newPage
  let newParent ← t.page newP
  let oldParent := { oldParent with bF := blit oldParent.bF 0 temp 0 split, numOfKeys := split }
  let kPrime := (temp split).key
  let newParent := { newParent with
    nextOffset := (temp split).pOffset
    bF := blit newParent.bF 0 temp (split + 1) (internalMax + 1 - (split + 1))
    numOfKeys := newParent.numOfKeys + (internalMax + 1 - (split + 1))
    parentPageOffset := oldParent.parentPageOffset }
  let t ← setParent newP t newParent.nextOffset
  let t ← (slots (fun i => (newParent.bF i).pOffset) newParent.numOfKeys).foldlM (setParent newP) t
  let t := t.pwritePage bumo oldParent
  let t := t.pwritePage newP newParent
  insertIntoParent t bumo kPrime newP

/-- `insert_into_parent`. -/
def insertIntoParent : (fuel : ℕ) → Table → ℕ → ℤ → ℕ → Except Fault Table
  | 0, _, _, _, _ => .error .endless
  | fuel + 1, t, old, key, newp => do
    let left ← t.page old
    let bumo := left.parentPageOffset
    if bumo = 0 then t.insertIntoNewRoot old key newp
    else
      let leftIndex ← t.getLeftIndex old
      let parent ← t.page bumo
      if parent.numOfKeys < internalMax then t.insertIntoInternal bumo leftIndex key newp
      else insertIntoInternalAs (insertIntoParent fuel) t bumo leftIndex key newp

/-- The records from `num_of_keys` up to `LEAF_MAX` get the key `0`. -/
def clearKeys (records : ℕ → Record) (numOfKeys : ℕ) : ℕ → Record := fun i =>
  if numOfKeys ≤ i ∧ i < leafMax then { records i with key := 0 } else records i

/-- `insert_into_leaf_as`: whatever the number of records in the leaf, the split
    is that of `LEAF_MAX + 1` records. -/
def insertIntoLeafAs (t : Table) (leaf : ℕ) (inst : Record) : Except Fault Table := do
  let (newLeaf, t) ← t.newPage
  let nl ← t.page newLeaf
  let ol ← t.page leaf
  let insertionIndex := scan (fun i => ¬(ol.records i).key < inst.key) leafMax
  let temp := update (spread ol.records insertionIndex ol.numOfKeys fun _ => .zero)
    insertionIndex inst
  let split := cut leafMax
  let nlKeys := nl.numOfKeys + (leafMax + 1 - split)
  let nl := { nl with
    isLeaf := true
    records := clearKeys (blit nl.records 0 temp split (leafMax + 1 - split)) nlKeys
    numOfKeys := nlKeys
    nextOffset := ol.nextOffset
    parentPageOffset := ol.parentPageOffset }
  let ol := { ol with
    records := clearKeys (blit ol.records 0 temp 0 split) split
    numOfKeys := split
    nextOffset := newLeaf }
  let t := t.pwritePage newLeaf nl
  let t := t.pwritePage leaf ol
  insertIntoParent t.disk.size t leaf (nl.records 0).key newLeaf

end Table

end CourseProjects.BPlusTree
