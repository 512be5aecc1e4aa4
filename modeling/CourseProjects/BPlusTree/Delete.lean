import CourseProjects.BPlusTree.Insert

/-!
# Deletion

The deletion functions of `bpt.c`: `remove_entry_from_page` with its logical
deletion, `delete_entry`, and what it falls back on when a page gets too small
(`coalesce_pages`, `redistribute_pages`, `adjust_root`). `delete_entry` and
`coalesce_pages` call each other, one level up each time, which the argument
`fuel` bounds. The functions that reclaim pages log that they ran.
-/

namespace CourseProjects.BPlusTree

open Slots Function

/-- `p->b_f[i].key = key`. -/
def Page.setSeparator (p : Page) (i : ℕ) (key : ℤ) : Page :=
  { p with bF := update p.bF i { p.bF i with key := key } }

/-- `p->records[i].logical_del = 1`. -/
def Page.markDeleted (p : Page) (i : ℕ) : Page :=
  { p with records := update p.records i { p.records i with logicalDel := true } }

namespace Table

/-- `remove_entry_from_page`: the search for the key is bounded by the slots of
    the page only. A record of a leaf that would get too small is only marked
    as deleted. -/
def removeEntryFromPage (t : Table) (key : ℤ) (deloff : ℕ) : Except Fault Table := do
  let lp ← t.page deloff
  if lp.isLeaf then
    let check := cut leafMax
    let i := scan (fun i => (lp.records i).key = key) recordSlots
    if i = recordSlots then throw .outOfPage
    else if lp.numOfKeys - 1 < check then
      pure (t.pwritePage deloff (lp.markDeleted i))
    else
      let t := t.pwritePage deloff { lp with
        records := shiftDown lp.records i lp.numOfKeys
        numOfKeys := lp.numOfKeys - 1 }
      pure (if deloff = t.hp.rpo then { t with rt := t.loadPage deloff } else t)
  else
    let i := scan (fun i => (lp.bF i).key = key) interSlots
    if i = interSlots then throw .outOfPage
    else
      let t := t.pwritePage deloff { lp with
        bF := shiftDown lp.bF i lp.numOfKeys
        numOfKeys := lp.numOfKeys - 1 }
      pure (if deloff = t.hp.rpo then { t with rt := t.loadPage deloff } else t)

/-- `adjust_root`. -/
def adjustRoot (t : Table) : Except Fault Table :=
  match t.rt with
  | none => .error .nullRoot
  | some rt =>
    if 0 < rt.numOfKeys then pure t
    else if !rt.isLeaf then do
      let nr := rt.nextOffset
      let nroot ← t.page nr
      let t ← (t.log .adjustRoot).usetofree t.hp.rpo
      let t := { t with hp := { t.hp with rpo := nr } }.syncHeader
      let t := t.pwritePage nr { nroot with parentPageOffset := 0 }
      pure { t with rt := t.loadPage nr }
    else do
      let t ← { t.log .adjustRoot with rt := none }.usetofree t.hp.rpo
      pure { t with hp := { t.hp with rpo := 0 } }.syncFpo

/-- `redistribute_pages`. -/
def redistributePages (t : Table) (needMore : ℕ) (nborIndex : ℤ) (nborOff parOff : ℕ)
    (kPrime : ℤ) (kPrimeIndex : ℕ) : Except Fault Table := do
  let t := t.log .redistributePages
  let need ← t.page needMore
  let nbor ← t.page nborOff
  let parent ← t.page parOff
  let last := nbor.numOfKeys - 1
  let (t, need, nbor, parent) ←
    if nborIndex ≠ -2 then
      if !need.isLeaf then do
        let need := { need with
          bF := update (shiftUp need.bF 0 need.numOfKeys) 0 ⟨kPrime, need.nextOffset⟩
          nextOffset := (nbor.bF last).pOffset }
        let t ← setParent needMore t need.nextOffset
        pure (t, need, nbor, parent.setSeparator kPrimeIndex (nbor.bF last).key)
      else
        let need := { need with
          records := update (shiftUp need.records 0 need.numOfKeys) 0 (nbor.records last) }
        let nbor := { nbor with
          records := update nbor.records last { nbor.records last with key := 0 } }
        pure (t, need, nbor, parent.setSeparator kPrimeIndex (need.records 0).key)
    else
      if need.isLeaf then
        let need := { need with
          records := update need.records need.numOfKeys (nbor.records 0) }
        let nbor := { nbor with records := shiftDown nbor.records 0 nbor.numOfKeys }
        pure (t, need, nbor, parent.setSeparator kPrimeIndex (nbor.records 0).key)
      else do
        let need := { need with
          bF := update need.bF need.numOfKeys ⟨kPrime, nbor.nextOffset⟩ }
        let t ← setParent needMore t (need.bF need.numOfKeys).pOffset
        let parent := parent.setSeparator kPrimeIndex (nbor.bF 0).key
        let nbor := { nbor with
          nextOffset := (nbor.bF 0).pOffset
          bF := shiftDown nbor.bF 0 nbor.numOfKeys }
        pure (t, need, nbor, parent)
  let nbor := { nbor with numOfKeys := nbor.numOfKeys - 1 }
  let need := { need with numOfKeys := need.numOfKeys + 1 }
  pure (((t.pwritePage parOff parent).pwritePage nborOff nbor).pwritePage needMore need)

/-- `coalesce_pages`, given the `delete_entry` it calls on the parent. -/
def coalescePages (deleteEntry : Table → ℤ → ℕ → Except Fault Table) (t : Table)
    (willBeCoal : ℕ) (nborIndex : ℤ) (nborOff parOff : ℕ) (kPrime : ℤ) :
    Except Fault Table := do
  let t := t.log .coalescePages
  let (newp, wbf) := if nborIndex = -2 then (willBeCoal, nborOff) else (nborOff, willBeCoal)
  let wbc ← t.page wbf
  let nbor ← t.page newp
  let point := nbor.numOfKeys
  let le := wbc.numOfKeys
  let (t, nbor) ←
    if !wbc.isLeaf then do
      let nbor := { nbor with
        bF := blit (update nbor.bF point ⟨kPrime, wbc.nextOffset⟩) (point + 1) wbc.bF 0 le
        numOfKeys := point + 1 + le }
      let t ← (slots (fun i => (nbor.bF (point + i)).pOffset) (le + 1)).foldlM (setParent newp) t
      pure (t, nbor)
    else
      pure (t, { nbor with
        records := blit nbor.records point wbc.records 0 le
        numOfKeys := point + le
        nextOffset := wbc.nextOffset })
  let t := t.pwritePage newp nbor
  let t ← deleteEntry t kPrime parOff
  t.usetofree wbf

/-- `delete_entry`. -/
def deleteEntry : (fuel : ℕ) → Table → ℤ → ℕ → Except Fault Table
  | 0, _, _, _ => .error .endless
  | fuel + 1, t, key, deloff => do
    let t ← t.removeEntryFromPage key deloff
    if deloff = t.hp.rpo then t.adjustRoot
    else
      let notEnough ← t.page deloff
      let check := if notEnough.isLeaf then cut leafMax else cut internalMax
      if check ≤ notEnough.numOfKeys then pure t
      else
        let parentOffset := notEnough.parentPageOffset
        let parent ← t.page parentOffset
        let i := scan (fun i => (parent.bF i).pOffset = deloff) (parent.numOfKeys + 1)
        let (neighborIndex, neighborOffset, kPrime, kPrimeIndex) : ℤ × ℕ × ℤ × ℕ :=
          if parent.nextOffset = deloff then (-2, (parent.bF 0).pOffset, (parent.bF 0).key, 0)
          else if (parent.bF 0).pOffset = deloff then (-1, parent.nextOffset, (parent.bF 0).key, 0)
          else (i - 1, (parent.bF (i - 1)).pOffset, (parent.bF i).key, i)
        let neighbor ← t.page neighborOffset
        let max := if notEnough.isLeaf then leafMax else internalMax - 1
        if neighbor.numOfKeys + notEnough.numOfKeys ≤ max then
          coalescePages (deleteEntry fuel) t deloff neighborIndex neighborOffset parentOffset kPrime
        else
          t.redistributePages deloff neighborIndex neighborOffset parentOffset kPrime kPrimeIndex

end Table

/-! ### The two parts of `delete_entry` -/

/-- The choice of the neighbour in `delete_entry`: its index, its offset, the
    separator and its index. -/
def Page.neighborOf (parent : Page) (deloff : ℕ) : ℤ × ℕ × ℤ × ℕ :=
  let i := scan (fun i => (parent.bF i).pOffset = deloff) (parent.numOfKeys + 1)
  if parent.nextOffset = deloff then (-2, (parent.bF 0).pOffset, (parent.bF 0).key, 0)
  else if (parent.bF 0).pOffset = deloff then (-1, parent.nextOffset, (parent.bF 0).key, 0)
  else (i - 1, (parent.bF (i - 1)).pOffset, (parent.bF i).key, i)

/-- `delete_entry` after the removal. -/
def Table.afterRemoval (deleteEntry : Table → ℤ → ℕ → Except Fault Table) (t : Table)
    (deloff : ℕ) : Except Fault Table := do
  if deloff = t.hp.rpo then t.adjustRoot
  else
    let notEnough ← t.page deloff
    let check := if notEnough.isLeaf then cut leafMax else cut internalMax
    if check ≤ notEnough.numOfKeys then pure t
    else
      let parentOffset := notEnough.parentPageOffset
      let parent ← t.page parentOffset
      let (neighborIndex, neighborOffset, kPrime, kPrimeIndex) := parent.neighborOf deloff
      let neighbor ← t.page neighborOffset
      let max := if notEnough.isLeaf then leafMax else internalMax - 1
      if neighbor.numOfKeys + notEnough.numOfKeys ≤ max then
        coalescePages deleteEntry t deloff neighborIndex neighborOffset parentOffset kPrime
      else
        t.redistributePages deloff neighborIndex neighborOffset parentOffset kPrime kPrimeIndex

theorem Table.deleteEntry_succ (fuel : ℕ) (t : Table) (key : ℤ) (deloff : ℕ) :
    t.deleteEntry (fuel + 1) key deloff =
      t.removeEntryFromPage key deloff >>= fun t => t.afterRemoval (deleteEntry fuel) deloff := rfl

end CourseProjects.BPlusTree
