import CourseProjects.BPlusTree.Shape

/-!
# Closing and reopening a table

A new process reads the header and the root page anew; the copies a running one
holds may differ from those: `rt` is refreshed on some paths only. Nothing depends
on it: the calls look at `rt` only to see whether there is a root, and whether it
is empty (`Alike`), so tables with the same file and header whose copies of the
root agree that far return the same along every run (`Alike.results`). After
every call of a run, the reopened table is alike (`run_reopens`).
-/

namespace CourseProjects.BPlusTree

open Slots Function Run

/-- The file and the header are the same, and so is the copy of the root page, as
    far as the code looks at it: a root that is not empty is never read. -/
structure Alike (t t' : Table) : Prop where
  disk : t.disk = t'.disk
  hp : t.hp = t'.hp
  rt : t.rt = t'.rt ∨ ∃ r r', t.rt = some r ∧ t'.rt = some r' ∧ 0 < r.numOfKeys ∧ 0 < r'.numOfKeys

namespace Alike

variable {t t' : Table}

theorem refl (t : Table) : Alike t t := ⟨rfl, rfl, .inl rfl⟩

theorem loadPage (h : Alike t t') (a : ℕ) : t.loadPage a = t'.loadPage a := by
  rw [Table.loadPage, Table.loadPage, h.disk]

theorem page (h : Alike t t') (a : ℕ) : t.page a = t'.page a := by
  rw [Table.page, Table.page, h.loadPage]

theorem pwritePage (h : Alike t t') (a : ℕ) (p : Page) :
    Alike (t.pwritePage a p) (t'.pwritePage a p) :=
  ⟨by rw [Table.pwritePage, Table.pwritePage, h.disk], h.hp, h.rt⟩

theorem syncHeader (h : Alike t t') : Alike t.syncHeader t'.syncHeader :=
  ⟨by rw [Table.syncHeader, Table.syncHeader, h.disk, h.hp], h.hp, h.rt⟩

theorem syncFpo (h : Alike t t') : Alike t.syncFpo t'.syncFpo :=
  ⟨by simp only [Table.syncFpo, h.disk, h.hp], by simp only [Table.syncFpo, h.disk, h.hp], h.rt⟩

theorem log (h : Alike t t') (r : Reclaim) : Alike (t.log r) (t'.log r) := ⟨h.disk, h.hp, h.rt⟩

theorem setHp (h : Alike t t') (hp : HeaderPage) : Alike { t with hp := hp } { t' with hp := hp } :=
  ⟨h.disk, rfl, h.rt⟩

theorem setRt (h : Alike t t') (rt : Option Page) : Alike { t with rt := rt } { t' with rt := rt } :=
  ⟨h.disk, h.hp, .inl rfl⟩

theorem isNone (h : Alike t t') : t.rt.isNone = t'.rt.isNone := by
  rcases h.rt with h | ⟨r, r', h, h', -, -⟩
  · rw [h]
  · rw [h, h']
    rfl

/-! ### The functions on single pages -/

theorem freetouse (h : Alike t t') (a : ℕ) : Rel Alike (t.freetouse a) (t'.freetouse a) := by
  rw [Table.freetouse, Table.freetouse, h.page]
  exact .bind_same _ fun p => .ok (h.pwritePage _ _)

theorem usetofree (h : Alike t t') (a : ℕ) : Rel Alike (t.usetofree a) (t'.usetofree a) := by
  rw [Table.usetofree, Table.usetofree, h.page]
  refine .bind_same _ fun p => .ok ?_
  have h₁ := ((h.log .usetofree).pwritePage a { p with
    parentPageOffset := t'.hp.fpo, isLeaf := false, numOfKeys := 0, nextOffset := 0 })
  rw [← h.hp] at h₁ ⊢
  exact (h₁.setHp _).syncFpo

/-- The relation of two results with their tables. -/
abbrev Pair {α : Type} (p p' : α × Table) : Prop := p.1 = p'.1 ∧ Alike p.2 p'.2

theorem newPage (h : Alike t t') : Rel Pair t.newPage t'.newPage := by
  rw [Table.newPage, Table.newPage]
  by_cases hfpo : t'.hp.fpo ≠ 0
  · rw [if_pos (h.hp ▸ hfpo), if_pos hfpo]
    dsimp only
    rw [h.page, h.hp]
    refine .bind_same _ fun np => ?_
    exact ((h.setHp _).syncFpo.freetouse _).bind fun a b hab => .ok ⟨rfl, hab⟩
  · rw [if_neg (h.hp ▸ hfpo), if_neg hfpo]
    dsimp only
    rw [h.disk, Table.reset, Table.reset]
    have h₁ := h.pwritePage t'.disk.size .zero
    rw [h₁.hp]
    exact .ok ⟨rfl, (h₁.setHp _).syncHeader⟩

/-- Refreshing the copy of the root page. -/
theorem refresh (h : Alike t t') (a : ℕ) :
    Alike { t with rt := t.loadPage a } { t' with rt := t'.loadPage a } :=
  ⟨h.disk, h.hp, .inl (h.loadPage a)⟩

/-- Refreshing it if the page is the root. -/
theorem refreshIf (h : Alike t t') (a : ℕ) :
    Alike (if a = t.hp.rpo then { t with rt := t.loadPage a } else t)
      (if a = t'.hp.rpo then { t' with rt := t'.loadPage a } else t') := by
  by_cases ha : a = t'.hp.rpo
  · rw [if_pos ha, if_pos (h.hp ▸ ha)]
    exact h.refresh a
  · rw [if_neg ha, if_neg (h.hp ▸ ha)]
    exact h

/-! ### Search and insertion -/

theorem findLeafFrom (h : Alike t t') (key : ℤ) (fuel loc : ℕ) :
    t.findLeafFrom key fuel loc = t'.findLeafFrom key fuel loc := by
  induction fuel generalizing loc with
  | zero => rfl
  | succ fuel ih => simp only [Table.findLeafFrom, h.page, ih]

theorem findLeaf (h : Alike t t') (key : ℤ) : t.findLeaf key = t'.findLeaf key := by
  have hfrom := h.findLeafFrom key t'.disk.size t'.hp.rpo
  rcases h.rt with hrt | ⟨r, r', hr, hr', -, -⟩
  · rw [Table.findLeaf, Table.findLeaf, hrt, h.disk, h.hp, hfrom]
  · rw [Table.findLeaf, Table.findLeaf, hr, hr', h.disk, h.hp, hfrom]

theorem dbFind (h : Alike t t') (key : ℤ) : t.dbFind key = t'.dbFind key := by
  simp only [Table.dbFind, h.findLeaf, h.page]

theorem startNewFile (h : Alike t t') (rec : Record) :
    Rel Alike (t.startNewFile rec) (t'.startNewFile rec) := by
  rw [Table.startNewFile, Table.startNewFile]
  refine h.newPage.bind ?_
  rintro ⟨ro, t⟩ ⟨ro', t'⟩ ⟨hro, h⟩
  obtain rfl : ro = ro' := hro
  dsimp only at h ⊢
  rw [h.page, h.hp]
  refine .bind_same _ fun rt => .ok ?_
  exact (((h.setHp _).syncHeader).pwritePage _ _).refresh _

theorem insertIntoLeaf (h : Alike t t') (leaf : ℕ) (inst : Record) :
    Rel Alike (t.insertIntoLeaf leaf inst) (t'.insertIntoLeaf leaf inst) := by
  rw [Table.insertIntoLeaf, Table.insertIntoLeaf, h.page]
  exact .bind_same _ fun p => .ok (h.pwritePage _ _)

theorem getLeftIndex (h : Alike t t') (left : ℕ) : t.getLeftIndex left = t'.getLeftIndex left := by
  simp only [Table.getLeftIndex, h.page]

theorem insertIntoNewRoot (h : Alike t t') (old : ℕ) (key : ℤ) (newp : ℕ) :
    Rel Alike (t.insertIntoNewRoot old key newp) (t'.insertIntoNewRoot old key newp) := by
  rw [Table.insertIntoNewRoot, Table.insertIntoNewRoot]
  refine h.newPage.bind ?_
  rintro ⟨a, t⟩ ⟨a', t'⟩ ⟨ha, h⟩
  obtain rfl : a = a' := ha
  dsimp only at h ⊢
  rw [h.page, h.page, h.page]
  refine .bind_same _ fun nr => .bind_same _ fun left => .bind_same _ fun right => .ok ?_
  have h₁ := ((h.pwritePage a { nr with
    bF := update nr.bF 0 ⟨key, newp⟩, nextOffset := old, numOfKeys := nr.numOfKeys + 1 }).pwritePage
    old { left with parentPageOffset := a }).pwritePage newp { right with parentPageOffset := a }
  rw [h₁.hp]
  exact ((h₁.refresh a).setHp _).syncHeader

theorem insertIntoInternal (h : Alike t t') (bumo : ℕ) (leftIndex key : ℤ) (newp : ℕ) :
    Rel Alike (t.insertIntoInternal bumo leftIndex key newp)
      (t'.insertIntoInternal bumo leftIndex key newp) := by
  rw [Table.insertIntoInternal, Table.insertIntoInternal, h.page]
  refine .bind_same _ fun parent => .bind_same _ fun i => .ok ?_
  exact (h.pwritePage _ _).refreshIf bumo

theorem setParent (h : Alike t t') (newp child : ℕ) :
    Rel Alike (Table.setParent newp t child) (Table.setParent newp t' child) := by
  rw [Table.setParent, Table.setParent, h.page]
  exact .bind_same _ fun ch => .ok (h.pwritePage _ _)

theorem setParents (h : Alike t t') (newp : ℕ) (l : List ℕ) :
    Rel Alike (l.foldlM (Table.setParent newp) t) (l.foldlM (Table.setParent newp) t') :=
  .foldlM (fun _ _ child h => h.setParent newp child) h

theorem insertIntoInternalAs {up : Table → ℕ → ℤ → ℕ → Except Fault Table}
    (hup : ∀ {t t'}, Alike t t' → ∀ old key newp, Rel Alike (up t old key newp) (up t' old key newp))
    (h : Alike t t') (bumo : ℕ) (leftIndex key : ℤ) (newp : ℕ) :
    Rel Alike (Table.insertIntoInternalAs up t bumo leftIndex key newp)
      (Table.insertIntoInternalAs up t' bumo leftIndex key newp) := by
  rw [Table.insertIntoInternalAs, Table.insertIntoInternalAs, h.page]
  refine .bind_same _ fun oldParent => .bind_same _ fun i => ?_
  refine h.newPage.bind ?_
  rintro ⟨a, t⟩ ⟨a', t'⟩ ⟨ha, h⟩
  obtain rfl : a = a' := ha
  dsimp only at h ⊢
  rw [h.page]
  refine .bind_same _ fun newParent => ?_
  refine (h.setParent _ _).bind fun t t' h => ?_
  refine (h.setParents _ _).bind fun t t' h => ?_
  exact hup ((h.pwritePage _ _).pwritePage _ _) _ _ _

theorem insertIntoParent (h : Alike t t') (fuel old : ℕ) (key : ℤ) (newp : ℕ) :
    Rel Alike (Table.insertIntoParent fuel t old key newp)
      (Table.insertIntoParent fuel t' old key newp) := by
  induction fuel generalizing t t' old key newp with
  | zero => exact .error _
  | succ fuel ih =>
    rw [Table.insertIntoParent, Table.insertIntoParent, h.page]
    refine .bind_same _ fun left => ?_
    dsimp only
    split
    · exact h.insertIntoNewRoot old key newp
    · rw [h.getLeftIndex, h.page]
      refine .bind_same _ fun leftIndex => .bind_same _ fun parent => ?_
      split
      · exact h.insertIntoInternal _ _ _ _
      · exact insertIntoInternalAs (fun h old key newp => ih h old key newp) h _ _ _ _

theorem insertIntoLeafAs (h : Alike t t') (leaf : ℕ) (inst : Record) :
    Rel Alike (t.insertIntoLeafAs leaf inst) (t'.insertIntoLeafAs leaf inst) := by
  rw [Table.insertIntoLeafAs, Table.insertIntoLeafAs]
  refine h.newPage.bind ?_
  rintro ⟨a, t⟩ ⟨a', t'⟩ ⟨ha, h⟩
  obtain rfl : a = a' := ha
  dsimp only at h ⊢
  rw [h.page, h.page]
  refine .bind_same _ fun nl => .bind_same _ fun ol => ?_
  have h₁ : ∀ p p', Alike ((t.pwritePage a p).pwritePage leaf p')
      ((t'.pwritePage a p).pwritePage leaf p') := fun p p' => (h.pwritePage a p).pwritePage leaf p'
  rw [(h₁ _ _).disk]
  exact (h₁ _ _).insertIntoParent _ _ _ _

/-! ### Deletion -/

theorem removeEntryFromPage (h : Alike t t') (key : ℤ) (deloff : ℕ) :
    Rel Alike (t.removeEntryFromPage key deloff) (t'.removeEntryFromPage key deloff) := by
  rw [Table.removeEntryFromPage, Table.removeEntryFromPage, h.page]
  refine .bind_same _ fun lp => ?_
  split <;> dsimp only <;> split
  · exact .error _
  · split
    · exact .ok (h.pwritePage _ _)
    · exact .ok ((h.pwritePage _ _).refreshIf deloff)
  · exact .error _
  · exact .ok ((h.pwritePage _ _).refreshIf deloff)

theorem adjustRoot (h : Alike t t') : Rel Alike t.adjustRoot t'.adjustRoot := by
  rcases h.rt with hrt | ⟨r, r', hr, hr', hpos, hpos'⟩
  · rw [Table.adjustRoot, Table.adjustRoot, hrt]
    cases t'.rt with
    | none => exact .error _
    | some rt =>
      dsimp only
      split
      · exact .ok h
      · split
        · rw [h.page, h.hp]
          refine .bind_same _ fun nroot => ?_
          refine ((h.log _).usetofree _).bind fun t t' h => ?_
          rw [h.hp]
          exact .ok ((((h.setHp _).syncHeader).pwritePage _ _).refresh _)
        · rw [h.hp]
          refine (((h.log .adjustRoot).setRt none).usetofree _).bind fun t t' h => ?_
          rw [h.hp]
          exact .ok (h.setHp _).syncFpo
  · -- Two roots that are not empty are left alone.
    rw [Table.adjustRoot, Table.adjustRoot, hr, hr']
    simp only [if_pos hpos, if_pos hpos']
    exact .ok h

theorem redistributePages (h : Alike t t') (needMore : ℕ) (nborIndex : ℤ) (nborOff parOff : ℕ)
    (kPrime : ℤ) (kPrimeIndex : ℕ) :
    Rel Alike (t.redistributePages needMore nborIndex nborOff parOff kPrime kPrimeIndex)
      (t'.redistributePages needMore nborIndex nborOff parOff kPrime kPrimeIndex) := by
  have h₁ := h.log .redistributePages
  -- Every branch ends with the writes of the three pages.
  have hwrite : ∀ {t t' : Table} (p q r : Page), Alike t t' →
      Alike (((t.pwritePage parOff p).pwritePage nborOff q).pwritePage needMore r)
        (((t'.pwritePage parOff p).pwritePage nborOff q).pwritePage needMore r) :=
    fun p q r h => ((h.pwritePage _ p).pwritePage _ q).pwritePage _ r
  rw [Table.redistributePages, Table.redistributePages]
  dsimp only
  rw [h₁.page, h₁.page, h₁.page]
  refine .bind_same _ fun need => .bind_same _ fun nbor => .bind_same _ fun parent => ?_
  refine .ite (.ite ?_ ?_) (.ite ?_ ?_)
  · exact (h₁.setParent _ _).bind fun t t' h => .ok (hwrite _ _ _ h)
  · exact .ok (hwrite _ _ _ h₁)
  · exact .ok (hwrite _ _ _ h₁)
  · exact (h₁.setParent _ _).bind fun t t' h => .ok (hwrite _ _ _ h)

theorem coalescePages {up : Table → ℤ → ℕ → Except Fault Table}
    (hup : ∀ {t t'}, Alike t t' → ∀ key deloff, Rel Alike (up t key deloff) (up t' key deloff))
    (h : Alike t t') (willBeCoal : ℕ) (nborIndex : ℤ) (nborOff parOff : ℕ) (kPrime : ℤ) :
    Rel Alike (Table.coalescePages up t willBeCoal nborIndex nborOff parOff kPrime)
      (Table.coalescePages up t' willBeCoal nborIndex nborOff parOff kPrime) := by
  have h₁ := h.log .coalescePages
  have hrest : ∀ {t t' : Table} (newp wbf : ℕ) (p : Page), Alike t t' →
      Rel Alike (up (t.pwritePage newp p) kPrime parOff >>= fun t => t.usetofree wbf)
        (up (t'.pwritePage newp p) kPrime parOff >>= fun t => t.usetofree wbf) :=
    fun newp wbf p h => (hup (h.pwritePage newp p) _ _).bind fun t t' h => h.usetofree wbf
  rw [Table.coalescePages, Table.coalescePages]
  dsimp only
  rw [h₁.page, h₁.page]
  refine .bind_same _ fun wbc => .bind_same _ fun nbor => .ite ?_ ?_
  · exact (h₁.setParents _ _).bind fun t t' h => hrest _ _ _ h
  · exact hrest _ _ _ h₁

theorem deleteEntry (h : Alike t t') (fuel : ℕ) (key : ℤ) (deloff : ℕ) :
    Rel Alike (Table.deleteEntry fuel t key deloff) (Table.deleteEntry fuel t' key deloff) := by
  induction fuel generalizing t t' key deloff with
  | zero => exact .error _
  | succ fuel ih =>
    rw [Table.deleteEntry, Table.deleteEntry]
    refine (h.removeEntryFromPage key deloff).bind fun t t' h => ?_
    rw [h.hp]
    split
    · exact h.adjustRoot
    · rw [h.page]
      refine .bind_same _ fun notEnough => .ite (.ok h) ?_
      dsimp only
      rw [h.page]
      refine .bind_same _ fun parent => ?_
      rw [h.page]
      refine .bind_same _ fun neighbor => .ite ?_ (h.redistributePages _ _ _ _ _ _)
      exact coalescePages (fun h key deloff => ih h key deloff) h _ _ _ _ _

/-! ### Calls -/

theorem purge (h : Alike t t') (leaf : ℕ) (leafp : Page) :
    Rel Alike (t.purge leaf leafp) (t'.purge leaf leafp) := by
  refine .foldlM (fun t t' i h => ?_) h
  split
  · rw [h.disk]
    exact h.deleteEntry _ _ _
  · exact .ok h

theorem dbInsert (h : Alike t t') (key : ℤ) (value : Value) :
    Rel Pair (t.dbInsert key value) (t'.dbInsert key value) := by
  rw [Table.dbInsert, Table.dbInsert, h.isNone, h.dbFind, h.findLeaf]
  dsimp only
  refine .ite ((h.startNewFile _).bind fun t t' h => .ok ⟨rfl, h⟩) ?_
  refine .bind_same _ fun dupcheck => .ite (.ok ⟨rfl, h⟩) ?_
  refine .bind_same _ fun leaf => ?_
  rw [h.page]
  refine .bind_same _ fun leafp => ?_
  have hrest : ∀ t t', Alike t t' → Rel Pair
      (if leafp.numOfKeys < leafMax then do
          let t ← t.insertIntoLeaf leaf ⟨key, false, value⟩
          pure (0, t)
        else do
          let t ← t.insertIntoLeafAs leaf ⟨key, false, value⟩
          pure (0, t) : Except Fault (ℤ × Table))
      (if leafp.numOfKeys < leafMax then do
          let t ← t'.insertIntoLeaf leaf ⟨key, false, value⟩
          pure (0, t)
        else do
          let t ← t'.insertIntoLeafAs leaf ⟨key, false, value⟩
          pure (0, t)) := fun t t' h =>
    .ite ((h.insertIntoLeaf _ _).bind fun t t' h => .ok ⟨rfl, h⟩)
      ((h.insertIntoLeafAs _ _).bind fun t t' h => .ok ⟨rfl, h⟩)
  exact .ite ((h.purge leaf leafp).bind hrest) (hrest _ _ h)

theorem dbDelete (h : Alike t t') (key : ℤ) : Rel Pair (t.dbDelete key) (t'.dbDelete key) := by
  have hgo : Rel Pair
      (do
        let check ← t.dbFind key
        if check.isNone then pure (-1, t)
        else
          let deloff ← t.findLeaf key
          let t ← Table.deleteEntry t.disk.size t key deloff
          pure (0, t) : Except Fault (ℤ × Table))
      (do
        let check ← t'.dbFind key
        if check.isNone then pure (-1, t')
        else
          let deloff ← t'.findLeaf key
          let t' ← Table.deleteEntry t'.disk.size t' key deloff
          pure (0, t')) := by
    rw [h.dbFind, h.findLeaf, h.disk]
    refine .bind_same _ fun check => ?_
    split
    · exact .ok ⟨rfl, h⟩
    · refine .bind_same _ fun deloff => ?_
      exact (h.deleteEntry _ _ _).bind fun t t' h => .ok ⟨rfl, h⟩
  rcases h.rt with hrt | ⟨r, r', hr, hr', hpos, hpos'⟩
  · rw [Table.dbDelete, Table.dbDelete, hrt]
    cases t'.rt with
    | none => exact .error _
    | some rt =>
      dsimp only
      split
      · exact .ok ⟨rfl, h⟩
      · exact hgo
  · rw [Table.dbDelete, Table.dbDelete, hr, hr']
    simp only [if_neg hpos.ne', if_neg hpos'.ne']
    exact hgo

theorem call (h : Alike t t') (call : Call) : Rel Pair (t.call call) (t'.call call) := by
  cases call with
  | insert key value =>
    exact (h.dbInsert key value).bind fun p p' hp => .ok ⟨congrArg Ret.status hp.1, hp.2⟩
  | delete key =>
    exact (h.dbDelete key).bind fun p p' hp => .ok ⟨congrArg Ret.status hp.1, hp.2⟩
  | find key =>
    rw [Table.call, Table.call, h.dbFind]
    exact .bind_same _ fun v => .ok ⟨rfl, h⟩

/-- Tables that are alike return the same along every run, faults included. -/
theorem results (h : Alike t t') (cs : List Call) :
    Run.results Table.call t cs = Run.results Table.call t' cs :=
  run_bisim (fun _ _ c h => h.call c) h cs

end Alike

/-! ### The reopened table -/

/-- The root page of a tree of allowed sizes is not empty. -/
theorem Rep.root_numOfKeys {pages : ℕ → Page} {H : ℕ} {T : PageTree H} (hT : Rep pages none T)
    (hs : Shaped T) : 0 < (pages (PerfectTree.label T)).numOfKeys := by
  cases H with
  | zero =>
    have hl : (pages (PerfectTree.label T)).IsTip none (PerfectTree.Tip.data T) := hT
    exact hl.numOfKeys ▸ hs.1
  | succ H =>
    have hn : (pages (PerfectTree.label T)).IsInner none (PerfectTree.Inner.map _ T) := hT.1
    exact hn.numOfKeys ▸ hs.1.1

/-- A table that has grown is alike to the one opened on its file. -/
theorem Grown.reopen {t : Table} (hg : Grown t) : Alike (openTable (some t.disk)) t := by
  obtain ⟨H, T, hT, hs, -⟩ := hg
  have hroot : t.disk.header.rpo = PerfectTree.label T := by rw [hT.sound.header, hT.root]
  have hload := hT.sound.loadPage (hT.mem_offsets (PerfectTree.label_mem_labels T))
  obtain ⟨r, hr, hpos⟩ := hT.rooted
  refine ⟨rfl, hT.sound.header, .inr ⟨t.disk.pages (PerfectTree.label T), r, ?_, hr, ?_, hpos⟩⟩
  · change Table.loadPage _ t.disk.header.rpo = _
    rw [hroot]
    exact hload
  · exact hT.rep.root_numOfKeys hs

/-- Of a fresh table there is nothing but the header to read. -/
theorem openTable_fresh : openTable (some freshTable.disk) = freshTable := by
  have hload : freshTable.loadPage 0 = none := if_neg (by decide)
  exact congrArg (fun rt => { freshTable with rt := rt }) hload

/-- After the calls `cs` on a fresh table, the header in memory is the one on
    disk, there is a root page in memory iff the header has one, and the table
    opened on the file returns what the running one does, whatever comes next. -/
def ReopensAlike (cs : List Call) : Prop :=
  ∃ rs t, run Table.call freshTable cs = .ok (rs, t) ∧ t.hp = t.disk.header ∧
    (t.rt = none ↔ t.hp.rpo = 0) ∧
    ∀ ds, Run.results Table.call (openTable (some t.disk)) ds = Run.results Table.call t ds

/-- Closing and reopening a table between two calls is invisible, before the
    first call and in every run that starts with an insertion. -/
theorem run_reopens :
    ReopensAlike [] ∧ ∀ key value cs, ReopensAlike (.insert key value :: cs) := by
  refine ⟨⟨[], freshTable, rfl, rfl, ⟨fun _ => rfl, fun _ => rfl⟩,
    fun ds => by rw [openTable_fresh]⟩, ?_⟩
  intro key value cs
  obtain ⟨rs, t, ht, hg⟩ := run_grown key value cs
  refine ⟨rs, t, ht, ?_, ?_, hg.reopen.results⟩ <;> obtain ⟨H, T, hT, -, -⟩ := hg
  · exact hT.sound.header.symm
  · obtain ⟨r, hr, -⟩ := hT.rooted
    have hne : t.hp.rpo ≠ 0 := by
      rw [hT.root]
      intro h0
      exact zero_not_mem_offsets _ (h0 ▸ hT.mem_offsets (PerfectTree.label_mem_labels T))
    simp [hr, hne]

end CourseProjects.BPlusTree
