import CourseProjects.Lib.SearchTree
import CourseProjects.BPlusTree.Calls

/-!
# The tree in the file

A table stores a perfect tree (`PageTree`) whose labels are page offsets, whose
separators are keys, and whose tips hold the records of a leaf and the offset
of the next leaf. The page at the offset of every tip and inner node is that
leaf or that node, with the offset of the node above as its parent (`Rep`).

The file is the header and `n` pages, at the offsets `offsets n`, and the
header in memory is the one on disk (`Laid`). The allocator is at rest in a
table (`Sound`) when, besides, nothing was ever freed.
-/

namespace CourseProjects.BPlusTree

open Slots Function PerfectTree

/-! ### Page offsets -/

/-- The offset of the page `i`. -/
def pageOffset (i : ℕ) : ℕ := sizeofHeader + i * sizeofPage

theorem pageOffset_eq (i : ℕ) : pageOffset i = 4096 + i * 4240 := rfl

/-- The offsets of the first `n` pages. -/
def offsets (n : ℕ) : List ℕ := (List.range n).map pageOffset

theorem offsets_succ (n : ℕ) : offsets (n + 1) = offsets n ++ [pageOffset n] := by
  simp [offsets, List.range_succ]

theorem mem_offsets {a : ℕ} {n : ℕ} : a ∈ offsets n ↔ ∃ i < n, pageOffset i = a := by
  simp [offsets]

theorem pageOffset_succ (n : ℕ) : pageOffset n + sizeofPage = pageOffset (n + 1) := by
  simp only [pageOffset_eq, sizeofPage]
  omega

theorem offsets_nodup (n : ℕ) : (offsets n).Nodup := by
  refine List.nodup_range.map fun i j h => ?_
  simp only [pageOffset_eq] at h
  omega

theorem not_mem_offsets (n : ℕ) : pageOffset n ∉ offsets n := by
  rw [mem_offsets]
  rintro ⟨i, hi, h⟩
  simp only [pageOffset_eq] at h
  omega

theorem zero_not_mem_offsets (n : ℕ) : 0 ∉ offsets n := by
  rw [mem_offsets]
  rintro ⟨i, hi, h⟩
  simp only [pageOffset_eq] at h
  omega

/-! ### The file -/

namespace Table

variable (t : Table) (a : ℕ) (p : Page)

@[simp] theorem pages_pwritePage : (t.pwritePage a p).disk.pages = update t.disk.pages a p := rfl
@[simp] theorem hp_pwritePage : (t.pwritePage a p).hp = t.hp := rfl
@[simp] theorem rt_pwritePage : (t.pwritePage a p).rt = t.rt := rfl
@[simp] theorem header_pwritePage : (t.pwritePage a p).disk.header = t.disk.header := rfl
@[simp] theorem reclaimed_pwritePage : (t.pwritePage a p).reclaimed = t.reclaimed := rfl

end Table

/-- The file is the header and `n` pages, and the header in memory is the one on disk. -/
structure Laid (t : Table) (n : ℕ) : Prop where
  size : t.disk.size = pageOffset n
  numOfPages : t.hp.numOfPages = n + 1
  header : t.disk.header = t.hp

/-- The page that `usetofree` and `freetouse` leave behind. -/
def Page.freed (p : Page) (fpo : ℕ) : Page :=
  { p with parentPageOffset := fpo, isLeaf := false, numOfKeys := 0, nextOffset := 0 }

namespace Laid

variable {t : Table} {n : ℕ} {a : ℕ}

theorem loadPage (h : Laid t n) (ha : a ∈ offsets n) : t.loadPage a = some (t.disk.pages a) := by
  obtain ⟨i, hi, rfl⟩ := mem_offsets.1 ha
  refine if_pos ?_
  rw [h.size]
  simp only [pageOffset_eq, sizeofPage]
  omega

theorem page (h : Laid t n) (ha : a ∈ offsets n) : t.page a = .ok (t.disk.pages a) := by
  rw [Table.page, h.loadPage ha]

theorem pwritePage (h : Laid t n) (ha : a ∈ offsets n) (p : Page) : Laid (t.pwritePage a p) n := by
  refine ⟨?_, h.numOfPages, h.header⟩
  obtain ⟨i, hi, rfl⟩ := mem_offsets.1 ha
  have := h.size
  simp only [Table.pwritePage, pageOffset_eq, sizeofPage] at this ⊢
  omega

/-- Without a free page, `new_page` puts a cleared page at the end of the file. -/
theorem newPage_fresh (h : Laid t n) (h0 : t.hp.fpo = 0) :
    ∃ t', t.newPage = .ok (pageOffset n, t') ∧ Laid t' (n + 1) ∧
      t'.disk.pages = update t.disk.pages (pageOffset n) .zero ∧
      t'.hp = { t.hp with numOfPages := t.hp.numOfPages + 1 } ∧ t'.rt = t.rt ∧
      t'.reclaimed = t.reclaimed := by
  let t₁ := t.reset (pageOffset n)
  refine ⟨{ t₁ with hp := { t₁.hp with numOfPages := t₁.hp.numOfPages + 1 } }.syncHeader, ?_,
    ⟨?_, ?_, rfl⟩, rfl, rfl, rfl, rfl⟩
  · rw [Table.newPage, if_neg (by simp [h0]), h.size]
    rfl
  · simp only [t₁, Table.syncHeader, Table.reset, Table.pwritePage, h.size, ← pageOffset_succ]
    omega
  · simp [t₁, Table.reset, Table.syncHeader, h.numOfPages]

/-- With a free page, `new_page` takes it off the free list. -/
theorem newPage_reuse (h : Laid t n) (ha : t.hp.fpo ∈ offsets n) :
    ∃ t', t.newPage = .ok (t.hp.fpo, t') ∧ Laid t' n ∧
      t'.disk.pages = update t.disk.pages t.hp.fpo ((t.disk.pages t.hp.fpo).freed 0) ∧
      t'.hp = { t.hp with fpo := (t.disk.pages t.hp.fpo).parentPageOffset } := by
  let t₁ : Table := { t with hp := { t.hp with
    fpo := (t.disk.pages t.hp.fpo).parentPageOffset } }.syncFpo
  have hhp : t₁.hp = { t.hp with fpo := (t.disk.pages t.hp.fpo).parentPageOffset } := by
    simp only [t₁, Table.syncFpo, h.header]
  have h₁ : Laid t₁ n := ⟨h.size, (congrArg HeaderPage.numOfPages hhp).trans h.numOfPages, rfl⟩
  have h0 : t.hp.fpo ≠ 0 := fun h0 => zero_not_mem_offsets n (h0 ▸ ha)
  refine ⟨t₁.pwritePage t.hp.fpo ((t.disk.pages t.hp.fpo).freed 0), ?_, h₁.pwritePage ha _, rfl, hhp⟩
  rw [Table.newPage, if_pos h0]
  change (t.page t.hp.fpo >>= _) = _
  rw [h.page ha]
  change (t₁.freetouse t.hp.fpo >>= _) = _
  rw [Table.freetouse, h₁.page ha]
  rfl

/-- `usetofree` puts the page in front of the free list. -/
theorem usetofree (h : Laid t n) (ha : a ∈ offsets n) :
    ∃ t', t.usetofree a = .ok t' ∧ Laid t' n ∧ t'.hp = { t.hp with fpo := a } ∧ t'.rt = t.rt ∧
      t'.disk.pages = update t.disk.pages a ((t.disk.pages a).freed t.hp.fpo) := by
  let t₁ := (t.log .usetofree).pwritePage a ((t.disk.pages a).freed t.hp.fpo)
  have h₁ : Laid t₁ n :=
    Laid.pwritePage (t := t.log .usetofree) ⟨h.size, h.numOfPages, h.header⟩ ha _
  have hhp : { t.disk.header with fpo := a } = { t.hp with fpo := a } := by rw [h.header]
  refine ⟨{ t₁ with hp := { t₁.hp with fpo := a } }.syncFpo, ?_, ⟨h₁.size, ?_, rfl⟩, hhp, rfl, rfl⟩
  · rw [Table.usetofree, h.page ha]
    rfl
  · exact (congrArg HeaderPage.numOfPages hhp).trans h.numOfPages

theorem setParent (h : Laid t n) (ha : a ∈ offsets n) (b : ℕ) :
    Table.setParent b t a =
      .ok (t.pwritePage a { t.disk.pages a with parentPageOffset := b }) := by
  rw [Table.setParent, h.page ha]
  rfl

/-- Setting the parent of a list of pages changes nothing else. -/
theorem setParents (h : Laid t n) {l : List ℕ} (hl : ∀ a ∈ l, a ∈ offsets n) (b : ℕ) :
    ∃ t', l.foldlM (Table.setParent b) t = .ok t' ∧ Laid t' n ∧ t'.hp = t.hp ∧ t'.rt = t.rt ∧
      t'.reclaimed = t.reclaimed ∧
      t'.disk.pages = fun a =>
        if a ∈ l then { t.disk.pages a with parentPageOffset := b } else t.disk.pages a := by
  induction l generalizing t with
  | nil => exact ⟨t, rfl, h, rfl, rfl, rfl, by simp⟩
  | cons a l ih =>
    have ha := hl a List.mem_cons_self
    obtain ⟨t', ht', hs, hhp, hrt, hre, hp⟩ := ih (h.pwritePage ha
      { t.disk.pages a with parentPageOffset := b }) fun x hx => hl x (List.mem_cons_of_mem _ hx)
    refine ⟨t', by rw [List.foldlM_cons, h.setParent ha]; exact ht', hs, hhp, hrt, hre, ?_⟩
    rw [hp]
    funext x
    rcases eq_or_ne x a with rfl | hx
    · simp
    · simp [hx]

end Laid

/-! ### The allocator at rest -/

/-- The file is the header and `n` pages, none of which was ever freed. -/
structure Sound (t : Table) (n : ℕ) : Prop where
  size : t.disk.size = pageOffset n
  numOfPages : t.hp.numOfPages = n + 1
  header : t.disk.header = t.hp
  fpo : t.hp.fpo = 0
  reclaimed : t.reclaimed = []

/-- The copy of the root page in memory. -/
def Rooted (t : Table) : Prop := ∃ r, t.rt = some r ∧ 0 < r.numOfKeys

namespace Sound

variable {t : Table} {n : ℕ} {a : ℕ}

theorem laid (h : Sound t n) : Laid t n := ⟨h.size, h.numOfPages, h.header⟩

theorem loadPage (h : Sound t n) (ha : a ∈ offsets n) : t.loadPage a = some (t.disk.pages a) :=
  h.laid.loadPage ha

theorem page (h : Sound t n) (ha : a ∈ offsets n) : t.page a = .ok (t.disk.pages a) :=
  h.laid.page ha

theorem pwritePage (h : Sound t n) (ha : a ∈ offsets n) (p : Page) :
    Sound (t.pwritePage a p) n :=
  ⟨(h.laid.pwritePage ha p).size, h.numOfPages, h.header, h.fpo, h.reclaimed⟩

/-- `new_page` puts a cleared page at the end of the file. -/
theorem newPage (h : Sound t n) : ∃ t', t.newPage = .ok (pageOffset n, t') ∧ Sound t' (n + 1) ∧
    t'.disk.pages = update t.disk.pages (pageOffset n) .zero ∧ t'.hp.rpo = t.hp.rpo ∧
    t'.rt = t.rt := by
  obtain ⟨t', hnew, hs, hpages, hhp, hrt, hre⟩ := h.laid.newPage_fresh h.fpo
  refine ⟨t', hnew, ⟨hs.size, hs.numOfPages, hs.header, ?_, hre.trans h.reclaimed⟩, hpages, ?_, hrt⟩
  · rw [hhp]
    exact h.fpo
  · rw [hhp]

/-- Moving the root of the tree: `hp->rpo` is set and the header written. -/
theorem setRoot (h : Sound t n) (a : ℕ) (rt : Option Page) :
    Sound { t with rt := rt, hp := { t.hp with rpo := a } }.syncHeader n :=
  ⟨h.size, h.numOfPages, rfl, h.fpo, h.reclaimed⟩

/-- Refreshing the copy of the root page. -/
theorem setRt (h : Sound t n) (rt : Option Page) : Sound { t with rt := rt } n :=
  ⟨h.size, h.numOfPages, h.header, h.fpo, h.reclaimed⟩

theorem setParent (h : Sound t n) (ha : a ∈ offsets n) (b : ℕ) :
    Table.setParent b t a =
      .ok (t.pwritePage a { t.disk.pages a with parentPageOffset := b }) :=
  h.laid.setParent ha b

/-- Setting the parent of a list of pages changes nothing else. -/
theorem setParents (h : Sound t n) {l : List ℕ} (hl : ∀ a ∈ l, a ∈ offsets n) (b : ℕ) :
    ∃ t', l.foldlM (Table.setParent b) t = .ok t' ∧ Sound t' n ∧ t'.hp = t.hp ∧ t'.rt = t.rt ∧
      t'.disk.pages = fun a =>
        if a ∈ l then { t.disk.pages a with parentPageOffset := b } else t.disk.pages a := by
  obtain ⟨t', ht', hs, hhp, hrt, hre, hp⟩ := h.laid.setParents hl b
  exact ⟨t', ht', ⟨hs.size, hs.numOfPages, hs.header, hhp ▸ h.fpo, hre.trans h.reclaimed⟩, hhp, hrt,
    hp⟩

end Sound

/-! ### Pages and nodes -/

/-- The records of a leaf and the offset of the next one. -/
structure Leaf where
  recs : List Record
  next : ℕ

/-- The trees of pages of height `h`. -/
abbrev PageTree := Perfect ℤ ℕ Leaf

/-- The entry of an internal page for a separator and the child after it. -/
def InterRecord.ofEntry (e : ℤ × ℕ) : InterRecord := ⟨e.1, e.2⟩

/-- The page is the leaf `l`, below the page `par`. -/
structure Page.IsTip (p : Page) (par : Option ℕ) (l : Leaf) : Prop where
  isLeaf : p.isLeaf = true
  parent : p.parentPageOffset = par.getD 0
  recs : slots p.records p.numOfKeys = l.recs
  next : p.nextOffset = l.next

/-- The page is the inner node `n`, below the page `par`. -/
structure Page.IsInner (p : Page) (par : Option ℕ) (n : Inner ℤ ℕ ℕ) : Prop where
  isLeaf : p.isLeaf = false
  parent : p.parentPageOffset = par.getD 0
  first : p.nextOffset = n.first
  rest : slots p.bF p.numOfKeys = n.rest.map .ofEntry

theorem Page.IsTip.numOfKeys {p : Page} {par : Option ℕ} {l : Leaf} (h : p.IsTip par l) :
    p.numOfKeys = l.recs.length := by
  rw [← h.recs, length_slots]

theorem Page.IsInner.numOfKeys {p : Page} {par : Option ℕ} {n : Inner ℤ ℕ ℕ}
    (h : p.IsInner par n) : p.numOfKeys = n.rest.length := by
  have := congrArg List.length h.rest
  simpa using this

theorem Page.IsInner.bF {p : Page} {par : Option ℕ} {n : Inner ℤ ℕ ℕ}
    (h : p.IsInner par n) {i : ℕ} (hi : i < n.rest.length) : p.bF i = .ofEntry n.rest[i] := by
  have := (slots_eq_iff.1 h.rest).2 i (by simpa using hi)
  simpa using this

theorem Page.IsTip.records {p : Page} {par : Option ℕ} {l : Leaf} (h : p.IsTip par l) {i : ℕ}
    (hi : i < l.recs.length) : p.records i = l.recs[i] :=
  (slots_eq_iff.1 h.recs).2 i hi

/-- The pages represent the tree, below the page `par`. -/
def Rep (pages : ℕ → Page) {h : ℕ} (par : Option ℕ) (t : PageTree h) : Prop :=
  Everywhere (fun par l => (pages l.label).IsTip par l.data)
    (fun par n => (pages n.label).IsInner par n) par t

/-- The pages represent the context, around a hole filled with the page `a`. -/
def RepCtx (pages : ℕ → Page) {h H : ℕ} (c : Ctx ℤ ℕ Leaf h H) (a : ℕ) : Prop :=
  c.Everywhere (fun par l => (pages l.label).IsTip par l.data)
    (fun par n => (pages n.label).IsInner par n) a

section Rep

variable {pages pages' : ℕ → Page} {h H : ℕ} {par : Option ℕ} {t : PageTree h}

theorem rep_plug {c : Ctx ℤ ℕ Leaf h H} :
    Rep pages none (c.plug t) ↔ RepCtx pages c (label t) ∧ Rep pages c.parent t :=
  everywhere_plug c t

/-- Only the pages of the tree matter. -/
theorem Rep.congr (ht : Rep pages par t) (hp : ∀ a ∈ labels t, pages' a = pages a) :
    Rep pages' par t :=
  Everywhere.imp ht (fun _ l hl hL => by rwa [hp _ hl]) fun _ n hn hN => by rwa [hp _ hn]

theorem RepCtx.congr {c : Ctx ℤ ℕ Leaf h H} {a : ℕ} (hc : RepCtx pages c a)
    (hp : ∀ a ∈ c.labels, pages' a = pages a) : RepCtx pages' c a :=
  Ctx.Everywhere.imp hc (fun _ l hl hL => by rwa [hp _ hl]) fun _ n hn hN => by rwa [hp _ hn]

/-- Setting the parent of the root page moves the whole tree. -/
theorem Rep.reparent (ht : Rep pages par t) (hnd : (labels t).Nodup) {b : ℕ}
    (hroot : pages' (label t) = { pages (label t) with parentPageOffset := b })
    (hp : ∀ a ∈ labels t, a ≠ label t → pages' a = pages a) : Rep pages' (some b) t := by
  cases h with
  | zero =>
    have hl : (pages (label t)).IsTip par (Tip.data t) := ht
    change (pages' (label t)).IsTip _ _
    rw [hroot]
    exact ⟨hl.isLeaf, rfl, hl.recs, hl.next⟩
  | succ h =>
    obtain ⟨hn, hch⟩ := ht
    have hn : (pages (label t)).IsInner par (Inner.map label t) := hn
    rw [labels, List.nodup_cons] at hnd
    refine ⟨?_, fun u hu => Rep.congr (hch u hu) fun a ha => ?_⟩
    · change (pages' (label t)).IsInner _ _
      rw [hroot]
      exact ⟨hn.isLeaf, rfl, hn.first, hn.rest⟩
    · have ha' := List.mem_flatMap.2 ⟨u, hu, ha⟩
      refine hp a (List.mem_cons_of_mem _ ha') ?_
      rintro rfl
      exact hnd.1 ha'

end Rep

/-! ### Stored trees -/

/-- The table stores the tree. -/
structure Stored (t : Table) {h : ℕ} (T : PageTree h) : Prop where
  rep : Rep t.disk.pages none T
  root : t.hp.rpo = label T
  labels : (labels T).Perm (offsets (labels T).length)
  sound : Sound t (PerfectTree.labels T).length
  rooted : Rooted t

namespace Stored

variable {t : Table} {h : ℕ} {T : PageTree h}

/-- A tree whose labels are the first `n` offsets is stored in a file of `n` pages. -/
theorem of_perm {n : ℕ} (rep : Rep t.disk.pages none T) (root : t.hp.rpo = label T)
    (perm : (PerfectTree.labels T).Perm (offsets n)) (sound : Sound t n) (rooted : Rooted t) :
    Stored t T := by
  have hn : (PerfectTree.labels T).length = n := by simpa [offsets] using perm.length_eq
  exact ⟨rep, root, hn ▸ perm, hn ▸ sound, rooted⟩

theorem nodup (hT : Stored t T) : (PerfectTree.labels T).Nodup :=
  hT.labels.nodup_iff.2 (offsets_nodup _)

theorem mem_offsets (hT : Stored t T) {a : ℕ} (ha : a ∈ PerfectTree.labels T) :
    a ∈ offsets (PerfectTree.labels T).length := hT.labels.mem_iff.1 ha

theorem page (hT : Stored t T) {a : ℕ} (ha : a ∈ PerfectTree.labels T) :
    t.page a = .ok (t.disk.pages a) := hT.sound.page (hT.mem_offsets ha)

end Stored

end CourseProjects.BPlusTree
