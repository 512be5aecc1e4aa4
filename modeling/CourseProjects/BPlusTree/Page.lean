import CourseProjects.Lib.Slots

/-!
# The pages of the on-disk B+ tree

The data model of `bpt.h` and the functions of `bpt.c` that read and write
single pages: `open_table`, `load_page`, the page allocator (`new_page`,
`reset`, `usetofree`, `freetouse`) and the header updates.

An offset in the file, an `off_t`, is a natural number. A file is its header, its
length and the page written at each offset; `pread`
and `pwrite` return what was last written. A page lies in the file if it ends
within its length: reading any other offset is a short read, on which
`load_page` returns `NULL`. The process keeps a copy `hp` of the header and a
copy `rt` of the root page. The two views `b_f` and `records` of the union in a
page are two arrays here: between two resets a page is used through one view
only.

What the C code leaves undefined is a `Fault`: following a `NULL` returned by
`load_page`, following a `NULL` root, and indexing past a page's array. A loop
that does not end within the number of steps it is given is a `Fault` too.
-/

namespace CourseProjects.BPlusTree

open Slots

/-- The `LEAF_MAX` of `bpt.h`. -/
abbrev leafMax : ℕ := 3

/-- The `INTERNAL_MAX` of `bpt.h`. -/
abbrev internalMax : ℕ := 24

/-- The slots of `records` and of `b_f` in a page. -/
abbrev recordSlots : ℕ := 31
abbrev interSlots : ℕ := 248

/-- `sizeof(page)` and `sizeof(H_P)`. -/
abbrev sizeofPage : ℕ := 4240
abbrev sizeofHeader : ℕ := 4096

/-- A value: the bytes before the terminator of a string that fits, with it, in
    the `char value[120]` of a record. -/
structure Value where
  bytes : List UInt8
  fits : bytes.length < 120
  noNul : 0 ∉ bytes
  deriving DecidableEq

/-- The value of a record cleared by `calloc`. -/
def Value.empty : Value := ⟨[], by decide, by decide⟩

/-- A `record`. The code only ever stores `0` and `1` in `logical_del`. -/
structure Record where
  key : ℤ
  logicalDel : Bool
  value : Value
  deriving DecidableEq

/-- An `I_R`: a separator and the child to its right. -/
structure InterRecord where
  key : ℤ
  pOffset : ℕ
  deriving DecidableEq

/-- The records cleared by `calloc`. -/
def Record.zero : Record := ⟨0, false, .empty⟩
def InterRecord.zero : InterRecord := ⟨0, 0⟩

/-- A `page`. The leftmost child of an internal page is its `nextOffset`. -/
structure Page where
  parentPageOffset : ℕ
  isLeaf : Bool
  numOfKeys : ℕ
  nextOffset : ℕ
  bF : ℕ → InterRecord
  records : ℕ → Record

/-- A page cleared by `calloc`. -/
def Page.zero : Page := ⟨0, false, 0, 0, fun _ => .zero, fun _ => .zero⟩

/-- An `H_P`, without its reserved bytes. -/
structure HeaderPage where
  fpo : ℕ
  rpo : ℕ
  numOfPages : ℕ
  deriving DecidableEq

/-- The table file. -/
structure Disk where
  header : HeaderPage
  size : ℕ
  pages : ℕ → Page

/-- The code that would give pages back: recorded when it runs. -/
inductive Reclaim
  | coalescePages
  | redistributePages
  | usetofree
  | adjustRoot
  deriving DecidableEq

/-- The table: the file and the globals `hp` and `rt`. The list `reclaimed` is
    not in the code: it logs the runs of the functions that reclaim pages. -/
structure Table where
  disk : Disk
  hp : HeaderPage
  rt : Option Page
  reclaimed : List Reclaim

/-- What the C code does not define. -/
inductive Fault
  | nullPage
  | nullRoot
  | outOfPage
  | endless
  deriving DecidableEq

@[simp] theorem ok_bind {α β : Type} (a : α) (f : α → Except Fault β) :
    (Except.ok a >>= f) = f a := rfl

@[simp] theorem error_bind {α β : Type} (e : Fault) (f : α → Except Fault β) :
    (Except.error e >>= f) = Except.error e := rfl

@[simp] theorem pure_eq_ok {α : Type} (a : α) : (pure a : Except Fault α) = Except.ok a := rfl

namespace Table

/-! ### Reading and writing -/

/-- `load_page`: `none` is `NULL`, after a short read. -/
def loadPage (t : Table) (off : ℕ) : Option Page :=
  if off + sizeofPage ≤ t.disk.size then some (t.disk.pages off) else none

/-- A `load_page` whose result is then dereferenced. -/
def page (t : Table) (off : ℕ) : Except Fault Page :=
  match t.loadPage off with
  | some p => .ok p
  | none => .error .nullPage

/-- `pwrite(fd, p, sizeof(page), off)`. -/
def pwritePage (t : Table) (off : ℕ) (p : Page) : Table :=
  { t with disk := { t.disk with
      pages := Function.update t.disk.pages off p
      size := max t.disk.size (off + sizeofPage) } }

/-- `pwrite(fd, hp, sizeof(H_P), 0); free(hp); hp = load_header(0);` -/
def syncHeader (t : Table) : Table :=
  { t with disk := { t.disk with header := t.hp } }

/-- `pwrite(fd, hp, sizeof(hp), 0); free(hp); hp = load_header(0);`: the size is
    that of the pointer, so only `fpo` is written, and the rest is read back as
    it was on disk. -/
def syncFpo (t : Table) : Table :=
  let header := { t.disk.header with fpo := t.hp.fpo }
  { t with disk := { t.disk with header := header }, hp := header }

/-- Logs the run of a function that reclaims pages. -/
def log (t : Table) (r : Reclaim) : Table := { t with reclaimed := t.reclaimed ++ [r] }

/-! ### The page allocator -/

/-- `reset`. -/
def reset (t : Table) (off : ℕ) : Table := t.pwritePage off .zero

/-- `freetouse`. -/
def freetouse (t : Table) (fpo : ℕ) : Except Fault Table := do
  let p ← t.page fpo
  pure (t.pwritePage fpo
    { p with parentPageOffset := 0, isLeaf := false, numOfKeys := 0, nextOffset := 0 })

/-- `usetofree`. -/
def usetofree (t : Table) (wbf : ℕ) : Except Fault Table := do
  let utf ← t.page wbf
  let t := (t.log .usetofree).pwritePage wbf
    { utf with parentPageOffset := t.hp.fpo, isLeaf := false, numOfKeys := 0, nextOffset := 0 }
  pure { t with hp := { t.hp with fpo := wbf } }.syncFpo

/-- `new_page`: the first free page, or else a new one at the end of the file. -/
def newPage (t : Table) : Except Fault (ℕ × Table) :=
  if t.hp.fpo ≠ 0 then do
    let newp := t.hp.fpo
    let np ← t.page newp
    let t := { t with hp := { t.hp with fpo := np.parentPageOffset } }.syncFpo
    let t ← t.freetouse newp
    pure (newp, t)
  else
    let newp := t.disk.size
    let t := t.reset newp
    let t := { t with hp := { t.hp with numOfPages := t.hp.numOfPages + 1 } }.syncHeader
    pure (newp, t)

end Table

/-! ### Opening a table -/

/-- `open_table` in a new process: a missing file is created with a header of
    its own, and of an existing one the header and the root page are read. -/
def openTable (file : Option Disk) : Table :=
  match file with
  | none =>
    let header : HeaderPage := ⟨0, 0, 1⟩
    ⟨⟨header, sizeofHeader, fun _ => .zero⟩, header, none, []⟩
  | some disk =>
    let t : Table := ⟨disk, disk.header, none, []⟩
    { t with rt := t.loadPage disk.header.rpo }

/-- A table just created. -/
abbrev freshTable : Table := openTable none

end CourseProjects.BPlusTree
