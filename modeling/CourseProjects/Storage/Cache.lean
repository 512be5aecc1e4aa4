import CourseProjects.Storage.Log

/-!
# The buffer cache

`bread` gives a process the buffer of a block, which it has for itself until `brelse`. A
buffer that nobody waits for may be given to another block, unless the log has changed it
and not yet committed it.

A process that wants a buffer counts as one of its users at once, and waits in
`acquiresleep` until the buffer is not locked; it gives the lock back before it stops being
counted. What other processes do comes between these steps, and the machine may crash at
any of them.
-/

namespace Storage

open Function

/-- The number of buffers, `NBUF`. -/
abbrev nbuf : ℕ := 3 * maxopblocks

instance : NeZero nbuf := ⟨by decide⟩

/-- The device of the file system, `ROOTDEV`; the disk is there. -/
abbrev rootdev : ℕ := 1

/-- `struct buf`. The lock is held by a process or by nobody. -/
structure Buf where
  valid : Bool
  dirty : Bool
  dev : ℕ
  blockno : ℕ
  lock : Option (Fin nproc)
  refcnt : ℕ
  data : Block

/-- What a process does in the cache. -/
inductive Activity
  | idle
  /-- It waits in `acquiresleep`. -/
  | acquire (i : Fin nbuf)
  /-- It waits in `bread` for the disk. -/
  | read (i : Fin nbuf)
  /-- It has given the lock back in `brelse`. -/
  | release (i : Fin nbuf)
  deriving DecidableEq

/-- The buffers, in the order in which they were last used, the disk, and what the processes are
    at. -/
structure Bcache where
  buf : Fin nbuf → Buf
  order : List (Fin nbuf)
  disk : ℕ → Block
  act : Fin nproc → Activity

/-- The panics of the cache and of the driver below it. -/
inductive CachePanic
  | noBuffers
  | bwrite
  | brelse
  | notLocked
  | nothingToDo
  | incorrectBlockno
  deriving DecidableEq

namespace Bcache

variable (s : Bcache)

def setBuf (i : Fin nbuf) (b : Buf) : Bcache := { s with buf := update s.buf i b }

def setAct (p : Fin nproc) (a : Activity) : Bcache := { s with act := update s.act p a }

/-- `binit`, when the machine starts with this disk. -/
def binit (disk : ℕ → Block) : Bcache where
  buf _ := ⟨false, false, 0, 0, none, 0, 0⟩
  order := (List.finRange nbuf).reverse
  disk := disk
  act _ := .idle

/-- The first loop of `bget`. -/
def lookup (dev blockno : ℕ) : Option (Fin nbuf) :=
  s.order.find? fun i => (s.buf i).dev = dev ∧ (s.buf i).blockno = blockno

/-- The second loop of `bget`. -/
def recycle : Option (Fin nbuf) :=
  s.order.reverse.find? fun i => (s.buf i).refcnt = 0 ∧ (s.buf i).dirty = false

/-- `bget`, up to `acquiresleep`. -/
def bget (dev blockno : ℕ) : Except CachePanic (Fin nbuf × Bcache) :=
  match s.lookup dev blockno with
  | some i => .ok (i, s.setBuf i { s.buf i with refcnt := (s.buf i).refcnt + 1 })
  | none =>
    match s.recycle with
    | some i => .ok (i, s.setBuf i { s.buf i with
        dev := dev, blockno := blockno, valid := false, dirty := false, refcnt := 1 })
    | none => .error .noBuffers

/-- `acquiresleep`, when the buffer is not locked. What was not read has to be read next. -/
def acquire (p : Fin nproc) (i : Fin nbuf) : Bcache :=
  (s.setBuf i { s.buf i with lock := some p }).setAct p
    (if (s.buf i).valid then .idle else .read i)

/-- `iderw`, with the request that it makes. -/
def iderw (p : Fin nproc) (i : Fin nbuf) : Except CachePanic Bcache :=
  let b := s.buf i
  if b.lock ≠ some p then .error .notLocked
  else if b.valid = true ∧ b.dirty = false then .error .nothingToDo
  else if fssize ≤ b.blockno then .error .incorrectBlockno
  else if b.dirty then
    .ok { s.setBuf i { b with valid := true, dirty := false } with
      disk := update s.disk b.blockno b.data }
  else .ok (s.setBuf i { b with valid := true, data := s.disk b.blockno })

/-- A process changes the buffer, and calls `bwrite`. -/
def bwrite (p : Fin nproc) (i : Fin nbuf) (v : Block) : Except CachePanic Bcache :=
  if (s.buf i).lock ≠ some p then .error .bwrite
  else (s.setBuf i { s.buf i with data := v, dirty := true }).iderw p i

/-- `brelse`, up to the end of `releasesleep`. -/
def brelse (p : Fin nproc) (i : Fin nbuf) : Except CachePanic Bcache :=
  if (s.buf i).lock ≠ some p then .error .brelse
  else .ok ((s.setBuf i { s.buf i with lock := none }).setAct p (.release i))

/-- The rest of `brelse`. -/
def unref (p : Fin nproc) (i : Fin nbuf) : Bcache :=
  let n := (s.buf i).refcnt - 1
  { (s.setBuf i { s.buf i with refcnt := n }).setAct p .idle with
    order := if n = 0 then i :: s.order.erase i else s.order }

end Bcache

/-- What the processes and the machine do. -/
inductive CacheEvent
  | bread (p : Fin nproc) (blockno : ℕ)
  /-- The process goes on in the call of the cache in which it is. -/
  | advance (p : Fin nproc)
  /-- It changes a buffer, and calls `log_write`. -/
  | logWrite (p : Fin nproc) (i : Fin nbuf) (v : Block)
  | bwrite (p : Fin nproc) (i : Fin nbuf) (v : Block)
  | brelse (p : Fin nproc) (i : Fin nbuf)
  | crash

namespace Bcache

variable (s : Bcache)

/-- The process goes on. -/
def advance (p : Fin nproc) : Option (Except CachePanic Bcache) :=
  match s.act p with
  | .idle => none
  | .acquire i => if (s.buf i).lock = none then some (.ok (s.acquire p i)) else none
  | .read i => some ((s.iderw p i).map (·.setAct p .idle))
  | .release i => some (.ok (s.unref p i))

/-- A process asks for blocks of the disk, and changes a buffer only when it has it for itself. -/
def call : CacheEvent → Option (Except CachePanic Bcache)
  | .bread p b =>
    if s.act p = .idle ∧ b < fssize then
      some ((s.bget rootdev b).map fun (i, s') => s'.setAct p (.acquire i))
    else none
  | .advance p => s.advance p
  | .logWrite p i v =>
    if s.act p = .idle ∧ (s.buf i).lock = some p then
      some (.ok (s.setBuf i { s.buf i with data := v, dirty := true }))
    else none
  | .bwrite p i v => if s.act p = .idle then some (s.bwrite p i v) else none
  | .brelse p i => if s.act p = .idle then some (s.brelse p i) else none
  | .crash => some (.ok (binit s.disk))

/-- One event, from which the machine goes on. -/
def step (e : CacheEvent) : Option Bcache := (s.call e).bind Except.toOption

end Bcache

end Storage
