import CourseProjects.Lib.Simulation
import CourseProjects.Lib.Words

/-!
# The log

The calls of the file system write blocks between `begin_op` and `end_op`, and
`log_write` notes which ones. When the last call under way ends, they are copied to the
log, its header is written, they are copied to where they belong, and the header is
erased. After a crash `recover_from_log` copies what a header says is in the log.

A write of one block to the disk happens in whole or not at all. The events of the calls
come in any order between the writes of `commit`, and the machine may crash between any
two of them, also while it recovers.
-/

namespace Storage

open Function Words

/-- The bytes of a block. There are `BSIZE` of them; those beyond are not there, and nobody reads
    them. -/
abbrev Block := ℕ → UInt8

/-- The number of blocks of the disk, `FSSIZE`. -/
abbrev fssize : ℕ := 1000

/-- The greatest number of processes, `NPROC`. -/
abbrev nproc : ℕ := 64

instance : NeZero nproc := ⟨by decide⟩

/-- How many blocks `begin_op` puts aside for a call, `MAXOPBLOCKS`. -/
abbrev maxopblocks : ℕ := 10

/-- How many blocks `struct logheader` has places for, `LOGSIZE`. -/
abbrev logsize : ℕ := 3 * maxopblocks

/-- Where the log starts, `log.start`. -/
abbrev logstart : ℕ := 2

/-- How many blocks the log has with its header, `log.size`. -/
abbrev nlog : ℕ := logsize

/-- The block is not of the log. -/
def Home (b : ℕ) : Prop := b < logstart ∨ logstart + nlog ≤ b

instance : DecidablePred Home := fun _ => inferInstanceAs (Decidable (_ ∨ _))

/-! ### The header -/

/-- The numbers of the blocks that a header lists, as `read_head` reads them. -/
def readHead (b : Block) : List ℕ := (List.range (word b 0)).map fun i => word b (1 + i)

/-- `write_head`, in the copy of the header in memory. -/
def writeHead (b : Block) (lh : List ℕ) : Block := setWords (setWord b 0 lh.length) 1 lh

/-- A header is read back as it was written. -/
theorem readHead_writeHead {b : Block} {lh : List ℕ} (hn : lh.length < 2 ^ 32)
    (hl : ∀ b ∈ lh, b < 2 ^ 32) : readHead (writeHead b lh) = lh := by
  have h : word (writeHead b lh) 0 = lh.length := by
    rw [writeHead, word_setWords, dif_neg (by omega), word_setWord_self, Nat.mod_eq_of_lt hn]
  rw [readHead, h, writeHead]
  exact map_word_setWords hl

/-! ### Recovery -/

/-- `install_trans`, on the disk. -/
def installTrans (lh : List ℕ) (disk : ℕ → Block) : ℕ → Block :=
  lh.zipIdx.foldl (fun disk (b, tail) => update disk b (disk (logstart + tail + 1))) disk

/-- What `recover_from_log` makes of a disk. -/
def recoverFromLog (disk : ℕ → Block) : ℕ → Block :=
  let disk' := installTrans (readHead (disk logstart)) disk
  update disk' logstart (writeHead (disk' logstart) [])

/-! ### The state -/

/-- How far `commit`, or `recover_from_log`, has got. -/
inductive Phase
  | idle
  | writeLog (tail : ℕ)
  | install (tail : ℕ)
  | done
  | recover (tail : ℕ)
  deriving DecidableEq

/-- The panics of the log. -/
inductive Panic
  | tooBig
  | outside
  | committing
  deriving DecidableEq

/-- The log, with the disk and what `bread` finds in its blocks. Which processes are in a call,
    and how many blocks each of them has added to the log, is there for the statements. -/
structure Log where
  disk : ℕ → Block
  mem : ℕ → Block
  lh : List ℕ
  outstanding : ℕ
  phase : Phase
  spent : Fin nproc → Option ℕ

namespace Log

variable (s : Log)

/-- `bwrite`, with new contents of the block. -/
def bwrite (b : ℕ) (v : Block) : Log :=
  { s with disk := update s.disk b v, mem := update s.mem b v }

/-- The header is written, with the blocks that `lh` lists. -/
def putHead : Log := s.bwrite logstart (writeHead (s.mem logstart) s.lh)

/-- `begin_op`; while it sleeps it is none. -/
def beginOp (p : Fin nproc) : Option Log :=
  if s.phase ≠ .idle then none
  else if logsize < s.lh.length + (s.outstanding + 1) * maxopblocks then none
  else some { s with outstanding := s.outstanding + 1, spent := update s.spent p (some 0) }

/-- A block is changed, and `log_write` is called, by a process that has added `m` blocks. -/
def logWrite (p : Fin nproc) (m : ℕ) (b : ℕ) (v : Block) : Except Panic Log :=
  if logsize ≤ s.lh.length ∨ nlog - 1 ≤ s.lh.length then .error .tooBig
  else if s.outstanding < 1 then .error .outside
  else
    .ok { s with
      mem := update s.mem b v
      lh := if b ∈ s.lh then s.lh else s.lh ++ [b]
      spent := update s.spent p (some (if b ∈ s.lh then m else m + 1)) }

/-- `end_op`, up to the call of `commit`, which does nothing when no block was written. -/
def endOp (p : Fin nproc) : Except Panic Log :=
  let s' := { s with outstanding := s.outstanding - 1, spent := update s.spent p none }
  if s.phase ≠ .idle then .error .committing
  else if s'.outstanding = 0 then
    .ok { s' with phase := if s.lh = [] then .done else .writeLog 0 }
  else .ok s'

/-- The next write of `commit` or `recover_from_log`, or the end of it. -/
def advance : Option Log :=
  match s.phase with
  | .idle => none
  | .writeLog tail =>
    match s.lh[tail]? with
    | some b => some { s.bwrite (logstart + tail + 1) (s.mem b) with phase := .writeLog (tail + 1) }
    | none => some { s.putHead with phase := .install 0 }
  | .install tail =>
    match s.lh[tail]? with
    | some b => some { s.bwrite b (s.mem (logstart + tail + 1)) with phase := .install (tail + 1) }
    | none => some { putHead { s with lh := [] } with phase := .done }
  | .done => some { s with phase := .idle }
  | .recover tail =>
    match s.lh[tail]? with
    | some b => some { s.bwrite b (s.mem (logstart + tail + 1)) with phase := .recover (tail + 1) }
    | none => some { putHead { s with lh := [] } with phase := .idle }

/-- The machine starts, and `recover_from_log` has read the header. -/
def boot (disk : ℕ → Block) : Log where
  disk := disk
  mem := disk
  lh := readHead (disk logstart)
  outstanding := 0
  phase := .recover 0
  spent := fun _ => none

end Log

/-- What the processes and the machine do. -/
inductive LogEvent
  | beginOp (p : Fin nproc)
  | logWrite (p : Fin nproc) (b : ℕ) (v : Block)
  | endOp (p : Fin nproc)
  | advance
  | crash

namespace Log

variable (s : Log)

/-- A process calls `begin_op` outside of a call, and the others inside of one; it writes blocks of
    the disk that are not of the log. -/
def call : LogEvent → Option (Except Panic Log)
  | .beginOp p => if s.spent p = none then (s.beginOp p).map .ok else none
  | .logWrite p b v =>
    match s.spent p with
    | none => none
    | some m => if Home b ∧ b < fssize then some (s.logWrite p m b v) else none
  | .endOp p => if s.spent p = none then none else some (s.endOp p)
  | .advance => s.advance.map .ok
  | .crash => some (.ok (boot s.disk))

/-- One event, from which the machine goes on. -/
def step (e : LogEvent) : Option Log := (s.call e).bind Except.toOption

/-! ### What the events do -/

variable {s} {s' : Log} {p : Fin nproc} {m b : ℕ} {v : Block}

theorem step_eq_some {e : LogEvent} : s.step e = some s' ↔ s.call e = some (.ok s') := by
  rw [step, Option.bind_eq_some_iff]
  constructor
  · rintro ⟨r, hr, h⟩
    cases r with
    | error => cases h
    | ok t =>
      cases h
      exact hr
  · exact fun h => ⟨_, h, rfl⟩

theorem step_beginOp :
    s.step (.beginOp p) = some s' ↔ s.spent p = none ∧ s.beginOp p = some s' := by
  rw [step_eq_some, call]
  split
  · rename_i hp
    simp [hp]
  · rename_i hp
    simp [hp]

theorem step_logWrite : s.step (.logWrite p b v) = some s' ↔
    ∃ m, s.spent p = some m ∧ (Home b ∧ b < fssize) ∧ s.logWrite p m b v = .ok s' := by
  rw [step_eq_some, call]
  cases s.spent p with
  | none => simp
  | some m =>
    dsimp only
    split
    · rename_i hb
      simp [hb]
    · rename_i hb
      simp [hb]

theorem step_endOp : s.step (.endOp p) = some s' ↔ s.spent p ≠ none ∧ s.endOp p = .ok s' := by
  rw [step_eq_some, call]
  split
  · rename_i hp
    simp [hp]
  · rename_i hp
    simp [hp]

theorem step_advance : s.step .advance = some s' ↔ s.advance = some s' := by
  rw [step_eq_some, call, Option.map_eq_some_iff]
  simp

/-- `begin_op` does not go on while the log might not have room for the call. -/
theorem beginOp_spec (h : s.beginOp p = some s') :
    s.phase = .idle ∧ s.lh.length + (s.outstanding + 1) * maxopblocks ≤ logsize ∧
      s' = { s with outstanding := s.outstanding + 1, spent := update s.spent p (some 0) } := by
  rw [beginOp] at h
  split at h
  · cases h
  split at h
  · cases h
  · rename_i hp hn
    cases h
    exact ⟨not_not.1 hp, not_lt.1 hn, rfl⟩

/-- `log_write` notes a block once. -/
theorem logWrite_spec (h : s.logWrite p m b v = .ok s') :
    s.lh.length + 1 < nlog ∧ s.outstanding ≠ 0 ∧
      s' = { s with
        mem := update s.mem b v
        lh := if b ∈ s.lh then s.lh else s.lh ++ [b]
        spent := update s.spent p (some (if b ∈ s.lh then m else m + 1)) } := by
  rw [logWrite] at h
  split at h
  · cases h
  split at h
  · cases h
  · rename_i hn ho
    cases h
    exact ⟨by omega, by omega, rfl⟩

/-- The last call to end has the log committed. -/
theorem endOp_spec (h : s.endOp p = .ok s') :
    s.phase = .idle ∧ s' = { s with
      outstanding := s.outstanding - 1
      spent := update s.spent p none
      phase := if s.outstanding - 1 = 0 then if s.lh = [] then .done else .writeLog 0 else .idle } := by
  simp only [endOp] at h
  split at h
  · cases h
  rename_i hp
  rw [not_not] at hp
  split at h <;> cases h <;> simp [*]

/-- A commit, or a recovery, leaves the calls alone, and the list of blocks until its end. -/
theorem advance_spec (h : s.advance = some s') :
    s'.outstanding = s.outstanding ∧ s'.spent = s.spent ∧ (s'.lh = s.lh ∨ s'.lh = []) := by
  rw [advance] at h
  split at h
  · cases h
  · split at h <;> cases h <;> exact ⟨rfl, rfl, .inl rfl⟩
  · split at h <;> cases h
    · exact ⟨rfl, rfl, .inl rfl⟩
    · exact ⟨rfl, rfl, .inr rfl⟩
  · cases h
    exact ⟨rfl, rfl, .inl rfl⟩
  · split at h <;> cases h
    · exact ⟨rfl, rfl, .inl rfl⟩
    · exact ⟨rfl, rfl, .inr rfl⟩

end Log

end Storage
