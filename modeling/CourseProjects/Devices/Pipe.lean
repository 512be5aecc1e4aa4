import CourseProjects.Lib.Circular
import CourseProjects.Lib.Simulation
import CourseProjects.Storage.Log

/-!
# Pipes

A pipe is a circular buffer of `PIPESIZE` bytes. A writer that finds it full sleeps until
somebody has read, and a reader that finds it empty until somebody has written. The lock of
the pipe is given up only in `sleep`, so the calls go on in turns: from the call, or from a
wake-up, to the next `sleep` or the return.
-/

namespace Devices

open Circular Function Storage

/-- `PIPESIZE`. -/
abbrev pipesize : ℕ := 512

/-- `struct pipe`. -/
structure Pipe where
  data : ℕ → UInt8
  nread : UInt32
  nwrite : UInt32
  readopen : Bool
  writeopen : Bool

/-- What `pipealloc` sets up. -/
def pipealloc : Pipe := ⟨0, 0, 0, true, true⟩

/-- How a turn of a call ends. -/
inductive Turn
  | sleep
  | failed
  | done
  deriving DecidableEq

namespace Pipe

variable (s : Pipe)

/-- One byte is put in. -/
def put (b : UInt8) : Pipe :=
  { s with data := update s.data (s.nwrite.toNat % pipesize) b, nwrite := s.nwrite + 1 }

/-- The loop of `pipewrite`: the pipe, and what is left to write. -/
def writeLoop (s : Pipe) (killed : Bool) : List UInt8 → Turn × List UInt8 × Pipe
  | [] => (.done, [], s)
  | b :: bs =>
    if s.nwrite = s.nread + UInt32.ofNat pipesize then
      (if s.readopen = false ∨ killed then .failed else .sleep, b :: bs, s)
    else (s.put b).writeLoop killed bs

/-- The second loop of `piperead`: the bytes that are read. -/
def readLoop (s : Pipe) : ℕ → List UInt8 × Pipe
  | 0 => ([], s)
  | n + 1 =>
    if s.nread = s.nwrite then ([], s)
    else
      let (bs, s') := { s with nread := s.nread + 1 }.readLoop n
      (s.data (s.nread.toNat % pipesize) :: bs, s')

end Pipe

/-- What a process is at: it has called `pipewrite`, with bytes left to write, or `piperead`, and
    it may be asleep. -/
inductive Caller
  | idle
  | writing (bs : List UInt8) (asleep : Bool)
  | reading (n : ℕ) (asleep : Bool)
  deriving DecidableEq

namespace Caller

/-- `wakeup` on `nread`. -/
def wakeReader : Caller → Caller
  | reading n _ => reading n false
  | c => c

/-- `wakeup` on `nwrite`. -/
def wakeWriter : Caller → Caller
  | writing bs _ => writing bs false
  | c => c

/-- The process is in a call that needs this end of the pipe. -/
def uses (writable : Bool) : Caller → Bool
  | idle => false
  | writing .. => writable
  | reading .. => !writable

end Caller

/-- A pipe, and the processes that have it open. -/
structure PipeUsers where
  pipe : Pipe
  caller : Fin nproc → Caller
  killed : Fin nproc → Bool

/-- What the processes do. -/
inductive PipeEvent
  | write (p : Fin nproc) (bs : List UInt8)
  | read (p : Fin nproc) (n : ℕ)
  /-- The process goes on with its call. -/
  | resume (p : Fin nproc)
  | kill (p : Fin nproc)
  | close (writable : Bool)

namespace PipeUsers

variable (s : PipeUsers)

/-- A turn of `pipewrite`, with these bytes left. -/
def pipewrite (p : Fin nproc) (bs : List UInt8) : PipeUsers :=
  match s.pipe.writeLoop (s.killed p) bs with
  | (.failed, _, pipe) => { s with pipe := pipe, caller := update s.caller p .idle }
  | (.sleep, bs', pipe) =>
    { s with
      pipe := pipe
      caller := update (fun q => (s.caller q).wakeReader) p (.writing bs' true) }
  | (.done, _, pipe) =>
    { s with pipe := pipe, caller := update (fun q => (s.caller q).wakeReader) p .idle }

/-- A turn of `piperead`, with the bytes it returns, unless it sleeps or fails. -/
def piperead (p : Fin nproc) (n : ℕ) : Option (List UInt8) × PipeUsers :=
  if s.pipe.nread = s.pipe.nwrite ∧ s.pipe.writeopen then
    (none, { s with caller := update s.caller p (if s.killed p then .idle else .reading n true) })
  else
    let (bs, pipe) := s.pipe.readLoop n
    (some bs,
      { s with pipe := pipe, caller := update (fun q => (s.caller q).wakeWriter) p .idle })

/-- `pipeclose`. -/
def pipeclose (writable : Bool) : PipeUsers :=
  if writable then
    { s with
      pipe := { s.pipe with writeopen := false }, caller := fun q => (s.caller q).wakeReader }
  else
    { s with
      pipe := { s.pipe with readopen := false }, caller := fun q => (s.caller q).wakeWriter }

/-- An end of the pipe is open while a process is in a call that needs it, since the process has
    a reference to its file. -/
def step : PipeEvent → Option PipeUsers
  | .write p bs =>
    if s.caller p = .idle ∧ s.pipe.writeopen then some (s.pipewrite p bs) else none
  | .read p n =>
    if s.caller p = .idle ∧ s.pipe.readopen then some (s.piperead p n).2 else none
  | .resume p =>
    match s.caller p with
    | .writing bs false => some (s.pipewrite p bs)
    | .reading n false => some (s.piperead p n).2
    | .writing _ true | .reading _ true | .idle => none
  | .kill p =>
    some { s with
      killed := update s.killed p true
      caller := update s.caller p (s.caller p).wakeReader.wakeWriter }
  | .close writable =>
    if ∃ p, (s.caller p).uses writable then none else some (s.pipeclose writable)

/-- Nobody is in a call yet. -/
def init : PipeUsers := ⟨pipealloc, fun _ => .idle, fun _ => false⟩

end PipeUsers

/-! ### The loops -/

namespace Pipe

/-- The pipe holds these bytes. -/
abbrev Holds (s : Pipe) (q : List UInt8) : Prop :=
  Circular.Holds pipesize s.data s.nread s.nwrite q

variable {s : Pipe} {q : List UInt8}

theorem holds_pipealloc : pipealloc.Holds [] := holds_nil ..

theorem Holds.full_iff (h : s.Holds q) :
    s.nwrite = s.nread + UInt32.ofNat pipesize ↔ q.length = pipesize :=
  h.counter_iff (by decide) (Nat.le_refl _)

theorem Holds.put {b : UInt8} (h : s.Holds q) (hq : q.length < pipesize) :
    (s.put b).Holds (q ++ [b]) :=
  h.push (by decide) hq

/-- The loop of `pipewrite` puts in what there is room for, and gives up or sleeps when bytes are
    left. -/
theorem Holds.writeLoop (h : s.Holds q) (killed : Bool) (bs : List UInt8) :
    ∃ t pre bs' s', s.writeLoop killed bs = (t, bs', s') ∧ bs = pre ++ bs' ∧ s'.Holds (q ++ pre) ∧
      s'.readopen = s.readopen ∧ s'.writeopen = s.writeopen ∧
      (t = .done ∧ bs' = [] ∨ bs' ≠ [] ∧ (q ++ pre).length = pipesize ∧
        t = if s.readopen = false ∨ killed then .failed else .sleep) := by
  induction bs generalizing s q with
  | nil => exact ⟨.done, [], [], s, rfl, rfl, by rwa [List.append_nil], rfl, rfl, .inl ⟨rfl, rfl⟩⟩
  | cons b bs ih =>
    rw [Pipe.writeLoop]
    split
    · rename_i hfull
      exact ⟨_, [], b :: bs, s, rfl, rfl, by rwa [List.append_nil], rfl, rfl,
        .inr ⟨nofun, by rw [List.append_nil, h.full_iff.1 hfull], rfl⟩⟩
    · rename_i hfull
      have hlt : q.length < pipesize :=
        Nat.lt_of_le_of_ne h.length_le fun he => hfull (h.full_iff.2 he)
      obtain ⟨t, pre, bs', s', heq, hbs, hs', hr, hw, ht⟩ := ih (h.put hlt)
      rw [List.append_assoc, List.singleton_append] at hs' ht
      exact ⟨t, b :: pre, bs', s', heq, by rw [hbs, List.cons_append], hs', hr, hw, ht⟩

/-- The loop of `piperead` takes out what there is. -/
theorem Holds.readLoop (h : s.Holds q) (n : ℕ) :
    ∃ s', s.readLoop n = (q.take n, s') ∧ s'.Holds (q.drop n) ∧ s'.readopen = s.readopen ∧
      s'.writeopen = s.writeopen := by
  induction n generalizing s q with
  | zero => exact ⟨s, rfl, h, rfl, rfl⟩
  | succ n ih =>
    rw [Pipe.readLoop]
    split
    · rename_i he
      obtain rfl := (h.eq_iff (by decide)).1 he
      exact ⟨s, rfl, h, rfl, rfl⟩
    · rename_i he
      cases q with
      | nil => exact absurd ((h.eq_iff (by decide)).2 rfl) he
      | cons b q =>
        obtain ⟨hb, hq⟩ := h.pop (by decide)
        obtain ⟨s', heq, hs', hr, hw⟩ := ih (s := { s with nread := s.nread + 1 }) hq
        refine ⟨s', ?_, hs', hr, hw⟩
        rw [heq, hb]
        rfl

end Pipe

end Devices
