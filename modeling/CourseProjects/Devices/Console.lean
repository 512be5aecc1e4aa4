import CourseProjects.Lib.Circular
import CourseProjects.Lib.Simulation
import CourseProjects.Devices.Pipe

/-!
# The console

What is typed goes into a circular buffer of `INPUT_BUF` bytes, and can be edited until the
end of the line. A read takes out what there is of a line, and sleeps until the next line is
complete when it has not got enough.

The keys come from interrupts, one after the other, between the turns of the reads. Of what
appears on the screen, the model has the echo of the keys.
-/

namespace Devices

open Circular Function Storage

/-- `INPUT_BUF`. -/
abbrev inputBuf : ℕ := 128

/-- `C(x)`: the key with control. -/
def ctrl (x : Char) : UInt8 := UInt8.ofNat (x.toNat - '@'.toNat)

/-- The end of a line. -/
abbrev newline : UInt8 := 10

/-- The buffer of the console, with the echo on the screen, where erased bytes are erased. -/
structure Input where
  buf : ℕ → UInt8
  r : UInt32
  w : UInt32
  e : UInt32
  echo : List UInt8

namespace Input

variable (s : Input)

/-- The last byte is taken back, and `consputc` erases it. -/
def erase : Input := { s with e := s.e - 1, echo := s.echo.dropLast }

/-- A byte is put in, and `consputc` shows it. -/
def put (c : UInt8) : Input :=
  { s with
    buf := update s.buf (s.e.toNat % inputBuf) c, e := s.e + 1, echo := s.echo ++ [c] }

theorem toNat_erase_lt (h : s.e ≠ s.w) : (s.e - 1 - s.w).toNat < (s.e - s.w).toNat := by
  have hne : s.e - s.w ≠ 0 := fun h0 => h (sub_eq_zero.1 h0)
  have hpos : 0 < (s.e - s.w).toNat :=
    Nat.pos_of_ne_zero fun h0 => hne (UInt32.toNat_inj.1 h0)
  have hle : 1 ≤ s.e - s.w := UInt32.le_iff_toNat_le.2 (Nat.succ_le_of_lt hpos)
  rw [sub_right_comm, UInt32.toNat_sub_of_le _ _ hle]
  exact Nat.sub_lt hpos Nat.one_pos

/-- The loop of control-U. -/
def killLine (s : Input) : Input :=
  if s.e ≠ s.w ∧ s.buf ((s.e - 1).toNat % inputBuf) ≠ newline then s.erase.killLine else s
termination_by (s.e - s.w).toNat
decreasing_by exact s.toNat_erase_lt (‹_ ∧ _› : s.e ≠ s.w ∧ _).1

/-- A key of `consoleintr`, and whether it wakes up who sleeps on `input.r`. -/
def key (c : UInt8) : Bool × Input :=
  if c = ctrl 'P' then (false, s)
  else if c = ctrl 'U' then (false, s.killLine)
  else if c = ctrl 'H' ∨ c = 0x7f then (false, if s.e ≠ s.w then s.erase else s)
  else if c ≠ 0 ∧ s.e - s.r < UInt32.ofNat inputBuf then
    let c := if c = 13 then newline else c
    let s' := s.put c
    if c = newline ∨ c = ctrl 'D' ∨ s'.e = s'.r + UInt32.ofNat inputBuf then
      (true, { s' with w := s'.e })
    else (false, s')
  else (false, s)

/-- The byte that is read next, of what has been committed. -/
def next : Option UInt8 :=
  if s.r = s.w then none else some (s.buf (s.r.toNat % inputBuf))

/-- A turn of the loop of `consoleread`: how it ends, what it has still to read, what it has
    read, and the buffer. -/
def readLoop (s : Input) (killed : Bool) (target : ℕ) :
    ℕ → List UInt8 → Turn × ℕ × List UInt8 × Input
  | 0, got => (.done, 0, got, s)
  | n + 1, got =>
    if s.r = s.w then (if killed then .failed else .sleep, n + 1, got, s)
    else
      let c := s.buf (s.r.toNat % inputBuf)
      let s' := { s with r := s.r + 1 }
      if c = ctrl 'D' then
        -- The end of the input is for the next call when there is something to return.
        (.done, n + 1, got, if n + 1 < target then { s' with r := s'.r - 1 } else s')
      else if c = newline then (.done, n, got ++ [c], s')
      else s'.readLoop killed target n (got ++ [c])

end Input

/-- What a process is at: it has called `consoleread` for `target` bytes. -/
inductive Reader
  | idle
  | reading (target n : ℕ) (got : List UInt8) (asleep : Bool)
  deriving DecidableEq

/-- `wakeup` on `input.r`. -/
def Reader.wake : Reader → Reader
  | idle => idle
  | reading target n got _ => reading target n got false

/-- The console, and the processes that read from it. -/
structure Console where
  input : Input
  reader : Fin nproc → Reader
  killed : Fin nproc → Bool

/-- What happens at the console. -/
inductive ConsoleEvent
  | key (c : UInt8)
  | read (p : Fin nproc) (n : ℕ)
  /-- The process goes on with its call. -/
  | resume (p : Fin nproc)
  | kill (p : Fin nproc)

namespace Console

variable (s : Console)

/-- A key, in `consoleintr`. -/
def consoleintr (c : UInt8) : Console :=
  match s.input.key c with
  | (woken, input) =>
    { s with input := input, reader := fun p => if woken then (s.reader p).wake else s.reader p }

/-- A turn of `consoleread`, with the bytes it returns, unless it sleeps or fails. -/
def consoleread (p : Fin nproc) (target n : ℕ) (got : List UInt8) :
    Option (List UInt8) × Console :=
  match s.input.readLoop (s.killed p) target n got with
  | (.sleep, n', got', input) =>
    (none, { s with
      input := input, reader := update s.reader p (.reading target n' got' true) })
  | (.failed, _, _, input) =>
    (none, { s with input := input, reader := update s.reader p .idle })
  | (.done, _, got', input) =>
    (some got', { s with input := input, reader := update s.reader p .idle })

def step : ConsoleEvent → Option Console
  | .key c => some (s.consoleintr c)
  | .read p n => if s.reader p = .idle then some (s.consoleread p n n []).2 else none
  | .resume p =>
    match s.reader p with
    | .reading target n got false => some (s.consoleread p target n got).2
    | .reading _ _ _ true | .idle => none
  | .kill p =>
    some { s with killed := update s.killed p true, reader := update s.reader p (s.reader p).wake }

/-- Nothing has been typed yet. -/
def init : Console := ⟨⟨0, 0, 0, 0, []⟩, fun _ => .idle, fun _ => false⟩

end Console

end Devices
