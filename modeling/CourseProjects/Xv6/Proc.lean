import Mathlib

/-!
# The process table

The slots of the process table (`Proc`), the processors, and the kernel thread of
each slot: where its code stands between two sections that run under
`ptable.lock` (`Ctl`). A section under the lock is one step; so is the code
between two of them, which writes only the caller's slot and the slot it is
building.

The counters `nextpid` and `nexttid` do not wrap around, and page directories are
numbered in the order of their allocation. The address spaces, the files and the
saved registers of the processes are left out: no code of the table reads them.
-/

namespace Xv6

/-- The number of slots of the process table, `NPROC`. -/
abbrev nproc : ℕ := 64

instance : NeZero nproc := ⟨by decide⟩

/-- A pointer to a slot of the process table. -/
abbrev Slot := Fin nproc

/-- `enum procstate`. -/
inductive ProcState
  | unused
  | embryo
  | sleeping
  | runnable
  | running
  | zombie
  deriving DecidableEq

/-- An address slept on: that of a slot, or any other (`&ticks`, a buffer, a pipe). -/
inductive Chan
  | proc (p : Slot)
  | other (n : ℕ)
  deriving DecidableEq

/-- `struct proc`. -/
structure Proc where
  pgdir : ℕ := 0
  state : ProcState := .unused
  pid : ℤ := 0
  parent : Option Slot := none
  chan : Option Chan := none
  killed : Bool := false
  ticks : ℕ := 0
  level : ℤ := 0
  priority : ℤ := 0
  lastOut : Bool := false
  tid : ℤ := 0
  master : Option Slot := none
  tmpRetval : ℤ := 0
  deriving DecidableEq

/-- Where the kernel thread of a slot stands: in user mode or in code that leaves
    the table alone (`user`), at the entry of a system call, or before its next
    section. -/
inductive Ctl
  | user
  | fork
  | forkAlloc (np : Slot)
  | forkCopy (np : Slot)
  | forkReady (np : Slot)
  | create
  | createAlloc (np master : Slot)
  | createInit (np master : Slot)
  | createMap (np master : Slot)
  | createSet (np : Slot) (pgdir : ℕ)
  | createReady (np : Slot)
  | threadExit (retVal : ℤ)
  | threadJoin (thread : ℤ)
  | joinScan (thread : ℤ)
  | exit
  | exitReap
  | exitClose
  | wait
  | kill (pid : ℤ)
  | exec
  | execKill (prevTid : ℤ)
  | execNamei (prevTid : ℤ)
  | execLoad (prevTid : ℤ)
  | execWake
  /-- `sched` was called for the last time, from `exit` or `thread_exit`. -/
  | dead
  deriving DecidableEq

/-- What the occupant of a slot has done, read by no code: the pid `allocproc` drew
    for it, which names it among all occupants of all slots, the name of the one
    that forked it, the value it passed to `thread_exit`, and the names of the
    other threads of its process when it went through `exec`. -/
structure Past where
  inst : ℤ := 0
  forker : ℤ := 0
  passed : Option ℤ := none
  former : List ℤ := []
  deriving DecidableEq

/-- A thread that was reaped: its id, its master, and the slot that reaped it. -/
structure Reaped where
  tid : ℤ
  master : Slot
  reaper : Slot
  deriving DecidableEq

/-- The counters, and two records of the run: the page directories `exec` freed, and the
    threads reaped. -/
structure Globals where
  nextpid : ℤ
  nexttid : ℤ
  nextdir : ℕ
  freed : List ℕ
  reaped : List Reaped
  deriving DecidableEq

/-- The kernel: the process table, the process each processor runs (`c->proc`), the
    kernel threads and what they did, and the counters. -/
structure Kernel (ncpu : ℕ) extends Globals where
  proc : Slot → Proc
  cpu : Fin ncpu → Option Slot
  ctl : Slot → Ctl
  past : Slot → Past

namespace Kernel

variable {ncpu : ℕ} (k : Kernel ncpu)

/-! ### Writes -/

/-- Write to a slot. -/
def modify (p : Slot) (f : Proc → Proc) : Kernel ncpu :=
  { k with proc := Function.update k.proc p (f (k.proc p)) }

/-- The kernel thread of a slot goes on. -/
def goto (p : Slot) (x : Ctl) : Kernel ncpu :=
  { k with ctl := Function.update k.ctl p x }

/-- `sched`: a processor leaves the process it runs. -/
def sched (c : Fin ncpu) : Kernel ncpu :=
  { k with cpu := Function.update k.cpu c none }

/-- A processor takes up a process. -/
def take (c : Fin ncpu) (p : Slot) : Kernel ncpu :=
  { k with cpu := Function.update k.cpu c (some p) }

/-- Record what the occupant of a slot did. -/
def record (p : Slot) (f : Past → Past) : Kernel ncpu :=
  { k with past := Function.update k.past p (f (k.past p)) }

/-- Write to the counters and the records. -/
def global (f : Globals → Globals) : Kernel ncpu :=
  { k with toGlobals := f k.toGlobals }

/-- `wakeup1`. -/
def wakeup1 (chan : Option Chan) : Kernel ncpu :=
  { k with proc := fun p =>
      if (k.proc p).state = .sleeping ∧ (k.proc p).chan = chan then
        { k.proc p with state := .runnable }
      else k.proc p }

/-- A loop over the table, slot after slot. -/
def forSlots {α : Type*} (f : α → Slot → α) (a : α) : α :=
  (List.finRange nproc).foldl f a

/-- The first slot, in the order of the table, that satisfies `f`. -/
def findSlot (f : Proc → Bool) : Option Slot :=
  (List.finRange nproc).find? fun p => f (k.proc p)

/-! ### What they write -/

section Writes

variable (p q : Slot) (c c' : Fin ncpu) (f : Proc → Proc) (g : Past → Past) (x : Ctl)
  (h : Globals → Globals) (chan : Option Chan)

@[grind =] theorem modify_proc :
    (k.modify p f).proc q = if q = p then f (k.proc p) else k.proc q := by
  simp [modify, Function.update_apply]

@[simp, grind =] theorem modify_cpu : (k.modify p f).cpu c' = k.cpu c' := rfl

@[simp, grind =] theorem modify_ctl : (k.modify p f).ctl q = k.ctl q := rfl

@[simp, grind =] theorem modify_past : (k.modify p f).past q = k.past q := rfl

@[simp, grind =] theorem modify_toGlobals : (k.modify p f).toGlobals = k.toGlobals := rfl

@[simp, grind =] theorem goto_proc : (k.goto p x).proc q = k.proc q := rfl

@[simp, grind =] theorem goto_cpu : (k.goto p x).cpu c' = k.cpu c' := rfl

@[grind =] theorem goto_ctl : (k.goto p x).ctl q = if q = p then x else k.ctl q := by
  simp [goto, Function.update_apply]

@[simp, grind =] theorem goto_past : (k.goto p x).past q = k.past q := rfl

@[simp, grind =] theorem goto_toGlobals : (k.goto p x).toGlobals = k.toGlobals := rfl

@[simp, grind =] theorem sched_proc : (k.sched c).proc q = k.proc q := rfl

@[grind =] theorem sched_cpu : (k.sched c).cpu c' = if c' = c then none else k.cpu c' := by
  simp [sched, Function.update_apply]

@[simp, grind =] theorem sched_ctl : (k.sched c).ctl q = k.ctl q := rfl

@[simp, grind =] theorem sched_past : (k.sched c).past q = k.past q := rfl

@[simp, grind =] theorem sched_toGlobals : (k.sched c).toGlobals = k.toGlobals := rfl

@[simp, grind =] theorem take_proc : (k.take c p).proc q = k.proc q := rfl

@[grind =] theorem take_cpu : (k.take c p).cpu c' = if c' = c then some p else k.cpu c' := by
  simp [take, Function.update_apply]

@[simp, grind =] theorem take_ctl : (k.take c p).ctl q = k.ctl q := rfl

@[simp, grind =] theorem take_past : (k.take c p).past q = k.past q := rfl

@[simp, grind =] theorem take_toGlobals : (k.take c p).toGlobals = k.toGlobals := rfl

@[simp, grind =] theorem record_proc : (k.record p g).proc q = k.proc q := rfl

@[simp, grind =] theorem record_cpu : (k.record p g).cpu c' = k.cpu c' := rfl

@[simp, grind =] theorem record_ctl : (k.record p g).ctl q = k.ctl q := rfl

@[grind =] theorem record_past :
    (k.record p g).past q = if q = p then g (k.past p) else k.past q := by
  simp [record, Function.update_apply]

@[simp, grind =] theorem record_toGlobals : (k.record p g).toGlobals = k.toGlobals := rfl

@[simp, grind =] theorem global_proc : (k.global h).proc q = k.proc q := rfl

@[simp, grind =] theorem global_cpu : (k.global h).cpu c' = k.cpu c' := rfl

@[simp, grind =] theorem global_ctl : (k.global h).ctl q = k.ctl q := rfl

@[simp, grind =] theorem global_past : (k.global h).past q = k.past q := rfl

@[simp, grind =] theorem global_toGlobals : (k.global h).toGlobals = h k.toGlobals := rfl

@[grind =] theorem wakeup1_proc :
    (k.wakeup1 chan).proc q =
      if (k.proc q).state = .sleeping ∧ (k.proc q).chan = chan then
        { k.proc q with state := .runnable }
      else k.proc q := rfl

@[simp, grind =] theorem wakeup1_cpu : (k.wakeup1 chan).cpu c' = k.cpu c' := rfl

@[simp, grind =] theorem wakeup1_ctl : (k.wakeup1 chan).ctl q = k.ctl q := rfl

@[simp, grind =] theorem wakeup1_past : (k.wakeup1 chan).past q = k.past q := rfl

@[simp, grind =] theorem wakeup1_toGlobals : (k.wakeup1 chan).toGlobals = k.toGlobals := rfl

end Writes

/-- A write that leaves a field of the slot leaves it everywhere. -/
theorem modify_field {β : Type*} (π : Proc → β) {p : Slot} {f : Proc → Proc}
    (hf : ∀ x, π (f x) = π x) (q : Slot) : π ((k.modify p f).proc q) = π (k.proc q) := by
  rw [modify_proc]
  split
  · rename_i h
    rw [h, hf]
  · rfl

/-! ### Scans of the table -/

variable {k} {f : Proc → Bool} {p : Slot}

theorem findSlot_some (h : k.findSlot f = some p) : f (k.proc p) = true :=
  List.find?_some (p := fun p => f (k.proc p)) h

theorem findSlot_none (h : k.findSlot f = none) (p : Slot) : f (k.proc p) = false := by
  simpa using List.find?_eq_none.1 h p (List.mem_finRange p)

variable {α : Type*} {g : α → Slot → α} {P : α → Prop} {R : α → Slot → Prop} {a : α}

/-- A loop over the table whose body, keeping `P`, brings about `R` at the slot it is at,
    and keeps it at the others, brings it about at every slot. -/
theorem forSlots_all
    (hg : ∀ a p, P a → P (g a p) ∧ R (g a p) p ∧ ∀ q, R a q → R (g a p) q) (ha : P a) :
    P (forSlots g a) ∧ ∀ p, R (forSlots g a) p := by
  suffices h : ∀ (l : List Slot) a, P a →
      P (l.foldl g a) ∧ (∀ p ∈ l, R (l.foldl g a) p) ∧ ∀ p, R a p → R (l.foldl g a) p by
    obtain ⟨hP, hR, -⟩ := h (List.finRange nproc) a ha
    exact ⟨hP, fun p => hR p (List.mem_finRange p)⟩
  intro l
  induction l with
  | nil => exact fun a ha => ⟨ha, by simp, fun _ h => h⟩
  | cons p l ih =>
    intro a ha
    obtain ⟨hP, hp, hq⟩ := hg a p ha
    obtain ⟨hP', hl, hk⟩ := ih (g a p) hP
    refine ⟨hP', fun q hql => ?_, fun q h => hk q (hq q h)⟩
    rcases List.mem_cons.1 hql with rfl | hql
    · exact hk q hp
    · exact hl q hql

/-- A property kept by the body of a loop over the table is kept by the loop. -/
theorem forSlots_inv (hg : ∀ a p, P a → P (g a p)) (ha : P a) : P (forSlots g a) :=
  (forSlots_all (R := fun _ _ => True) (fun a p h => ⟨hg a p h, trivial, fun _ _ => trivial⟩) ha).1

end Kernel

end Xv6
