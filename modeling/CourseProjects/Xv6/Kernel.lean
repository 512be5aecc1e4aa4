import CourseProjects.Xv6.Proc
import CourseProjects.Lib.Trace

/-!
# The kernel

The functions of the kernel that read and write the process table, section by
section, and the system they make (`Kernel.step`). An event is a scheduler picking
a process, or the process a processor runs giving it up, sleeping, entering the
kernel or going through its next section, or a wakeup of an address that is not
that of a slot. Which process is picked is left open here.

A system call is entered only by a process that is not killed: `trap` makes a killed
one call `exit`. An allocation or the loading of a program may fail (`ok`). A
section that ends in a panic is not possible: the machine stops there.
-/

namespace Xv6

/-- The slot of the first process. -/
def initproc : Slot := 0

/-- The system calls that work on the process table. -/
inductive Call
  | fork
  | exit
  | wait
  | kill (pid : ℤ)
  | threadCreate
  | threadExit (retVal : ℤ)
  | threadJoin (thread : ℤ)
  | exec
  deriving DecidableEq

/-- Where a system call starts. -/
def Call.entry : Call → Ctl
  | fork => .fork
  | exit => .exit
  | wait => .wait
  | kill pid => .kill pid
  | threadCreate => .create
  | threadExit v => .threadExit v
  | threadJoin t => .threadJoin t
  | exec => .exec

/-- The code before the next section may sleep: in a system call that leaves the table
    alone, while the files are closed, or while a program is looked up and loaded. -/
def Ctl.mayBlock : Ctl → Bool
  | user | threadExit _ | exitClose | execNamei _ | execLoad _ => true
  | _ => false

/-- What a scan of the table by `thread_join` comes to: it returns `0` with a value,
    returns `-1`, or sleeps. -/
inductive Joined
  | reaped (z : Slot) (retval : ℤ)
  | refused
  | waits
  deriving DecidableEq

namespace Kernel

variable {ncpu : ℕ} (k : Kernel ncpu)

/-! ### New slots -/

/-- `allocproc` takes a slot. (`setpriority` finds no parent of the slot, and leaves its
    priority.) -/
def embryo (np : Slot) : Kernel ncpu :=
  let k' := k.modify np fun x =>
    { x with state := .embryo, pid := k.nextpid, lastOut := false, ticks := 0, level := 0 }
  (k'.record np fun _ => { inst := k.nextpid }).global fun g => { g with nextpid := g.nextpid + 1 }

theorem embryo_proc (np q : Slot) :
    (k.embryo np).proc q =
      if q = np then
        { k.proc np with
          state := .embryo, pid := k.nextpid, lastOut := false, ticks := 0, level := 0 }
      else k.proc q := by
  simp [embryo, modify_proc]

/-- `allocproc`, under the lock. -/
def allocproc : Option (Slot × Kernel ncpu) :=
  (k.findSlot fun x => x.state = .unused).map fun np => (np, k.embryo np)

/-- `allocproc`, after the lock: the slot has a kernel stack and starts in `forkret`. -/
def allocStack (np : Slot) : Kernel ncpu :=
  (k.modify np fun x => { x with master := none, tid := 0 }).goto np .user

/-- A slot is given back, as an allocation failed. -/
def abandon (np : Slot) : Kernel ncpu :=
  k.modify np fun x => { x with state := .unused }

/-- The slot built is ready. -/
def ready (np : Slot) : Kernel ncpu :=
  k.modify np fun x => { x with state := .runnable }

/-! ### `fork` -/

def fork (p : Slot) : Kernel ncpu :=
  match k.allocproc with
  | none => k.goto p .user
  | some (np, k) => k.goto p (.forkAlloc np)

def forkAlloc (p np : Slot) (ok : Bool) : Kernel ncpu :=
  if ok then (k.allocStack np).goto p (.forkCopy np) else (k.abandon np).goto p .user

/-- The address space is copied by `copyuvm`. -/
def forkCopy (p np : Slot) (ok : Bool) : Kernel ncpu :=
  if ok then
    let k' := (k.modify np fun x => { x with pgdir := k.nextdir, parent := some p }).record np
      fun h => { h with forker := (k.past p).inst }
    (k'.goto p (.forkReady np)).global fun g => { g with nextdir := g.nextdir + 1 }
  else (k.abandon np).goto p .user

/-! ### `thread_create` -/

def threadCreate (p : Slot) : Kernel ncpu :=
  let master := (k.proc p).master.getD p
  match k.allocproc with
  | none => k.goto p .user
  | some (np, k) => k.goto p (.createAlloc np master)

def createAlloc (p np master : Slot) (ok : Bool) : Kernel ncpu :=
  if ok then (k.allocStack np).goto p (.createInit np master) else (k.abandon np).goto p .user

def createInit (p np master : Slot) : Kernel ncpu :=
  let k' := k.modify np fun x =>
    { x with tid := k.nexttid, master := some master, pid := (k.proc master).pid }
  (k'.goto p (.createMap np master)).global fun g => { g with nexttid := g.nexttid + 1 }

/-- Under the lock: the stack is mapped in the page directory of the master. -/
def createMap (p np master : Slot) : Kernel ncpu :=
  k.goto p (.createSet np (k.proc master).pgdir)

def createSet (p np : Slot) (pgdir : ℕ) : Kernel ncpu :=
  (k.modify np fun x => { x with pgdir := pgdir }).goto p (.createReady np)

/-! ### `sleep`, `thread_exit` and `thread_join` -/

/-- `sleep`, up to `sched`. -/
def sleep (c : Fin ncpu) (p : Slot) (chan : Chan) : Kernel ncpu :=
  (k.modify p fun x => { x with chan := some chan, state := .sleeping }).sched c

/-- The end of `exit` and `thread_exit`. -/
def die (c : Fin ncpu) (p : Slot) : Kernel ncpu :=
  ((k.modify p fun x => { x with state := .zombie }).goto p .dead).sched c

def threadExit (c : Fin ncpu) (p : Slot) (retVal : ℤ) : Kernel ncpu :=
  let k' := (k.modify p fun x => { x with tmpRetval := retVal }).record p
    fun h => { h with passed := some retVal }
  (k'.wakeup1 ((k.proc p).master.map .proc)).die c p

/-- A thread is cleared, by `thread_join` or the `exit` of its master. -/
def reapThread (p z : Slot) : Kernel ncpu :=
  let k' := k.modify z fun x =>
    { x with killed := false, state := .unused, pid := 0, parent := none, master := none }
  match (k.proc z).master with
  | none => k'
  | some m => k'.global fun g => { g with reaped := ⟨(k.proc z).tid, m, p⟩ :: g.reaped }

section

variable (c c' : Fin ncpu) (p q z : Slot) (v : ℤ)

@[grind =] theorem die_proc :
    (k.die c p).proc q = if q = p then { k.proc p with state := .zombie } else k.proc q := by
  grind [die]

@[grind =] theorem die_cpu : (k.die c p).cpu c' = if c' = c then none else k.cpu c' := by
  grind [die]

@[grind =] theorem die_ctl : (k.die c p).ctl q = if q = p then .dead else k.ctl q := by
  grind [die]

@[simp, grind =] theorem die_past : (k.die c p).past q = k.past q := rfl

@[simp, grind =] theorem die_toGlobals : (k.die c p).toGlobals = k.toGlobals := rfl

@[grind =] theorem threadExit_cpu :
    (k.threadExit c p v).cpu c' = if c' = c then none else k.cpu c' := by
  rw [threadExit, die_cpu]
  rfl

@[grind =] theorem threadExit_ctl :
    (k.threadExit c p v).ctl q = if q = p then .dead else k.ctl q := by
  rw [threadExit, die_ctl]
  rfl

@[simp, grind =] theorem threadExit_toGlobals : (k.threadExit c p v).toGlobals = k.toGlobals := rfl

@[grind =] theorem reapThread_proc :
    (k.reapThread p z).proc q =
      if q = z then
        { k.proc z with
          killed := false, state := .unused, pid := 0, parent := none, master := none }
      else k.proc q := by
  rw [reapThread]
  split <;> grind

@[simp, grind =] theorem reapThread_cpu : (k.reapThread p z).cpu c = k.cpu c := by
  rw [reapThread]
  split <;> rfl

@[simp, grind =] theorem reapThread_ctl : (k.reapThread p z).ctl q = k.ctl q := by
  rw [reapThread]
  split <;> rfl

@[simp, grind =] theorem reapThread_past : (k.reapThread p z).past q = k.past q := by
  rw [reapThread]
  split <;> rfl

/-- The counters stay; the record of the threads reaped grows by a worker. -/
theorem reapThread_toGlobals :
    (k.reapThread p z).toGlobals =
      { k.toGlobals with
        reaped := match (k.proc z).master with
          | none => k.reaped
          | some m => ⟨(k.proc z).tid, m, p⟩ :: k.reaped } := by
  rw [reapThread]
  split <;> rfl

@[simp, grind =] theorem reapThread_nextpid : (k.reapThread p z).nextpid = k.nextpid := by
  rw [reapThread_toGlobals]

@[simp, grind =] theorem reapThread_nexttid : (k.reapThread p z).nexttid = k.nexttid := by
  rw [reapThread_toGlobals]

@[simp, grind =] theorem reapThread_nextdir : (k.reapThread p z).nextdir = k.nextdir := by
  rw [reapThread_toGlobals]

@[simp, grind =] theorem reapThread_freed : (k.reapThread p z).freed = k.freed := by
  rw [reapThread_toGlobals]

end

/-- `thread_join` before its loop. -/
def threadJoin (p : Slot) (thread : ℤ) : Kernel ncpu :=
  if (k.proc p).master ≠ none then k.goto p .user else k.goto p (.joinScan thread)

/-- One round of the loop of `thread_join`. -/
def joinScan (c : Fin ncpu) (p : Slot) (thread : ℤ) : Joined × Kernel ncpu :=
  match k.findSlot fun x => x.tid = thread ∧ x.state = .zombie with
  | some z => (.reaped z (k.proc z).tmpRetval, (k.reapThread p z).goto p .user)
  | none =>
    if (k.proc p).killed then (.refused, k.goto p .user) else (.waits, k.sleep c p (.proc p))

/-! ### `exit`, `wait` and `kill` -/

/-- `exit` before its first section; the first process may not exit. -/
def exit (p : Slot) : Option (Kernel ncpu) :=
  if p = initproc then none
  else some (k.goto p (if (k.proc p).tid = 0 then .exitReap else .exitClose))

/-- The body of the first loop of `exit`, with `thread_exist`. -/
def exitReapSlot (p : Slot) (a : Bool × Kernel ncpu) (q : Slot) : Bool × Kernel ncpu :=
  if (a.2.proc q).master = some p then
    if (a.2.proc q).state = .zombie then (a.1, a.2.reapThread p q)
    else (true, (a.2.modify q fun x => { x with killed := true }).wakeup1 (some (.proc q)))
  else a

def exitReap (c : Fin ncpu) (p : Slot) : Kernel ncpu :=
  let a := forSlots (exitReapSlot p) (false, k)
  if a.1 then a.2.sleep c p (.proc p) else a.2.goto p .exitClose

/-- The body of the loop of `exit` that passes the children to `initproc`. -/
def reparentSlot (p : Slot) (k : Kernel ncpu) (q : Slot) : Kernel ncpu :=
  if (k.proc q).parent = some p then
    let k' := k.modify q fun x => { x with parent := some initproc }
    if (k.proc q).state = .zombie then k'.wakeup1 (some (.proc initproc)) else k'
  else k

/-- `exit` after the files are closed: the parent, or the master, is told. -/
def exitNotify (p : Slot) : Kernel ncpu :=
  if (k.proc p).tid = 0 then k.wakeup1 ((k.proc p).parent.map .proc)
  else
    match (k.proc p).master with
    | none => k
    | some m => (k.modify m fun x => { x with killed := true }).wakeup1 (some (.proc m))

def exitClose (c : Fin ncpu) (p : Slot) : Kernel ncpu :=
  (forSlots (reparentSlot p) (k.exitNotify p)).die c p

/-- A child is cleared, and its page directory freed, by `wait`. -/
def reapChild (z : Slot) : Kernel ncpu :=
  k.modify z fun x => { x with pid := 0, parent := none, killed := false, state := .unused }

/-- One round of the loop of `wait`. -/
def wait (c : Fin ncpu) (p : Slot) : Kernel ncpu :=
  match k.findSlot fun x => x.parent = some p ∧ x.state = .zombie with
  | some z => (k.reapChild z).goto p .user
  | none =>
    if (k.findSlot fun x => x.parent = some p) = none ∨ (k.proc p).killed then k.goto p .user
    else k.sleep c p (.proc p)

def kill (p : Slot) (pid : ℤ) : Kernel ncpu :=
  match k.findSlot fun x => x.pid = pid with
  | none => k.goto p .user
  | some q =>
    let k' := k.modify q fun x =>
      { x with killed := true, state := if x.state = .sleeping then .runnable else x.state }
    k'.goto p .user

/-! ### `exec` -/

/-- The start of `exec`: a worker thread becomes a master. -/
def exec (p : Slot) : Kernel ncpu :=
  match (k.proc p).master with
  | none => k.goto p (.execKill 0)
  | some m =>
    let k' := k.modify p fun x => { x with parent := (k.proc m).parent, master := none, tid := 0 }
    k'.goto p (.execKill (k.proc p).tid)

/-- `thread_kill`. -/
def threadKill (p : Slot) : Kernel ncpu :=
  if (k.proc p).killed then k
  else
    { k with proc := fun q =>
        if q ≠ p ∧ (k.proc p).pid = (k.proc q).pid then
          { k.proc q with state := .sleeping, killed := true, chan := none }
        else k.proc q }

/-- The program is looked up; `exec` returns at once when there is none. -/
def execNamei (p : Slot) (prevTid : ℤ) (ok : Bool) : Kernel ncpu :=
  if ok then k.goto p (.execLoad prevTid) else k.goto p .user

section

variable (p q : Slot) (c : Fin ncpu)

@[grind =] theorem threadKill_proc :
    (k.threadKill p).proc q =
      if (k.proc p).killed = false ∧ q ≠ p ∧ (k.proc p).pid = (k.proc q).pid then
        { k.proc q with state := .sleeping, killed := true, chan := none }
      else k.proc q := by
  cases h : (k.proc p).killed <;> simp [threadKill, h]

@[simp, grind =] theorem threadKill_cpu : (k.threadKill p).cpu c = k.cpu c := by
  cases h : (k.proc p).killed <;> simp [threadKill, h]

@[simp, grind =] theorem threadKill_ctl : (k.threadKill p).ctl q = k.ctl q := by
  cases h : (k.proc p).killed <;> simp [threadKill, h]

@[simp, grind =] theorem threadKill_past : (k.threadKill p).past q = k.past q := by
  cases h : (k.proc p).killed <;> simp [threadKill, h]

@[simp, grind =] theorem threadKill_toGlobals : (k.threadKill p).toGlobals = k.toGlobals := by
  cases h : (k.proc p).killed <;> simp [threadKill, h]

end

/-- The other slots with the pid of a slot. -/
def siblings (p : Slot) : List Slot :=
  (List.finRange nproc).filter fun q =>
    q ≠ p ∧ (k.proc q).state ≠ .unused ∧ (k.proc q).pid = (k.proc p).pid

/-- The program is loaded and committed to; the old page directory is freed unless
    the caller was a worker thread. -/
def execLoad (p : Slot) (prevTid : ℤ) (ok : Bool) : Kernel ncpu :=
  if ok then
    let k' := (k.modify p fun x => { x with pgdir := k.nextdir }).record p fun h =>
      { h with former := (k.siblings p).map fun q => (k.past q).inst }
    (k'.goto p .execWake).global fun g =>
      { g with
        nextdir := g.nextdir + 1
        freed := if prevTid = 0 then (k.proc p).pgdir :: g.freed else g.freed }
  else k.goto p .execWake

/-- A slot that `thread_wakeup` wakes. -/
@[grind =] def wakes (p q : Slot) : Bool :=
  (k.proc q).state = .sleeping ∧ (k.proc q).pid = (k.proc p).pid ∧ q ≠ p

/-- `thread_wakeup`, up to the call of `wait`. -/
def threadWakeup (p : Slot) : Kernel ncpu :=
  { k with proc := fun q =>
      if k.wakes p q then
        { k.proc q with
          parent := if (k.proc q).parent = none then none else some p
          state := .runnable }
      else k.proc q }

section

variable (p q : Slot) (c : Fin ncpu)

@[grind =] theorem threadWakeup_proc :
    (k.threadWakeup p).proc q =
      if k.wakes p q then
        { k.proc q with
          parent := if (k.proc q).parent = none then none else some p
          state := .runnable }
      else k.proc q := rfl

@[simp, grind =] theorem threadWakeup_cpu : (k.threadWakeup p).cpu c = k.cpu c := rfl

@[simp, grind =] theorem threadWakeup_ctl : (k.threadWakeup p).ctl q = k.ctl q := rfl

@[simp, grind =] theorem threadWakeup_past : (k.threadWakeup p).past q = k.past q := rfl

@[simp, grind =] theorem threadWakeup_toGlobals :
    (k.threadWakeup p).toGlobals = k.toGlobals := rfl

end

/-- The end of `exec`: `thread_wakeup` waits unless no slot it woke has a parent. -/
def execWake (p : Slot) : Kernel ncpu :=
  if ∃ q, k.wakes p q ∧ (k.proc q).parent ≠ none then (k.threadWakeup p).goto p .wait
  else (k.threadWakeup p).goto p .user

/-! ### The system -/

/-- The next section of a kernel thread. -/
def advance (c : Fin ncpu) (p : Slot) (ok : Bool) : Option (Kernel ncpu) :=
  match k.ctl p with
  | .user => none
  | .fork => some (k.fork p)
  | .forkAlloc np => some (k.forkAlloc p np ok)
  | .forkCopy np => some (k.forkCopy p np ok)
  | .forkReady np => some ((k.ready np).goto p .user)
  | .create => some (k.threadCreate p)
  | .createAlloc np master => some (k.createAlloc p np master ok)
  | .createInit np master => some (k.createInit p np master)
  | .createMap np master => some (k.createMap p np master)
  | .createSet np pgdir => some (k.createSet p np pgdir)
  | .createReady np => some ((k.ready np).goto p .user)
  | .threadExit v => some (k.threadExit c p v)
  | .threadJoin t => some (k.threadJoin p t)
  | .joinScan t => some (k.joinScan c p t).2
  | .exit => k.exit p
  | .exitReap => some (k.exitReap c p)
  | .exitClose => some (k.exitClose c p)
  | .wait => some (k.wait c p)
  | .kill pid => some (k.kill p pid)
  | .exec => some (k.exec p)
  | .execKill prevTid => some ((k.threadKill p).goto p (.execNamei prevTid))
  | .execNamei prevTid => some (k.execNamei p prevTid ok)
  | .execLoad prevTid => some (k.execLoad p prevTid ok)
  | .execWake => some (k.execWake p)
  | .dead => none

/-- A system call: `trap` makes a killed process exit. -/
def syscall (p : Slot) (call : Call) : Kernel ncpu :=
  k.goto p (if (k.proc p).killed then .exit else call.entry)

/-- A processor takes up a process, which goes on after its last call of `sched`, in
    `sleep` by clearing its `chan`. -/
def dispatch (c : Fin ncpu) (p : Slot) : Kernel ncpu :=
  (k.modify p fun x => { x with state := .running, chan := none }).take c p

end Kernel

/-- The events of the system. -/
inductive Event (ncpu : ℕ)
  /-- The scheduler of a processor picks a process. -/
  | dispatch (c : Fin ncpu) (p : Slot)
  /-- The process of a processor calls `yield`. -/
  | yield (c : Fin ncpu)
  /-- It sleeps on an address that is not that of a slot. -/
  | sleep (c : Fin ncpu) (n : ℕ)
  /-- It makes a system call. -/
  | syscall (c : Fin ncpu) (call : Call)
  /-- It misbehaves in user mode: `trap` kills it. -/
  | fault (c : Fin ncpu)
  /-- It goes through the next section of its code. -/
  | advance (c : Fin ncpu) (ok : Bool)
  /-- `wakeup` of an address that is not that of a slot. -/
  | wakeup (n : ℕ)
  deriving DecidableEq

/-- The numerals of two processors. -/
instance twoProcessors : NeZero (2 : ℕ) := ⟨by decide⟩

namespace Kernel

variable {ncpu : ℕ}

/-- One event. -/
def step (k : Kernel ncpu) : Event ncpu → Option (Kernel ncpu)
  | .dispatch c p =>
    -- A dead thread picked again runs into the panic at the end of `exit`.
    if k.cpu c = none ∧ (k.proc p).state = .runnable ∧ k.ctl p ≠ .dead then
      some (k.dispatch c p)
    else none
  | .yield c =>
    (k.cpu c).map fun p => (k.modify p fun x => { x with state := .runnable }).sched c
  | .sleep c n =>
    (k.cpu c).bind fun p =>
      if (k.ctl p).mayBlock then some (k.sleep c p (.other n)) else none
  | .syscall c call =>
    (k.cpu c).bind fun p => if k.ctl p = .user then some (k.syscall p call) else none
  | .fault c =>
    (k.cpu c).bind fun p =>
      if k.ctl p = .user then
        some ((k.modify p fun x => { x with killed := true }).goto p .exit)
      else none
  | .advance c ok => (k.cpu c).bind fun p => k.advance c p ok
  | .wakeup n => some (k.wakeup1 (some (.other n)))

/-- The process that an event is a step of. -/
def actor (k : Kernel ncpu) : Event ncpu → Option Slot
  | .yield c | .sleep c _ | .syscall c _ | .fault c | .advance c _ => k.cpu c
  | .dispatch _ _ | .wakeup _ => none

/-- The kernel after `userinit`. -/
def boot (ncpu : ℕ) : Kernel ncpu where
  proc := Function.update (fun _ => {}) initproc { state := .runnable, pid := 1, pgdir := 1 }
  cpu := fun _ => none
  ctl := Function.update (fun _ => .dead) initproc .user
  nextpid := 2
  nexttid := 1
  nextdir := 2
  past := Function.update (fun _ => {}) initproc { inst := 1 }
  freed := []
  reaped := []

@[grind =] theorem boot_proc (q : Slot) :
    (boot ncpu).proc q =
      if q = initproc then { state := .runnable, pid := 1, pgdir := 1 } else {} := by
  simp [boot, Function.update_apply]

@[simp, grind =] theorem boot_cpu (c : Fin ncpu) : (boot ncpu).cpu c = none := rfl

@[grind =] theorem boot_ctl (q : Slot) :
    (boot ncpu).ctl q = if q = initproc then .user else .dead := by
  simp [boot, Function.update_apply]

@[grind =] theorem boot_past (q : Slot) :
    (boot ncpu).past q = if q = initproc then { inst := 1 } else {} := by
  simp [boot, Function.update_apply]

@[simp, grind =] theorem boot_toGlobals :
    (boot ncpu).toGlobals = ⟨2, 1, 2, [], []⟩ := rfl

end Kernel

end Xv6
