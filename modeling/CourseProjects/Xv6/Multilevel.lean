import CourseProjects.Lib.Trace
import CourseProjects.Xv6.Kernel

/-!
# The multilevel queue

The kernel under `MULTILEVEL_SCHED`. An iteration of `scheduler` looks for a ready
process with an even pid, goes over the table, and dispatches from it the first two
processes and those with an even pid; the processes with an odd pid enter a queue, and
the iteration ends with the first one of the queue, unless it started with a ready
process with an even pid. While a process that an iteration dispatched runs, the lock
of the table is free, and the iteration waits in the middle of the loop.

After the dispatch from the queue, `scheduler` does not clear `c->proc`; here `cpu` is
the process that runs.

* `even_first`: where no process with an even pid becomes ready while an iteration
  that found none waits, a process with an odd pid is dispatched only when none with an
  even pid is ready.
-/

namespace Xv6

/-- A ready process with an even pid, that of the shell apart. -/
def Kernel.EvenReady {ncpu : ℕ} (k : Kernel ncpu) (p : Slot) : Prop :=
  (k.proc p).pid ≠ 2 ∧ (k.proc p).pid.tmod 2 = 0 ∧ (k.proc p).state = .runnable

instance {ncpu : ℕ} (k : Kernel ncpu) : DecidablePred k.EvenReady :=
  fun _ => inferInstanceAs (Decidable (_ ∧ _ ∧ _))

/-- An iteration of `scheduler`: what it found first, and the slots that the loop over the
    table has still to go through. -/
structure Iteration where
  evenExist : Bool
  rest : List Slot
  deriving DecidableEq

/-- The kernel, the processor whose scheduler holds the lock of the table, the iterations
    of the processors, and the queue of the processes with an odd pid. -/
structure Multilevel (ncpu : ℕ) extends Kernel ncpu where
  lock : Option (Fin ncpu)
  iter : Fin ncpu → Option Iteration
  arr : ℕ → Option Slot
  front : ℕ
  rear : ℕ

/-- The events of the system. -/
inductive MultilevelEvent (ncpu : ℕ)
  /-- The scheduler of a processor takes the lock and starts an iteration. -/
  | acquire (c : Fin ncpu)
  /-- It goes on: through the next slot of the table, or through the end of the iteration. -/
  | schedule (c : Fin ncpu)
  /-- An event of the kernel; the scheduler alone picks processes. -/
  | kernel (e : Event ncpu)
  deriving DecidableEq

/-- The processor of an event. -/
def Event.cpu {ncpu : ℕ} : Event ncpu → Option (Fin ncpu)
  | .dispatch c _ | .yield c | .sleep c _ | .syscall c _ | .fault c | .advance c _ => some c
  | .wakeup _ => none

namespace Multilevel

variable {ncpu : ℕ} (m : Multilevel ncpu)

/-! ### The queue -/

/-- A process of the queue has the pid of this one. -/
def InQu (p : Slot) : Prop :=
  ∃ i < m.rear, m.front ≤ i ∧ ∃ q ∈ m.arr i, (m.proc q).pid = (m.proc p).pid

instance : DecidablePred m.InQu :=
  fun p => inferInstanceAs (Decidable (∃ i < m.rear, m.front ≤ i ∧ ∃ q ∈ m.arr i,
    (m.proc q).pid = (m.proc p).pid))

def push (p : Slot) : Multilevel ncpu :=
  if m.InQu p then m
  else
    { m with
      arr := Function.update m.arr (m.rear % 80) (some p)
      rear := (m.rear + 1) % 80 }

def pop : Multilevel ncpu :=
  if m.front = m.rear then m
  else
    { m with
      arr := Function.update m.arr m.front none
      front := (m.front + 1) % 80 }

def get : Option Slot := if m.front = m.rear then none else m.arr m.front

/-! ### An iteration -/

/-- The scheduler starts an iteration: it looks for a ready process with an even pid. -/
def acquire (c : Fin ncpu) : Multilevel ncpu :=
  { m with
    lock := some c
    iter := Function.update m.iter c
      (some { evenExist := decide (∃ p, m.EvenReady p), rest := List.finRange nproc }) }

/-- The scheduler hands the processor and the lock to a process. A dead thread picked again
    runs into a panic. -/
def swtch (c : Fin ncpu) (p : Slot) : Option (Multilevel ncpu) :=
  if m.ctl p = .dead then none
  else some { m with toKernel := m.toKernel.dispatch c p, lock := none }

/-- The body of the loop over the table. -/
def scanSlot (c : Fin ncpu) (evenExist : Bool) (p : Slot) : Option (Multilevel ncpu) :=
  if (m.proc p).state ≠ .runnable then some m
  else if (m.proc p).pid = 1 ∨ (m.proc p).pid = 2 then m.swtch c p
  else if evenExist then
    if (m.proc p).pid.tmod 2 = 0 then m.swtch c p else some (m.push p)
  else if (m.proc p).pid.tmod 2 = 1 then some (m.push p)
  else some m

/-- The end of an iteration, and of its hold of the lock. -/
def release (c : Fin ncpu) : Multilevel ncpu :=
  { m with lock := none, iter := Function.update m.iter c none }

/-- After the loop: the first process of the queue is dispatched if it is ready, else it
    leaves the queue. -/
def fcfs (c : Fin ncpu) (evenExist : Bool) : Option (Multilevel ncpu) :=
  match if evenExist then none else m.get with
  | none => some (m.release c)
  | some p => if (m.proc p).state ≠ .runnable then some (m.pop.release c)
    else (m.release c).swtch c p

/-- The scheduler of a processor goes on. -/
def schedule (c : Fin ncpu) : Option (Multilevel ncpu) :=
  match m.iter c with
  | none => none
  | some ⟨evenExist, []⟩ => m.fcfs c evenExist
  | some ⟨evenExist, p :: rest⟩ =>
    scanSlot { m with iter := Function.update m.iter c (some ⟨evenExist, rest⟩) } c evenExist p

/-- The process of a processor may have left it, with the lock: an iteration that is not over
    goes on. -/
def leave (e : Event ncpu) (k : Kernel ncpu) : Multilevel ncpu :=
  { m with
    toKernel := k
    lock := e.cpu.filter fun c => k.cpu c = none ∧ (m.iter c).isSome }

/-- One event. -/
def step : MultilevelEvent ncpu → Option (Multilevel ncpu)
  | .acquire c => if m.cpu c = none ∧ m.lock = none then some (m.acquire c) else none
  | .schedule c => if m.lock = some c then m.schedule c else none
  | .kernel (.dispatch _ _) => none
  | .kernel e => if m.lock = none then (m.toKernel.step e).map (m.leave e) else none

/-- The kernel after `userinit`, with an empty queue. -/
def boot (ncpu : ℕ) : Multilevel ncpu where
  toKernel := Kernel.boot ncpu
  lock := none
  iter := fun _ => none
  arr := fun _ => none
  front := 0
  rear := 0

variable {m} {m' : Multilevel ncpu} {c : Fin ncpu} {p q : Slot} {e : MultilevelEvent ncpu}

/-! ### What the scheduler does -/

@[simp] theorem push_toKernel : (m.push p).toKernel = m.toKernel := by
  rw [push]
  split <;> rfl

@[simp] theorem push_lock : (m.push p).lock = m.lock := by
  rw [push]
  split <;> rfl

@[simp] theorem push_iter : (m.push p).iter = m.iter := by
  rw [push]
  split <;> rfl

@[simp] theorem pop_toKernel : m.pop.toKernel = m.toKernel := by
  rw [pop]
  split <;> rfl

@[simp] theorem pop_iter : m.pop.iter = m.iter := by
  rw [pop]
  split <;> rfl

theorem swtch_eq (h : m.swtch c p = some m') :
    m' = { m with toKernel := m.toKernel.dispatch c p, lock := none } := by
  simp only [swtch, Option.ite_none_left_eq_some, Option.some.injEq] at h
  exact h.2.symm

/-- An iteration that goes on is the one it was, or it is over; and it dispatches a process
    or none: the first two, one with an even pid, or the first of the queue at the end of an
    iteration that found no even pid. -/
theorem schedule_cases (h : m.schedule c = some m') :
    ∃ it ∈ m.iter c,
      (m'.iter = Function.update m.iter c none ∨
        ∃ rest, m'.iter = Function.update m.iter c (some { it with rest := rest })) ∧
      (m'.toKernel = m.toKernel ∧ (m'.lock = m.lock ∨ m'.lock = none) ∨
        ∃ p, m'.toKernel = m.toKernel.dispatch c p ∧ m'.lock = none ∧
          ((m.proc p).pid = 1 ∨ (m.proc p).pid.tmod 2 = 0 ∨ it.evenExist = false)) := by
  rw [schedule] at h
  split at h
  · cases h
  · rename_i even hi
    refine ⟨_, hi, ?_⟩
    rw [fcfs] at h
    split at h
    · cases h
      exact ⟨.inl rfl, .inl ⟨rfl, .inr rfl⟩⟩
    · rename_i p hp
      split at h
      · cases h
        exact ⟨.inl (by simp [release]), .inl ⟨by simp [release], .inr rfl⟩⟩
      · have := swtch_eq h
        subst this
        refine ⟨.inl rfl, .inr ⟨p, rfl, rfl, .inr (.inr ?_)⟩⟩
        cases even
        · rfl
        · cases hp
  · rename_i even p rest hi
    refine ⟨_, hi, ?_⟩
    rw [scanSlot] at h
    split at h
    · cases h
      exact ⟨.inr ⟨rest, rfl⟩, .inl ⟨rfl, .inl rfl⟩⟩
    · split at h
      · rename_i hpid
        have := swtch_eq h
        subst this
        refine ⟨.inr ⟨rest, rfl⟩, .inr ⟨p, rfl, rfl, ?_⟩⟩
        rcases hpid with hpid | hpid
        · exact .inl hpid
        · exact .inr (.inl (by rw [show (m.proc p).pid = 2 from hpid]; rfl))
      · split at h
        · split at h
          · rename_i hpid
            have := swtch_eq h
            subst this
            exact ⟨.inr ⟨rest, rfl⟩, .inr ⟨p, rfl, rfl, .inr (.inl hpid)⟩⟩
          · cases h
            exact ⟨.inr ⟨rest, by simp⟩, .inl ⟨by simp, .inl (by simp)⟩⟩
        · split at h
          · cases h
            exact ⟨.inr ⟨rest, by simp⟩, .inl ⟨by simp, .inl (by simp)⟩⟩
          · cases h
            exact ⟨.inr ⟨rest, rfl⟩, .inl ⟨rfl, .inl rfl⟩⟩

theorem step_kernel {e : Event ncpu} (h : m.step (.kernel e) = some m') :
    m.lock = none ∧ ∃ k, m.toKernel.step e = some k ∧ m' = m.leave e k := by
  cases e <;>
    simp only [step, reduceCtorEq, Option.ite_none_right_eq_some, Option.map_eq_some_iff] at h
  all_goals
    obtain ⟨hl, k, hk, rfl⟩ := h
    exact ⟨hl, k, hk, rfl⟩

/-! ### Runs in which no process with an even pid becomes ready behind an iteration -/

/-- While an iteration that found no ready process with an even pid waits, no process with an
    even pid becomes ready. -/
def KeepsOdd (m : Multilevel ncpu) : MultilevelEvent ncpu → Prop
  | .kernel e => (∃ c, ∃ it ∈ m.iter c, it.evenExist = false) →
      ∀ k ∈ m.toKernel.step e, ∀ p, k.EvenReady p → m.EvenReady p
  | _ => True

instance (m : Multilevel ncpu) : DecidablePred (KeepsOdd m)
  | .kernel e => inferInstanceAs (Decidable ((∃ c, ∃ it ∈ m.iter c, it.evenExist = false) →
      ∀ k ∈ m.toKernel.step e, ∀ p, k.EvenReady p → m.EvenReady p))
  | .acquire _ | .schedule _ => isTrue trivial

/-- The scheduler that holds the lock runs no process, and where an iteration found no ready
    process with an even pid there is none. -/
structure OddTurn (m : Multilevel ncpu) : Prop where
  lock : ∀ c, m.lock = some c → m.cpu c = none
  none_even : ∀ c, ∀ it ∈ m.iter c, it.evenExist = false → ∀ p, ¬ m.EvenReady p

theorem evenReady_of_dispatch {k : Kernel ncpu} (h : (k.dispatch c p).EvenReady q) :
    k.EvenReady q := by
  simp only [Kernel.EvenReady, Kernel.dispatch] at h ⊢
  grind

theorem OddTurn.step (h : OddTurn m) (hk : m.KeepsOdd e) (he : m.step e = some m') :
    OddTurn m' := by
  cases e with
  | acquire c =>
    simp only [Multilevel.step, Option.ite_none_right_eq_some, Option.some.injEq] at he
    obtain ⟨⟨hc, -⟩, rfl⟩ := he
    refine ⟨fun c' hc' => ?_, fun c' it hit hf => ?_⟩
    · cases hc'
      exact hc
    · rcases eq_or_ne c' c with rfl | hne
      · -- The iteration starts with what there is.
        simp only [Multilevel.acquire, Function.update_self, Option.mem_some_iff] at hit
        subst hit
        exact not_exists.1 (of_decide_eq_false hf)
      · refine h.none_even c' it ?_ hf
        simpa [Multilevel.acquire, hne] using hit
  | schedule c =>
    simp only [Multilevel.step, Option.ite_none_right_eq_some] at he
    obtain ⟨hl, he⟩ := he
    obtain ⟨it, hit, hiter, hkernel⟩ := schedule_cases he
    have hodd : ∀ c', ∀ it' ∈ m'.iter c', it'.evenExist = false →
        ∃ c'', ∃ it'' ∈ m.iter c'', it''.evenExist = false := by
      intro c' it' hit' hf
      rcases eq_or_ne c' c with rfl | hne
      · refine ⟨c', it, hit, ?_⟩
        rcases hiter with hi | ⟨rest, hi⟩
        · simp [hi] at hit'
        · simp only [hi, Function.update_self, Option.mem_some_iff] at hit'
          subst hit'
          exact hf
      · refine ⟨c', it', ?_, hf⟩
        rcases hiter with hi | ⟨rest, hi⟩ <;> simpa [hi, hne] using hit'
    rcases hkernel with ⟨hk', hl'⟩ | ⟨p, hk', hl', -⟩
    · refine ⟨fun c' hc' => ?_, fun c' it' hit' hf => ?_⟩
      · rw [hk']
        exact h.lock c' (by grind)
      · obtain ⟨c'', it'', hit'', hf''⟩ := hodd c' it' hit' hf
        rw [hk']
        exact h.none_even c'' it'' hit'' hf''
    · refine ⟨fun c' hc' => ?_, fun c' it' hit' hf q hq => ?_⟩
      · rw [hl'] at hc'
        cases hc'
      · obtain ⟨c'', it'', hit'', hf''⟩ := hodd c' it' hit' hf
        rw [hk'] at hq
        exact h.none_even c'' it'' hit'' hf'' q (evenReady_of_dispatch hq)
  | kernel e =>
    obtain ⟨hl, k, hstep, rfl⟩ := step_kernel he
    refine ⟨fun c' hc' => ?_, fun c' it hit hf q hq => ?_⟩
    · simp only [leave, Option.filter_eq_some_iff] at hc'
      simpa [leave] using (of_decide_eq_true hc'.2).1
    · exact h.none_even c' it hit hf q (hk ⟨c', it, hit, hf⟩ k hstep q hq)

theorem oddTurn_boot : OddTurn (boot ncpu) := by
  refine ⟨fun c hc => ?_, fun c it hit => ?_⟩
  · cases hc
  · cases hit

/-- In every run in which no process with an even pid other than `2` becomes ready while an
    iteration that found none waits, whenever the scheduler dispatches a process with an odd
    pid other than `1`, no process with an even pid other than `2` is ready. -/
theorem even_first {es : List (MultilevelEvent ncpu)}
    (hk : Trace.Along Multilevel.step KeepsOdd (boot ncpu) es)
    (hr : Trace.run Multilevel.step (boot ncpu) es = some m)
    (he : m.step (.schedule c) = some m') (hp : m'.cpu c = some p)
    (hodd : (m.proc p).pid.tmod 2 ≠ 0) (hone : (m.proc p).pid ≠ 1) :
    ∀ q, (m.proc q).pid ≠ 2 → (m.proc q).pid.tmod 2 = 0 → (m.proc q).state ≠ .runnable := by
  have h : OddTurn m := Trace.run_inv (fun _ _ _ h hk he => h.step hk he) oddTurn_boot hk hr
  simp only [step, Option.ite_none_right_eq_some] at he
  obtain ⟨hl, he⟩ := he
  have hc := h.lock c hl
  obtain ⟨it, hit, -, ⟨hk', -⟩ | ⟨p', hk', -, hpid⟩⟩ := schedule_cases he
  · rw [hk', hc] at hp
    cases hp
  · have hpp : p = p' := by
      rw [hk'] at hp
      simpa [Kernel.dispatch, Kernel.take_cpu, eq_comm] using hp
    subst hpp
    rcases hpid with h1 | h0 | hf
    · exact absurd h1 hone
    · exact absurd h0 hodd
    · exact fun q h2 h0 hr => h.none_even c it hit hf q ⟨h2, h0, hr⟩

/-- The process of the first processor forks. -/
def forkChild : List (MultilevelEvent 1) :=
  .kernel (.syscall 0 .fork) :: List.replicate 4 (.kernel (.advance 0 true))

/-- The first process, dispatched from the table, forks a number of times and yields; the
    second one yields at once, and the loop goes through the rest of the table. -/
def forkChildren (n : ℕ) : List (MultilevelEvent 1) :=
  [.acquire 0, .schedule 0] ++ (List.replicate n forkChild).flatten ++
    [.kernel (.yield 0), .schedule 0, .kernel (.yield 0)] ++ List.replicate 62 (.schedule 0)

theorem even_first_forkChildren :
    ∃ m m' p, Trace.run Multilevel.step (boot 1) (forkChildren 2) = some m ∧
      m.step (.schedule 0) = some m' ∧ m'.cpu 0 = some p ∧ (m.proc p).pid = 3 ∧
      ∀ q, (m.proc q).pid ≠ 2 → (m.proc q).pid.tmod 2 = 0 → (m.proc q).state ≠ .runnable := by
  have hm : ∃ m ∈ Trace.run Multilevel.step (boot 1) (forkChildren 2),
      ∃ m' ∈ m.step (.schedule 0), ∃ p ∈ m'.cpu 0, (m.proc p).pid = 3 := by
    decide +kernel
  obtain ⟨m, hr, m', he, p, hp, hpid⟩ := hm
  exact ⟨m, m', p, hr, he, hp, hpid,
    even_first (by decide +kernel) hr he hp (by rw [hpid]; decide) (by rw [hpid]; decide)⟩

/-- The first process forks three children: the one with pid 3 is dispatched from the queue
    while the one with pid 4 is ready. -/
theorem odd_overtakes :
    ∃ m ∈ Trace.run Multilevel.step (boot 1) (forkChildren 3),
      ∃ m' ∈ m.step (.schedule 0), ∃ p ∈ m'.cpu 0, (m.proc p).pid = 3 ∧
        ∃ q, (m.proc q).pid = 4 ∧ (m.proc q).state = .runnable := by
  decide +kernel

end Multilevel
end Xv6
