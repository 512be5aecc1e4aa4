import CourseProjects.Xv6.Kin

/-!
# The multilevel feedback queue

The kernel under `MLFQ_SCHED`: an iteration of `scheduler` on each processor with its
local `prev`, the accounting of the timer interrupt in `trap`, and the system calls
that reset the level of their caller.

Integers are 32 bits wide: `ticks` wraps around, and so does the quantum of a level.

* `mlfq_never_idles`: a processor that looks for a process while one is ready runs
  one exactly when its `prev` is null or ready.
-/

namespace Xv6

/-! ### The accounting of the timer -/

/-- The time quantum of a level, as `trap` computes it. -/
def quantum (level : ℤ) : ℕ := ((4 * level + 2) % 2 ^ 32).toNat

/-- The accounting of `trap` for the process a timer interrupts: its ticks, the boost, and
    the check of the quantum. -/
def Proc.charge (mlfqK : ℤ) (clock : ℕ) (x : Proc) : Proc :=
  let x := { x with ticks := (x.ticks + 1) % 2 ^ 32 }
  let x :=
    if clock % 100 = 0 ∧ 0 < x.pid then { x with level := 0, ticks := 0, lastOut := false } else x
  if x.lastOut = false ∧ quantum x.level ≤ x.ticks then
    if x.level < mlfqK - 1 then { x with level := x.level + 1, ticks := 0 }
    else { x with lastOut := true }
  else x

/-- `syscall`, entered for `yield` or `sleep`. -/
def Proc.reset (x : Proc) : Proc := { x with level := 0, ticks := 0 }

/-! ### The system -/

/-- The kernel, the locals `prev` and `prev_lev` of the scheduler of each processor, and
    `ticks`. -/
structure Mlfq (ncpu : ℕ) extends Kernel ncpu where
  prev : Fin ncpu → Option Slot
  prevLev : Fin ncpu → ℤ
  clock : ℕ

/-- The events of the system. -/
inductive MlfqEvent (ncpu : ℕ)
  /-- The scheduler of a processor goes through an iteration, up to `swtch`. -/
  | schedule (c : Fin ncpu)
  /-- `ticks` grows, and its sleepers are woken: `&ticks` is the address `0`. -/
  | clock
  /-- The timer interrupts the process of a processor, which yields. -/
  | timer (c : Fin ncpu)
  /-- The process of a processor calls `yield` or `sleep`. -/
  | reset (c : Fin ncpu)
  /-- It sets the priority of a child. -/
  | setpriority (c : Fin ncpu) (pid priority : ℤ)
  /-- An event of the kernel; the scheduler alone picks processes. -/
  | kernel (e : Event ncpu)
  deriving DecidableEq

namespace Mlfq

variable {ncpu : ℕ} (m : Mlfq ncpu)

/-- The body of the loop of `scheduler` over the table. -/
def scanSlot (tmp : Option Slot) (p : Slot) : Option Slot :=
  if (m.proc p).state ≠ .runnable then tmp
  else if (m.proc p).pid = 1 then some p
  else
    match tmp with
    | none => some p
    | some t =>
      if (m.proc p).lastOut then tmp
      else if (m.proc p).level = (m.proc t).level then
        if (m.proc t).priority < (m.proc p).priority then some p else tmp
      else if (m.proc p).level < (m.proc t).level then some p
      else tmp

/-- The process an iteration looks at: `prev`, or what the scan of the table finds. -/
def tmp (c : Fin ncpu) : Option Slot :=
  match m.prev c with
  | some p => some p
  | none => Kernel.forSlots m.scanSlot none

/-- A process takes up a processor. -/
def pick (c : Fin ncpu) (p : Slot) : Mlfq ncpu :=
  { m with
    toKernel := m.toKernel.dispatch c p
    prevLev := Function.update m.prevLev c (m.proc p).level }

/-- An iteration of `scheduler`, up to `swtch`: the process is checked once more. A dead
    thread picked again runs into a panic. -/
def schedule (c : Fin ncpu) : Option (Mlfq ncpu) :=
  match m.tmp c with
  | none => some m
  | some p =>
    if (m.proc p).state = .runnable then
      if m.ctl p = .dead then none else some (m.pick c p)
    else some m

/-- The end of the iterations of the processors that a process leaves: `prev` is that
    process, if it is ready, still at its level and has not used up the last quantum. -/
def leave (k : Kernel ncpu) : Mlfq ncpu :=
  { m with
    toKernel := k
    prev := fun c =>
      match m.cpu c, k.cpu c with
      | some p, none =>
        if m.prevLev c ≠ (k.proc p).level ∨ (k.proc p).lastOut ∨ (k.proc p).state ≠ .runnable then
          none
        else some p
      | _, _ => m.prev c }

/-- `setpriority`, called by a process. -/
def setpriority (p : Slot) (pid priority : ℤ) : Kernel ncpu :=
  if priority < 0 ∨ 10 < priority then m.toKernel
  else
    let child := fun x : Proc =>
      x.pid = pid ∧ ∃ q ∈ x.parent, (m.proc q).pid = (m.proc p).pid
    match m.toKernel.findSlot fun x => child x with
    | none => m.toKernel
    | some q => m.toKernel.modify q fun x => { x with priority := priority }

/-- One event. -/
def step (mlfqK : ℤ) : MlfqEvent ncpu → Option (Mlfq ncpu)
  | .schedule c => if m.cpu c = none then m.schedule c else none
  | .clock =>
    some { m with
      toKernel := m.toKernel.wakeup1 (some (.other 0))
      clock := (m.clock + 1) % 2 ^ 32 }
  | .timer c =>
    (m.cpu c).map fun p =>
      if (m.proc p).state = .running then
        m.leave (((m.toKernel.modify p (Proc.charge mlfqK m.clock)).modify p fun x =>
          { x with state := .runnable }).sched c)
      else m
  | .reset c =>
    (m.cpu c).bind fun p =>
      if m.ctl p = .user then
        some { m with
          toKernel :=
            if (m.proc p).killed then m.toKernel.goto p .exit
            else m.toKernel.modify p Proc.reset }
      else none
  | .setpriority c pid priority =>
    (m.cpu c).bind fun p =>
      if m.ctl p = .user then some { m with toKernel := m.setpriority p pid priority } else none
  | .kernel (.dispatch _ _) => none
  | .kernel e => (m.toKernel.step e).map m.leave

/-- The kernel after `userinit`, with idle schedulers. -/
def boot (ncpu : ℕ) : Mlfq ncpu where
  toKernel := Kernel.boot ncpu
  prev := fun _ => none
  prevLev := fun _ => 0
  clock := 0

variable {m} {m' : Mlfq ncpu} {mlfqK : ℤ} {c : Fin ncpu} {p : Slot}

/-! ### The kernel under the scheduler -/

/-- The accounting writes the ticks, the level and `last_out`. -/
theorem charge_spec (mlfqK : ℤ) (clock : ℕ) (x : Proc) :
    ∃ t l o, x.charge mlfqK clock = { x with ticks := t, level := l, lastOut := o } := by
  simp only [Proc.charge]
  split <;> split <;> try split
  all_goals exact ⟨_, _, _, rfl⟩

/-- A write that the rest of the kernel does not read. -/
theorem quiet_account (k : Kernel ncpu) {f : Proc → Proc}
    (hf : ∀ x, ∃ t l o r, f x = { x with ticks := t, level := l, lastOut := o, priority := r }) :
    Kernel.Quiet k (k.modify p f) := by
  obtain ⟨t, l, o, r, h⟩ := hf (k.proc p)
  constructor <;> intros <;> grind

theorem quiet_charge (k : Kernel ncpu) (clock : ℕ) :
    Kernel.Quiet k (k.modify p (Proc.charge mlfqK clock)) := by
  refine quiet_account k fun x => ?_
  obtain ⟨t, l, o, h⟩ := charge_spec mlfqK clock x
  exact ⟨t, l, o, x.priority, h⟩

theorem quiet_setpriority (pid priority : ℤ) :
    Kernel.Quiet m.toKernel (m.setpriority p pid priority) := by
  rw [setpriority]
  split
  · exact .refl _
  · dsimp only
    split
    · exact .refl _
    · exact quiet_account _ fun x => ⟨x.ticks, x.level, x.lastOut, _, rfl⟩

theorem schedule_cases (h : m.schedule c = some m') :
    m' = m ∨ ∃ p, m.tmp c = some p ∧ (m.proc p).state = .runnable ∧ m.ctl p ≠ .dead ∧
      m' = m.pick c p := by
  rw [schedule] at h
  split at h
  · exact .inl (Option.some.inj h).symm
  · rename_i p hp
    split at h
    · rename_i hr
      split at h
      · cases h
      · rename_i hd
        exact .inr ⟨p, hp, hr, hd, (Option.some.inj h).symm⟩
    · exact .inl (Option.some.inj h).symm

end Mlfq

/-- The event does not call `exec`. -/
def MlfqEvent.NoExec {ncpu : ℕ} : MlfqEvent ncpu → Prop
  | .kernel e => Kernel.NoExec e
  | _ => True

instance {ncpu : ℕ} : DecidablePred (@MlfqEvent.NoExec ncpu)
  | .kernel e => inferInstanceAs (Decidable (Kernel.NoExec e))
  | .schedule _ | .clock | .timer _ | .reset _ | .setpriority _ _ _ => isTrue trivial

namespace Mlfq

variable {ncpu : ℕ} {m m' : Mlfq ncpu} {mlfqK : ℤ} {c : Fin ncpu} {p : Slot} {e : MlfqEvent ncpu}

/-! ### What an event comes to -/

theorem step_schedule (h : m.step mlfqK (.schedule c) = some m') :
    m.cpu c = none ∧ (m' = m ∨ ∃ p, m.tmp c = some p ∧ (m.proc p).state = .runnable ∧
      m.ctl p ≠ .dead ∧ m' = m.pick c p) := by
  simp only [step, Option.ite_none_right_eq_some] at h
  exact ⟨h.1, schedule_cases h.2⟩

theorem step_timer (h : m.step mlfqK (.timer c) = some m') :
    ∃ p, m.cpu c = some p ∧ ((m.proc p).state ≠ .running ∧ m' = m ∨
      (m.proc p).state = .running ∧
        m' = m.leave (((m.toKernel.modify p (Proc.charge mlfqK m.clock)).modify p fun x =>
          { x with state := .runnable }).sched c)) := by
  obtain ⟨p, hc, rfl⟩ := Option.map_eq_some_iff.1 h
  refine ⟨p, hc, ?_⟩
  split
  · exact .inr ⟨‹_›, rfl⟩
  · exact .inl ⟨‹_›, rfl⟩

theorem step_reset (h : m.step mlfqK (.reset c) = some m') :
    ∃ p, m.cpu c = some p ∧ m.ctl p = .user ∧
      ((m.proc p).killed = true ∧ m' = { m with toKernel := m.toKernel.goto p .exit } ∨
        (m.proc p).killed = false ∧ m' = { m with toKernel := m.toKernel.modify p Proc.reset }) := by
  obtain ⟨p, hc, h⟩ := Option.bind_eq_some_iff.1 h
  simp only [Option.ite_none_right_eq_some, Option.some.injEq] at h
  obtain ⟨hu, rfl⟩ := h
  refine ⟨p, hc, hu, ?_⟩
  cases hk : (m.proc p).killed <;> simp

theorem step_setpriority {pid priority : ℤ}
    (h : m.step mlfqK (.setpriority c pid priority) = some m') :
    ∃ p, m.cpu c = some p ∧ m' = { m with toKernel := m.setpriority p pid priority } := by
  obtain ⟨p, hc, h⟩ := Option.bind_eq_some_iff.1 h
  simp only [Option.ite_none_right_eq_some, Option.some.injEq] at h
  exact ⟨p, hc, h.2.symm⟩

theorem step_kernel {e : Event ncpu} (h : m.step mlfqK (.kernel e) = some m') :
    ∃ k, m.toKernel.step e = some k ∧ m' = m.leave k ∧ ∀ c q, e ≠ .dispatch c q := by
  cases e <;> simp only [step, reduceCtorEq, Option.map_eq_some_iff] at h
  all_goals
    obtain ⟨k, hk, rfl⟩ := h
    exact ⟨k, hk, rfl, by simp⟩

/-- An event of the system makes moves of the kernel, or is an event of the kernel. -/
theorem step_moves (h : m.step mlfqK e = some m') :
    Kernel.Moves m.toKernel m'.toKernel ∨
      ∃ e', e = .kernel e' ∧ m.toKernel.step e' = some m'.toKernel := by
  cases e with
  | schedule c =>
    obtain ⟨hc, rfl | ⟨p, -, hr, hd, rfl⟩⟩ := step_schedule h
    · exact .inl .refl
    · exact .inl (Kernel.Move.dispatch hc hr hd).moves
  | clock =>
    cases h
    exact .inl (Kernel.moves_wakeup1 _)
  | timer c =>
    obtain ⟨p, hc, ⟨-, rfl⟩ | ⟨-, rfl⟩⟩ := step_timer h
    · exact .inl .refl
    · exact .inl ((Kernel.Move.quiet (quiet_charge _ _)).moves.tail (Kernel.Move.yield hc))
  | reset c =>
    obtain ⟨p, hc, hu, ⟨-, rfl⟩ | ⟨-, rfl⟩⟩ := step_reset h
    · exact .inl (Kernel.Moves.refl.goto hc (hu ▸ .trap))
    · have hq : Kernel.Quiet m.toKernel (m.toKernel.modify p Proc.reset) :=
        quiet_account _ fun x => ⟨0, 0, x.lastOut, x.priority, rfl⟩
      exact .inl (Kernel.Move.quiet hq).moves
  | setpriority c pid priority =>
    obtain ⟨p, hc, rfl⟩ := step_setpriority h
    exact .inl (Kernel.Move.quiet (quiet_setpriority _ _)).moves
  | kernel e =>
    obtain ⟨k, hk, rfl, -⟩ := step_kernel h
    exact .inr ⟨e, rfl, hk⟩

theorem step_execless (h : Kernel.Execless m.toKernel) (hn : e.NoExec)
    (he : m.step mlfqK e = some m') : Kernel.Execless m'.toKernel := by
  rcases step_moves he with hm | ⟨e', rfl, he'⟩
  · generalize m'.toKernel = k' at hm
    clear he
    induction hm with
    | refl => exact h
    | tail _ hm ih => exact ih.move hm
  · exact h.step hn he'

/-! ### The choice of the scheduler -/

theorem scan_spec (m : Mlfq ncpu) :
    (∀ t ∈ Kernel.forSlots m.scanSlot none, (m.proc t).state = .runnable) ∧
      ∀ p, (m.proc p).state = .runnable → Kernel.forSlots m.scanSlot none ≠ none := by
  refine Kernel.forSlots_all (g := m.scanSlot) (a := none)
    (P := fun a => ∀ t ∈ a, (m.proc t).state = .runnable)
    (R := fun a p => (m.proc p).state = .runnable → a ≠ none) ?_ (by simp)
  intro a p ha
  cases a <;> grind [scanSlot]

variable (mlfqK) in
/-- An iteration that starts while a process is ready runs one exactly when `prev` is null or
    ready. -/
theorem schedule_dispatches_iff (h : Kernel.Execless m.toKernel) (hc : m.cpu c = none)
    (hp : ∃ p, (m.proc p).state = .runnable) :
    (∃ m' q, m.step mlfqK (.schedule c) = some m' ∧ m'.cpu c = some q ∧
        (m.proc q).state = .runnable) ↔
      ∀ q ∈ m.prev c, (m.proc q).state = .runnable := by
  obtain ⟨p, hp⟩ := hp
  have hd : ∀ q, (m.proc q).state = .runnable → m.ctl q ≠ .dead := fun q hq hdead => by
    have := h.kin.sound.dead q hdead
    simp [hq, ProcState.active] at this
  have hiff : (∃ m' q, m.step mlfqK (.schedule c) = some m' ∧ m'.cpu c = some q ∧
      (m.proc q).state = .runnable) ↔ ∃ q ∈ m.tmp c, (m.proc q).state = .runnable := by
    simp only [step, hc, if_true]
    constructor
    · rintro ⟨m', q, hs, hq, hr⟩
      rcases schedule_cases hs with rfl | ⟨q', ht, hr', -, rfl⟩
      · rw [hc] at hq
        cases hq
      · exact ⟨q', ht, hr'⟩
    · rintro ⟨q, ht, hr⟩
      rw [Option.mem_def] at ht
      refine ⟨m.pick c q, q, ?_, ?_, hr⟩
      · rw [schedule, ht]
        exact (if_pos hr).trans (if_neg (hd q hr))
      · simp [pick, Kernel.dispatch, Kernel.take_cpu]
  rw [hiff, tmp]
  cases m.prev c with
  | some q => simp
  | none =>
    obtain ⟨hready, hfound⟩ := scan_spec m
    obtain ⟨t, ht⟩ := Option.ne_none_iff_exists'.1 (hfound p hp)
    simp [ht, hready t ht]

/-! ### Runs in which no scheduler takes what another one holds on to -/

/-- An iteration does not take a process that the `prev` of another idle processor is. -/
def LeavesPrev (m : Mlfq ncpu) : MlfqEvent ncpu → Prop
  | .schedule c => ∀ q ∈ m.tmp c, (m.proc q).state = .runnable →
      ∀ c', c' ≠ c → m.cpu c' = none → m.prev c' ≠ some q
  | _ => True

instance (m : Mlfq ncpu) : DecidablePred (LeavesPrev m)
  | .schedule c => inferInstanceAs (Decidable (∀ q ∈ m.tmp c, _))
  | .clock | .timer _ | .reset _ | .setpriority _ _ _ | .kernel _ => isTrue trivial

/-- The `prev` of an idle processor is ready. -/
structure PrevReady (m : Mlfq ncpu) : Prop where
  execless : Kernel.Execless m.toKernel
  prev : ∀ c q, m.cpu c = none → m.prev c = some q → (m.proc q).state = .runnable

/-- What `leave` makes of `prev` is ready, where the processes that were ready still are. -/
theorem PrevReady.leave {k : Kernel ncpu} (h : PrevReady m) (hk : Kernel.Execless k)
    (hr : ∀ q, (m.proc q).state = .runnable → (k.proc q).state = .runnable) :
    PrevReady (m.leave k) := by
  have hprev := h.prev
  refine ⟨hk, fun c q hc hq => ?_⟩
  simp only [Mlfq.leave] at hc hq ⊢
  cases hm : m.cpu c <;> grind

/-- So it is where no processor is left. -/
theorem PrevReady.keep (h : PrevReady m) (hk : Kernel.Execless m'.toKernel)
    (hcpu : ∀ c, m'.cpu c = m.cpu c) (hprev : ∀ c, m'.prev c = m.prev c)
    (hr : ∀ q, (m.proc q).state = .runnable → (m'.proc q).state = .runnable) : PrevReady m' := by
  refine ⟨hk, fun c q hc hq => hr q (h.prev c q ?_ ?_)⟩
  · rwa [← hcpu]
  · rwa [← hprev]

theorem PrevReady.step (h : PrevReady m) (hn : e.NoExec) (hl : m.LeavesPrev e)
    (he : m.step mlfqK e = some m') : PrevReady m' := by
  have hk := step_execless h.execless hn he
  have hrun := h.execless.kin.sound.running
  cases e with
  | schedule c =>
    obtain ⟨hc, rfl | ⟨p, ht, hr, -, rfl⟩⟩ := step_schedule he
    · exact h
    · have hprev := h.prev
      have := hl p ht hr
      refine ⟨hk, fun c' q hc' hq => ?_⟩
      simp only [pick] at hc' hq ⊢
      grind [Kernel.dispatch]
  | clock =>
    cases he
    refine h.keep hk (fun _ => rfl) (fun _ => rfl) ?_
    grind
  | timer c =>
    obtain ⟨p, hc, ⟨-, rfl⟩ | ⟨hr, rfl⟩⟩ := step_timer he
    · exact h
    · refine h.leave hk ?_
      grind
  | reset c =>
    obtain ⟨p, hc, -, ⟨-, rfl⟩ | ⟨-, rfl⟩⟩ := step_reset he <;>
      refine h.keep hk ?_ (fun _ => rfl) ?_ <;> grind [Proc.reset]
  | setpriority c pid priority =>
    obtain ⟨p, hc, rfl⟩ := step_setpriority he
    have hq := quiet_setpriority (m := m) (p := p) pid priority
    have := hq.state
    refine h.keep hk hq.cpu (fun _ => rfl) ?_
    grind
  | kernel e =>
    obtain ⟨k, he', rfl, hd⟩ := step_kernel he
    exact h.leave hk fun q hq => h.execless.ready he' hq fun c => hd c q

theorem prevReady_boot : PrevReady (boot ncpu) :=
  ⟨Kernel.execless_boot, fun _ _ _ hq => by cases hq⟩

/-- In every run without `exec`, an iteration that starts while a process is ready runs one
    exactly when the `prev` of its processor is null or ready; and it is, in every run in
    which no iteration takes the process that the `prev` of another idle processor is. -/
theorem mlfq_never_idles {es : List (MlfqEvent ncpu)}
    (hn : Trace.Along (Mlfq.step · mlfqK) (fun _ => MlfqEvent.NoExec) (boot ncpu) es)
    (hr : Trace.run (Mlfq.step · mlfqK) (boot ncpu) es = some m) (hc : m.cpu c = none)
    (hp : ∃ p, (m.proc p).state = .runnable) :
    ((∃ m' q, m.step mlfqK (.schedule c) = some m' ∧ m'.cpu c = some q ∧
        (m.proc q).state = .runnable) ↔ ∀ q ∈ m.prev c, (m.proc q).state = .runnable) ∧
      (Trace.Along (Mlfq.step · mlfqK) (fun m e => e.NoExec ∧ m.LeavesPrev e) (boot ncpu) es →
        ∃ m' q, m.step mlfqK (.schedule c) = some m' ∧ m'.cpu c = some q ∧
          (m.proc q).state = .runnable) := by
  have hx : Kernel.Execless m.toKernel :=
    Trace.run_inv (I := fun m => Kernel.Execless m.toKernel)
      (fun _ _ _ h hn he => step_execless h hn he) Kernel.execless_boot hn hr
  have hiff := schedule_dispatches_iff mlfqK hx hc hp
  refine ⟨hiff, fun hl => hiff.2 fun q hq => ?_⟩
  have h : PrevReady m :=
    Trace.run_inv (fun _ _ _ h hg he => h.step hg.1 hg.2 he) prevReady_boot hl hr
  exact h.prev c q hc hq

/-- The first process forks, and the timer interrupts it. -/
def forkAndYield : List (MlfqEvent 2) :=
  [.clock, .schedule 0, .kernel (.syscall 0 .fork), .kernel (.advance 0 true),
    .kernel (.advance 0 true), .kernel (.advance 0 true), .kernel (.advance 0 true), .timer 0]

theorem mlfq_never_idles_forkAndYield :
    ∃ m m' q, Trace.run (Mlfq.step · 2) (boot 2) forkAndYield = some m ∧
      m.step 2 (.schedule 0) = some m' ∧ m'.cpu 0 = some q ∧ (m.proc q).state = .runnable := by
  have hm : ∃ m ∈ Trace.run (Mlfq.step · 2) (boot 2) forkAndYield,
      m.cpu 0 = none ∧ (m.proc 1).state = .runnable := by
    decide +kernel
  obtain ⟨m, hr, hc, hp⟩ := hm
  obtain ⟨m', q, h⟩ := (mlfq_never_idles (by decide +kernel) hr hc ⟨1, hp⟩).2 (by decide +kernel)
  exact ⟨m, m', q, hr, h⟩

/-- The second processor runs the first process: the first one holds on to it, and leaves its
    child ready. -/
theorem mlfq_idles :
    ∃ m ∈ Trace.run (Mlfq.step · 2) (boot 2) (forkAndYield ++ [.schedule 1]),
      m.cpu 0 = none ∧ (m.proc 1).state = .runnable ∧
        ∃ m' ∈ m.step 2 (.schedule 0), m'.cpu 0 = none := by
  decide +kernel

end Mlfq
end Xv6
