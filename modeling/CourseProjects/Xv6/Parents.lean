import CourseProjects.Xv6.Families

/-!
# Parents and children

The parent of a process is alive, and is the process or thread that forked it or the
first process (`Lineage`). This holds along every run without `exec` in which only
processes without children call `thread_exit`, and the first process never does
(`ExitsChildless`).

* `parents_true`: in such a run every parent link is true, and `wait` only reaps
  a process that its caller forked, or that the first process adopted.
-/

namespace Xv6
namespace Kernel

variable {ncpu : ℕ} {k k' : Kernel ncpu}

/-- A process calls `thread_exit` only when it has no children; the first process never
    calls it. -/
def ExitsChildless : Kernel ncpu → Event ncpu → Prop :=
  OnAdvance fun k p => (k.ctl p).exiting → p ≠ initproc ∧ ∀ q, (k.proc q).parent ≠ some p

instance (k : Kernel ncpu) : DecidablePred (ExitsChildless k) :=
  inferInstanceAs (DecidablePred (OnAdvance _ k))

/-- The parent of a slot is alive, and it forked the occupant or is the first process. -/
structure Lineage (k : Kernel ncpu) : Prop where
  execless : Execless k
  init : (k.proc initproc).state.active = true ∧ k.ctl initproc ≠ .exitReap ∧
    k.ctl initproc ≠ .exitClose
  parent : ∀ q p, (k.proc q).parent = some p → (k.proc p).state.active = true ∧
    (p = initproc ∨ (k.past q).forker = (k.past p).inst)

section

variable {c : Fin ncpu} {p : Slot}

/-- Nobody who is a parent dies, and nobody gets a parent but the first process. -/
theorem Lineage.keep (h : Lineage k) (hx : Execless k')
    (hinit : (k'.proc initproc).state.active = true ∧ k'.ctl initproc ≠ .exitReap ∧
      k'.ctl initproc ≠ .exitClose)
    (hpar : ∀ q p, (k'.proc q).parent = some p → p = initproc ∨
      (k.proc q).parent = some p ∧ (k'.past q).forker = (k.past q).forker)
    (hlive : ∀ q p, p ≠ initproc → (k'.proc q).parent = some p →
      (k'.proc p).state.active = true ∧ (k'.past p).inst = (k.past p).inst) : Lineage k' := by
  refine ⟨hx, hinit, fun q p hq => ?_⟩
  rcases eq_or_ne p initproc with rfl | hp
  · exact ⟨hinit.1, .inl rfl⟩
  · obtain ⟨hact, hinst⟩ := hlive q p hp hq
    obtain ⟨hq', hf⟩ := (hpar q p hq).resolve_left hp
    refine ⟨hact, .inr ?_⟩
    rw [hf, hinst]
    exact (h.parent q p hq').2.resolve_left hp

/-- The first process does not exit. -/
theorem Next.init {x y : Ctl} (h : Next k p x y) (hp : p = initproc) (hx : x ≠ .exitReap) :
    y ≠ .exitReap ∧ y ≠ .exitClose := by
  cases h with
  | enter call => cases call <;> simp [Call.entry]
  | reap hi => exact absurd hp hi
  | close hi => exact absurd hp hi
  | reaped => exact absurd rfl hx
  | _ => simp

theorem Lineage.move (h : Lineage k) (hm : Move k k') : Lineage k' := by
  have hx := h.execless.move hm
  have hinit := h.init
  have hpar := h.parent
  have hkin := h.execless.kin
  have hrun := hkin.sound.running
  have hemb := hkin.sound.embryo
  have hfree := hkin.free
  cases hm with
  | quiet hq =>
    have := hq.state
    have := hq.ctl
    have := hq.parent
    have := hq.past
    refine h.keep hx ?_ ?_ ?_ <;> grind
  | @goto c p x hc hn =>
    have := hn.init
    refine h.keep hx ?_ ?_ ?_ <;> grind
  | @forkCopy c p np hc hp =>
    refine ⟨hx, ?_, fun q p' hq => ?_⟩
    · grind [Kernel.forkCopy]
    · have := hpar q p'
      grind [Kernel.forkCopy]
  | dispatch => refine h.keep hx ?_ ?_ ?_ <;> grind [Kernel.dispatch]
  | sleep => refine h.keep hx ?_ ?_ ?_ <;> grind [Kernel.sleep]
  | forkEmbryo | createEmbryo => refine h.keep hx ?_ ?_ ?_ <;> grind [Kernel.embryo]
  | forkStack | createStack => refine h.keep hx ?_ ?_ ?_ <;> grind [Kernel.allocStack]
  | abandon => refine h.keep hx ?_ ?_ ?_ <;> grind [Kernel.abandon]
  | createInit => refine h.keep hx ?_ ?_ ?_ <;> grind [Kernel.createInit]
  | createSet => refine h.keep hx ?_ ?_ ?_ <;> grind [Kernel.createSet]
  | ready => refine h.keep hx ?_ ?_ ?_ <;> grind [Kernel.ready]
  | reapChild => refine h.keep hx ?_ ?_ ?_ <;> grind [Kernel.reapChild]
  | yield | reapThread | reparent | die => refine h.keep hx ?_ ?_ ?_ <;> grind
  | @commit _ p _ _ hp => simpa [hp, Ctl.inExec] using h.execless.ctl p
  | @threadWakeup _ p _ hp => simpa [hp, Ctl.inExec] using h.execless.ctl p

theorem Lineage.step {e : Event ncpu} (h : Lineage k) (hn : NoExec e) (hl : ExitsChildless k e)
    (he : k.step e = some k') : Lineage k' := by
  have hx := h.execless.step hn he
  refine step_inv (fun _ _ => Lineage.move) (fun hs => ?_) h he
  have hinit := h.init
  have hpar := h.parent
  have hrun := h.execless.kin.sound.running
  obtain ⟨c, ok, p, rfl, hc, ⟨v, hp, rfl⟩ | ⟨t, hp, rfl⟩⟩ := h.execless.special hn hs
  · have := hl p hc (by rw [hp]; rfl)
    refine h.keep hx ?_ ?_ ?_ <;> grind [Kernel.threadExit]
  · rcases joinScan_cases k c p t with ⟨z, -, hz, he⟩ | ⟨-, ⟨-, he⟩ | ⟨-, he⟩⟩ <;> rw [he] at hx ⊢
    · refine h.keep hx ?_ ?_ ?_ <;> grind
    · refine h.keep hx ?_ ?_ ?_ <;> grind
    · refine h.keep hx ?_ ?_ ?_ <;> grind [Kernel.sleep]

theorem lineage_boot : Lineage (boot ncpu) := by
  refine ⟨execless_boot, ?_, ?_⟩ <;> grind

end

theorem lineage_run {es : List (Event ncpu)}
    (hg : Trace.Along Kernel.step (fun k e => NoExec e ∧ ExitsChildless k e) (boot ncpu) es)
    (hr : Trace.run Kernel.step (boot ncpu) es = some k) : Lineage k :=
  Trace.run_inv (fun _ _ _ h hq he => h.step hq.1 hq.2 he) lineage_boot hg hr

/-- In a run without `exec` in which `thread_exit` is only called by processes without
    children, and never by the first one, the parent of a slot in use is in use, and forked
    the occupant of the slot or is the first process; and a child that `wait` reaps was
    forked by its caller, or the caller is the first process. -/
theorem parents_true {es : List (Event ncpu)} {e : Event ncpu}
    (hg : Trace.Along Kernel.step (fun k e => NoExec e ∧ ExitsChildless k e) (boot ncpu) es)
    (hr : Trace.run Kernel.step (boot ncpu) es = some k) (he : k.step e = some k') :
    (∀ q p, (k.proc q).state ≠ .unused → (k.proc q).parent = some p →
      (k.proc p).state ≠ .unused ∧ (p = initproc ∨ (k.past q).forker = (k.past p).inst)) ∧
    (∀ q, (k.proc q).state = .zombie → (k'.proc q).state = .unused →
      ∀ c ok p, e = .advance c ok → k.cpu c = some p → k.ctl p = .wait →
        p = initproc ∨ (k.past q).forker = (k.past p).inst) := by
  have h := lineage_run hg hr
  refine ⟨fun q p _ hq => ?_, fun q hz hu c ok p hadv hc hp => ?_⟩
  · obtain ⟨ha, hf⟩ := h.parent q p hq
    refine ⟨fun hs => ?_, hf⟩
    simp [hs, ProcState.active] at ha
  · obtain ⟨c', ok', p', rfl, hc', hby⟩ := step_reaps h.execless.kin.sound he hz hu
    cases hadv
    obtain rfl : p' = p := by simpa [hc'] using hc
    simp only [ReapedBy, hp, reduceCtorEq, false_and, true_and, false_or] at hby
    exact (h.parent q p' hby).2

/-- The first process forks; its child forks and waits, and the child of the child exits. -/
def waitForChild : List (Event 2) :=
  [.dispatch 0 0, .syscall 0 .fork, .advance 0 true, .advance 0 true, .advance 0 true,
    .advance 0 true, .dispatch 1 1, .syscall 1 .fork, .advance 1 true, .advance 1 true,
    .advance 1 true, .advance 1 true, .syscall 1 .wait, .advance 1 true, .dispatch 1 2,
    .syscall 1 .exit, .advance 1 true, .advance 1 true, .advance 1 true, .dispatch 1 1]

theorem parents_true_waitForChild :
    ∃ k k' : Kernel 2, Trace.run Kernel.step (boot 2) waitForChild = some k ∧
      k.step (.advance 1 true) = some k' ∧ (k.proc 2).parent = some 1 ∧
      (k.proc 1).state ≠ .unused ∧ (k'.proc 2).state = .unused ∧
      (1 = initproc ∨ (k.past 2).forker = (k.past 1).inst) := by
  have hk : ∃ k ∈ Trace.run Kernel.step (boot 2) waitForChild,
      k.cpu 1 = some 1 ∧ k.ctl 1 = .wait ∧ (k.proc 2).parent = some 1 ∧
        (k.proc 2).state = .zombie ∧
        ∃ k' ∈ k.step (.advance 1 true), (k'.proc 2).state = .unused := by
    decide +kernel
  obtain ⟨k, hr, hc, hp, hpar, hz, k', he, hu⟩ := hk
  obtain ⟨hlinks, hwait⟩ := parents_true (by decide +kernel) hr he
  exact ⟨k, k', hr, he, hpar, (hlinks 2 1 (by simp [hz]) hpar).1, hu, hwait 2 hz hu 1 true 1 rfl hc hp⟩

/-- The first process creates a thread, which forks and exits; the first process joins it and
    forks again. -/
def forkThenThreadExit : List (Event 2) :=
  [.dispatch 0 0, .syscall 0 .threadCreate, .advance 0 true, .advance 0 true, .advance 0 true,
    .advance 0 true, .advance 0 true, .advance 0 true,
    .dispatch 1 1, .syscall 1 .fork, .advance 1 true, .advance 1 true, .advance 1 true,
    .advance 1 true, .syscall 1 (.threadExit 7), .advance 1 true,
    .syscall 0 (.threadJoin 1), .advance 0 true, .advance 0 true]

/-- The parent of the child is a free slot; and then the next process that is forked, which
    did not fork it. -/
theorem parent_dangles :
    (∃ k ∈ Trace.run Kernel.step (boot 2) forkThenThreadExit,
      (k.proc 2).state = .runnable ∧ (k.proc 2).parent = some 1 ∧ (k.proc 1).state = .unused) ∧
    ∃ k ∈ Trace.run Kernel.step (boot 2) (forkThenThreadExit ++ [.syscall 0 .fork,
        .advance 0 true, .advance 0 true, .advance 0 true, .advance 0 true]),
      (k.proc 2).state = .runnable ∧ (k.proc 2).parent = some 1 ∧
        (k.proc 1).state = .runnable ∧ (1 : Slot) ≠ initproc ∧
        (k.past 2).forker ≠ (k.past 1).inst := by
  decide +kernel

end Kernel
end Xv6
