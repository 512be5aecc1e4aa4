import CourseProjects.Xv6.Moves

/-!
# The life of a slot

The states of the slots agree with the processors and the kernel threads (`Sound`).

* `step_change`: what an event does to the state of a slot, and why.
* `run_lifecycle`: along every run whose calls of `thread_kill` find the other slots
  with the pid of the caller asleep or ready, a dead process is only reaped, and a
  slot without a process is not put to sleep.
-/

namespace Xv6

/-- The slot a kernel thread is building has a kernel stack. -/
@[grind =] def Ctl.started : Ctl → Option Slot
  | forkCopy np | forkReady np => some np
  | createInit np _ | createMap np _ | createSet np _ | createReady np => some np
  | user | fork | forkAlloc _ | create | createAlloc _ _ | threadExit _ | threadJoin _ | joinScan _
  | exit | exitReap | exitClose | wait | kill _ | exec | execKill _ | execNamei _ | execLoad _
  | execWake | dead => none

@[grind →] theorem Ctl.building_of_started {x : Ctl} {np : Slot} (h : x.started = some np) :
    x.building = some np := by
  cases x <;> simp_all [started, building]

/-- The process is neither free, being built nor dead. -/
@[grind =] def ProcState.active : ProcState → Bool
  | sleeping | runnable | running => true
  | unused | embryo | zombie => false

/-- The next section of the kernel thread is `thread_kill`. -/
def Ctl.killing : Ctl → Bool
  | execKill _ => true
  | _ => false

namespace Kernel

variable {ncpu : ℕ} {k k' : Kernel ncpu}

/-- Where the table stays as it is, no slot is drawn or given a stack, and nobody dies. -/
theorem Next.spec {p : Slot} {x y : Ctl} (h : Next k p x y) :
    (∀ np, y.building = some np → x.building = some np) ∧
      (∀ np, y.started = some np → x.started = some np) ∧ x ≠ .dead ∧ y ≠ .dead := by
  cases h with
  | enter call => cases call <;> simp [Call.entry, Ctl.building, Ctl.started]
  | back hb hd => simp [hd, Ctl.building, Ctl.started]
  | _ => simp [Ctl.building, Ctl.started]

/-- The states of the slots agree with the processors and the kernel threads. -/
structure Sound (k : Kernel ncpu) : Prop where
  /-- A process on a processor is `RUNNING`, -/
  running : ∀ c p, k.cpu c = some p → (k.proc p).state = .running
  /-- and on no other. -/
  single : ∀ c c' p, k.cpu c = some p → k.cpu c' = some p → c = c'
  /-- A slot being built is an `EMBRYO`, -/
  embryo : ∀ p np, (k.ctl p).building = some np → (k.proc np).state = .embryo
  /-- by one thread, -/
  builder : ∀ p q np, (k.ctl p).building = some np → (k.ctl q).building = some np → p = q
  /-- and starts in user mode. -/
  started : ∀ p np, (k.ctl p).started = some np → k.ctl np = .user
  /-- A thread inside a system call is active, -/
  active : ∀ p, k.ctl p ≠ .user → k.ctl p ≠ .dead → (k.proc p).state.active = true
  /-- and one that has exited is not. -/
  dead : ∀ p, k.ctl p = .dead → (k.proc p).state.active = false

section

variable {c : Fin ncpu} {p np : Slot} {x : Ctl}

/-- Sleepers may be woken. -/
theorem Sound.settle (h : Sound k)
    (hs : ∀ q, (k'.proc q).state = (k.proc q).state ∨
      (k.proc q).state = .sleeping ∧ (k'.proc q).state = .runnable)
    (hcpu : ∀ c, k'.cpu c = k.cpu c) (hctl : ∀ q, k'.ctl q = k.ctl q) : Sound k' := by
  have ⟨_, _, _, _, _, _, _⟩ := h
  constructor <;> grind

/-- A kernel thread may go on, with no slot to build that it did not build before. -/
theorem Sound.goto (h : Sound k) (hc : k.cpu c = some p)
    (hx : (∀ np, x.building = some np → (k.ctl p).building = some np) ∧
      (∀ np, x.started = some np → (k.ctl p).started = some np) ∧ k.ctl p ≠ .dead ∧ x ≠ .dead)
    (hs : ∀ q, (k'.proc q).state = (k.proc q).state) (hcpu : ∀ c, k'.cpu c = k.cpu c)
    (hctl : ∀ q, k'.ctl q = if q = p then x else k.ctl q) : Sound k' := by
  have ⟨hrun, _, _, _, _, _, _⟩ := h
  have := hrun c p hc
  obtain ⟨_, _, _, _⟩ := hx
  constructor <;> grind

/-- A process may leave its processor, active in its system call or dead. -/
theorem Sound.leave (h : Sound k) (hc : k.cpu c = some p)
    (hx : (k'.proc p).state.active = true ∧ x = k.ctl p ∨
      (k'.proc p).state = .zombie ∧ x = .dead)
    (hs : ∀ q, q ≠ p → (k'.proc q).state = (k.proc q).state ∨
      (k.proc q).state = .sleeping ∧ (k'.proc q).state = .runnable)
    (hcpu : ∀ c', k'.cpu c' = if c' = c then none else k.cpu c')
    (hctl : ∀ q, k'.ctl q = if q = p then x else k.ctl q) : Sound k' := by
  have ⟨hrun, _, _, _, _, _, _⟩ := h
  have := hrun c p hc
  constructor <;> grind

/-- A kernel thread may draw a free slot. -/
theorem Sound.draw (h : Sound k) (hc : k.cpu c = some p) (hnp : (k.proc np).state = .unused)
    (hx : x.building = some np) (hx' : x.started = none)
    (hs : ∀ q, (k'.proc q).state = if q = np then .embryo else (k.proc q).state)
    (hcpu : ∀ c, k'.cpu c = k.cpu c)
    (hctl : ∀ q, k'.ctl q = if q = p then x else k.ctl q) : Sound k' := by
  have ⟨hrun, _, _, _, _, _, _⟩ := h
  have := hrun c p hc
  constructor <;> grind

/-- It may give the slot it drew a stack. -/
theorem Sound.stack (h : Sound k) (hc : k.cpu c = some p) (hp : (k.ctl p).building = some np)
    (hx : x.started = some np) (hs : ∀ q, (k'.proc q).state = (k.proc q).state)
    (hcpu : ∀ c, k'.cpu c = k.cpu c)
    (hctl : ∀ q, k'.ctl q = if q = p then x else if q = np then .user else k.ctl q) :
    Sound k' := by
  have ⟨hrun, _, _, _, _, _, _⟩ := h
  have := hrun c p hc
  constructor <;> grind

variable (np) in
/-- It may give the slot back, or make it ready. -/
theorem Sound.built (h : Sound k) (hc : k.cpu c = some p) (hp : (k.ctl p).building = some np)
    (hnp : (k'.proc np).state = .unused ∨
      (k'.proc np).state = .runnable ∧ (k.ctl p).started = some np)
    (hs : ∀ q, q ≠ np → (k'.proc q).state = (k.proc q).state)
    (hcpu : ∀ c, k'.cpu c = k.cpu c)
    (hctl : ∀ q, k'.ctl q = if q = p then .user else k.ctl q) : Sound k' := by
  have ⟨hrun, _, _, _, _, _, _⟩ := h
  have := hrun c p hc
  constructor <;> grind

/-- A dead process may be reaped. -/
theorem Sound.reap (h : Sound k) {z : Slot} (hz : (k.proc z).state = .zombie)
    (hz' : (k'.proc z).state = .unused)
    (hs : ∀ q, q ≠ z → (k'.proc q).state = (k.proc q).state)
    (hcpu : ∀ c, k'.cpu c = k.cpu c) (hctl : ∀ q, k'.ctl q = k.ctl q) : Sound k' := by
  have ⟨_, _, _, _, _, _, _⟩ := h
  constructor <;> grind

/-- A processor may take up a process that is ready. -/
theorem Sound.dispatch (h : Sound k) (hp : (k.proc p).state = .runnable)
    (hd : k.ctl p ≠ .dead) : Sound (k.dispatch c p) := by
  have ⟨_, _, _, _, _, _, _⟩ := h
  constructor <;> grind [Kernel.dispatch]

end

theorem Sound.quiet (h : Sound k) (hq : Quiet k k') : Sound k' :=
  h.settle hq.state hq.cpu hq.ctl

theorem Sound.move (h : Sound k) (hm : Move k k') : Sound k' := by
  cases hm with
  | quiet hq => exact h.quiet hq
  | @goto c p x hc hx => exact h.goto hc hx.spec (by simp) (by simp) (k.goto_ctl p · x)
  | dispatch hc hs hd => exact h.dispatch hs hd
  | @yield c p hc =>
    refine h.leave hc (.inl ⟨?_, rfl⟩) ?_ ?_ ?_ <;> grind
  | sleep hc hj =>
    refine h.leave hc (.inl ⟨?_, rfl⟩) ?_ ?_ ?_ <;> grind [Kernel.sleep]
  | forkEmbryo hc hp hs =>
    refine h.draw hc hs (x := .forkAlloc _) rfl rfl ?_ ?_ ?_ <;> grind [Kernel.embryo]
  | @createEmbryo c p np hc hp hs =>
    refine h.draw hc hs (x := .createAlloc np ((k.proc p).master.getD p)) rfl rfl ?_ ?_ ?_ <;>
      grind [Kernel.embryo]
  | forkStack hc hp =>
    refine h.stack hc (by rw [hp]; rfl) (x := .forkCopy _) rfl ?_ ?_ ?_ <;> grind [Kernel.allocStack]
  | @createStack c p np m hc hp =>
    refine h.stack hc (by rw [hp]; rfl) (x := .createInit np m) rfl ?_ ?_ ?_ <;>
      grind [Kernel.allocStack]
  | @abandon c p np m hc hp =>
    refine h.built np hc ?_ (.inl ?_) ?_ ?_ ?_ <;> grind [Kernel.abandon]
  | @forkCopy c p np hc hp =>
    refine h.goto hc (x := .forkReady np) ?_ ?_ ?_ ?_ <;> grind [Kernel.forkCopy]
  | @createInit c p np m hc hp =>
    refine h.goto hc (x := .createMap np m) ?_ ?_ ?_ ?_ <;> grind [Kernel.createInit]
  | @createSet c p np g hc hp =>
    refine h.goto hc (x := .createReady np) ?_ ?_ ?_ ?_ <;> grind [Kernel.createSet]
  | @ready c p np hc hp =>
    refine h.built np hc ?_ (.inr ⟨?_, ?_⟩) ?_ ?_ ?_ <;> grind [Kernel.ready]
  | reapThread hc hp hz hs =>
    refine h.reap hs ?_ ?_ ?_ ?_ <;> grind
  | reapChild hc hp hz hs =>
    refine h.reap hs ?_ ?_ ?_ ?_ <;> grind [Kernel.reapChild]
  | reparent hc hp hq =>
    refine h.settle ?_ ?_ ?_ <;> grind
  | die hc hp hq hm =>
    refine h.leave hc (x := .dead) (.inr ⟨?_, rfl⟩) ?_ ?_ ?_ <;> grind
  | commit hc hp =>
    refine h.goto hc (x := .execWake) ?_ ?_ ?_ ?_ <;> grind [Kernel.execLoad]
  | threadWakeup hc hp =>
    refine h.settle ?_ ?_ ?_ <;> grind

/-! ### The sections the guards speak of -/

/-- The other slots with the pid of a slot are asleep or ready. -/
@[grind =] def CalmSiblings (k : Kernel ncpu) (p : Slot) : Prop :=
  ∀ q, q ≠ p → (k.proc q).pid = (k.proc p).pid →
    (k.proc q).state = .sleeping ∨ (k.proc q).state = .runnable

section

variable {c : Fin ncpu} {p : Slot}

theorem Sound.threadExit (h : Sound k) {v : ℤ} (hc : k.cpu c = some p) :
    Sound (k.threadExit c p v) := by
  refine h.leave hc (x := .dead) (.inr ⟨?_, rfl⟩) ?_ ?_ ?_ <;>
    grind [Kernel.threadExit]

theorem Sound.joinScan (h : Sound k) {t : ℤ} (hc : k.cpu c = some p) (hp : k.ctl p = .joinScan t) :
    Sound (k.joinScan c p t).2 := by
  have hx : (∀ np, Ctl.user.building = some np → (k.ctl p).building = some np) ∧
      (∀ np, Ctl.user.started = some np → (k.ctl p).started = some np) ∧
      k.ctl p ≠ .dead ∧ Ctl.user ≠ .dead := by
    simp [hp, Ctl.building, Ctl.started]
  rcases joinScan_cases k c p t with ⟨z, -, hz, he⟩ | ⟨-, ⟨-, he⟩ | ⟨-, he⟩⟩ <;> rw [he]
  · have h' : Sound (k.reapThread p z) := by
      refine h.reap hz ?_ ?_ ?_ ?_ <;> grind
    refine h'.goto (c := c) (p := p) (x := .user) ?_ ?_ ?_ ?_ ?_ <;> grind
  · exact h.goto hc hx (by simp) (by simp) (k.goto_ctl p · .user)
  · refine h.leave hc (.inl ⟨?_, rfl⟩) ?_ ?_ ?_ <;> grind [Kernel.sleep]

theorem Sound.exec (h : Sound k) (hc : k.cpu c = some p) (hp : k.ctl p = .exec) :
    Sound (k.exec p) := by
  rw [Kernel.exec]
  split
  · refine h.goto hc (x := .execKill 0) ?_ ?_ ?_ ?_ <;> grind
  · refine h.goto hc (x := .execKill (k.proc p).tid) ?_ ?_ ?_ ?_ <;> grind

/-- Siblings that sleep or are ready may be put to sleep. -/
theorem Sound.threadKill (h : Sound k) {t : ℤ} (hc : k.cpu c = some p)
    (hp : k.ctl p = .execKill t)
    (hq : (k.proc p).killed = false → CalmSiblings k p) :
    Sound ((k.threadKill p).goto p (.execNamei t)) := by
  have ⟨hrun, _, _, _, _, _, _⟩ := h
  have := hrun c p hc
  constructor <;> grind

end

/-- `thread_kill`, called by a process that is not killed, finds the other slots with its
    pid asleep or ready. -/
def SiblingsReady : Kernel ncpu → Event ncpu → Prop :=
  OnAdvance fun k p => (k.ctl p).killing → (k.proc p).killed = false → CalmSiblings k p

instance (k : Kernel ncpu) (p : Slot) : Decidable (CalmSiblings k p) := by
  unfold CalmSiblings
  infer_instance

instance (k : Kernel ncpu) : DecidablePred (SiblingsReady k) :=
  inferInstanceAs (DecidablePred (OnAdvance _ k))

/-! ### The states a slot goes through -/

/-- A dead process is reaped by a thread that joins it, by its master on its way out or
    by its parent. -/
def ReapedBy (k : Kernel ncpu) (p q : Slot) : Prop :=
  k.ctl p = .joinScan (k.proc q).tid ∨ k.ctl p = .exitReap ∧ (k.proc q).master = some p ∨
    k.ctl p = .wait ∧ (k.proc q).parent = some p

/-- What an event does to the state of a slot, and why. -/
inductive Change (k : Kernel ncpu) (e : Event ncpu) (q : Slot) : ProcState → Prop
  | same : Change k e q (k.proc q).state
  | woken : (k.proc q).state = .sleeping → Change k e q .runnable
  | picked {c : Fin ncpu} : e = .dispatch c q → (k.proc q).state = .runnable →
      Change k e q .running
  | leaves {s : ProcState} : k.actor e = some q → (k.proc q).state = .running →
      s = .runnable ∨ s = .sleeping ∨ s = .zombie → Change k e q s
  | drawn : (k.proc q).state = .unused → Change k e q .embryo
  | built {s : ProcState} {p : Slot} : (k.ctl p).building = some q →
      (k.proc q).state = .embryo → s = .unused ∨ s = .runnable → Change k e q s
  | reaped {c : Fin ncpu} {ok : Bool} {p : Slot} : e = .advance c ok → k.cpu c = some p →
      (k.proc q).state = .zombie → ReapedBy k p q → Change k e q .unused
  | put {c : Fin ncpu} {ok : Bool} {p : Slot} : e = .advance c ok → k.cpu c = some p →
      (k.ctl p).killing = true → (k.proc p).killed = false → q ≠ p →
      (k.proc p).pid = (k.proc q).pid → Change k e q .sleeping

section

variable {c : Fin ncpu} {p q : Slot} {ok : Bool}

/-- The first loop of `exit` wakes sleepers, and reaps dead threads of the caller. -/
theorem exitReap_change (hc : k.cpu c = some p) (hp : k.ctl p = .exitReap)
    (hr : (k.proc p).state = .running) :
    Change k (.advance c ok) q ((k.exitReap c p).proc q).state := by
  have hl : ∀ q, ((forSlots (exitReapSlot p) (false, k)).2.proc q).state = (k.proc q).state ∨
      (k.proc q).state = .sleeping ∧
        ((forSlots (exitReapSlot p) (false, k)).2.proc q).state = .runnable ∨
      (k.proc q).state = .zombie ∧ (k.proc q).master = some p ∧
        ((forSlots (exitReapSlot p) (false, k)).2.proc q).state = .unused := by
    intro q
    refine (forSlots_inv (g := exitReapSlot p) (P := fun a =>
      ((a.2.proc q).state = .unused ∨ (a.2.proc q).master = (k.proc q).master) ∧
      ((a.2.proc q).state = (k.proc q).state ∨
        (k.proc q).state = .sleeping ∧ (a.2.proc q).state = .runnable ∨
        (k.proc q).state = .zombie ∧ (k.proc q).master = some p ∧
          (a.2.proc q).state = .unused)) ?_ ⟨.inr rfl, .inl rfl⟩).2
    rintro ⟨b, k₁⟩ z ⟨hm, hs⟩
    grind [exitReapSlot]
  have hreap : (k.proc q).master = some p → ReapedBy k p q := fun hm => .inr (.inl ⟨hp, hm⟩)
  rw [exitReap]
  split
  · rcases eq_or_ne q p with rfl | hqp
    · exact .leaves hc hr (by grind [Kernel.sleep])
    · rcases hl q with h | ⟨h, h'⟩ | ⟨h, hm, h'⟩ <;>
        grind [Kernel.sleep, Change.same, Change.woken, Change.reaped]
  · rcases hl q with h | ⟨h, h'⟩ | ⟨h, hm, h'⟩ <;>
      grind [Change.same, Change.woken, Change.reaped]

/-- The rest of `exit` wakes sleepers. -/
theorem exitClose_change (hc : k.cpu c = some p) (hr : (k.proc p).state = .running) :
    Change k (.advance c ok) q ((k.exitClose c p).proc q).state := by
  have hl : ((forSlots (reparentSlot p) (k.exitNotify p)).proc q).state = (k.proc q).state ∨
      (k.proc q).state = .sleeping ∧
        ((forSlots (reparentSlot p) (k.exitNotify p)).proc q).state = .runnable := by
    refine forSlots_inv (g := reparentSlot p) (P := fun k₁ =>
      (k₁.proc q).state = (k.proc q).state ∨
        (k.proc q).state = .sleeping ∧ (k₁.proc q).state = .runnable) ?_ ?_
    · intro k₁ z hk
      grind [reparentSlot]
    · exact exitNotify_quiet.state q
  rw [exitClose]
  rcases eq_or_ne q p with rfl | hqp
  · exact .leaves hc hr (by grind)
  · rcases hl with h | ⟨h, h'⟩ <;> grind [Change.same, Change.woken]

/-- A section of a kernel thread changes the state of a slot in one of these ways. -/
theorem advance_change (h : Sound k) (hc : k.cpu c = some p) (ha : k.advance c p ok = some k')
    (q : Slot) : Change k (.advance c ok) q (k'.proc q).state := by
  have hrun := h.running c p hc
  have hemb := h.embryo p
  have hleaves : ∀ s, s = .runnable ∨ s = .sleeping ∨ s = .zombie → q = p →
      Change k (.advance c ok) q s := by
    rintro s hs rfl
    exact .leaves hc hrun hs
  have hreaped := @Change.reaped _ k (.advance c ok) q c ok p rfl hc
  have hbuilt := fun s => @Change.built _ k (.advance c ok) q s p
  have hsame : ∀ s, s = (k.proc q).state → Change k (.advance c ok) q s := by
    rintro _ rfl
    exact .same
  cases hp : k.ctl p <;>
    simp only [advance, hp, reduceCtorEq, Option.some.injEq] at ha <;> try subst ha
  case exitReap => exact exitReap_change hc hp hrun
  case exitClose => exact exitClose_change hc hrun
  case fork =>
    rcases fork_cases k p with h | ⟨np, hnp, h⟩ <;> grind [Kernel.embryo, Change.drawn]
  case create =>
    rcases threadCreate_cases k p with h | ⟨np, hnp, h⟩ <;> grind [Kernel.embryo, Change.drawn]
  case joinScan t =>
    rcases joinScan_cases k c p t with ⟨z, ht, hz, he⟩ | ⟨-, ⟨-, he⟩ | ⟨-, he⟩⟩ <;>
      grind [Kernel.sleep, ReapedBy]
  case wait =>
    rcases wait_cases k c p with ⟨z, hpar, hz, he⟩ | ⟨-, he⟩ | he <;>
      grind [Kernel.reapChild, Kernel.sleep, ReapedBy]
  case execKill t =>
    have hput := @Change.put _ k (.advance c ok) q c ok p rfl hc (by rw [hp]; rfl)
    grind
  case exit => grind [Kernel.exit]
  case threadExit v => grind [Kernel.threadExit, Change.woken]
  case kill pid => grind [Kernel.kill, Change.woken]
  case execWake =>
    rw [execWake]
    split <;> grind [Change.woken]
  all_goals grind [Kernel.forkAlloc, Kernel.forkCopy, Kernel.allocStack, Kernel.abandon,
    Kernel.ready, Kernel.createAlloc, Kernel.createInit, Kernel.createMap, Kernel.createSet,
    Kernel.threadJoin, Kernel.exec, Kernel.execNamei, Kernel.execLoad]

/-- So does every event. -/
theorem step_change {e : Event ncpu} (h : Sound k) (he : k.step e = some k') (q : Slot) :
    Change k e q (k'.proc q).state := by
  have hrun := h.running
  have hsame : ∀ s, s = (k.proc q).state → Change k e q s := by
    rintro _ rfl
    exact .same
  cases e with
  | dispatch c p =>
    obtain ⟨hc, hs, hd, rfl⟩ := step_dispatch he
    have := @Change.picked _ k (.dispatch c p) q c
    grind [Kernel.dispatch]
  | yield c =>
    obtain ⟨p, hc, rfl⟩ := step_yield he
    have := @Change.leaves _ k (.yield c) q .runnable
    grind [actor]
  | sleep c n =>
    obtain ⟨p, hc, hb, rfl⟩ := step_sleep he
    have := @Change.leaves _ k (.sleep c n) q .sleeping
    grind [Kernel.sleep, actor]
  | syscall c call =>
    obtain ⟨p, hc, hu, rfl⟩ := step_syscall he
    grind [Kernel.syscall]
  | fault c =>
    obtain ⟨p, hc, hu, rfl⟩ := step_fault he
    grind
  | advance c ok =>
    obtain ⟨p, hc, he⟩ := step_advance he
    exact advance_change h hc he q
  | wakeup n =>
    cases he
    grind [Change.woken]

end

/-- Sleepers may be woken and dead processes reaped. -/
@[grind =] def Settles (s s' : ProcState) : Prop :=
  s' = s ∨ s = .sleeping ∧ s' = .runnable ∨ s = .zombie ∧ s' = .unused

/-- The arcs of the life of a slot: it is drawn, given back or made ready, picked, gives up
    the processor, sleeps, is woken, is put to sleep by `exec`, dies and is reaped. -/
@[grind =] def Arc (s s' : ProcState) : Prop :=
  Settles s s' ∨ s = .unused ∧ s' = .embryo ∨ s = .embryo ∧ (s' = .unused ∨ s' = .runnable) ∨
    s = .runnable ∧ (s' = .running ∨ s' = .sleeping) ∨
    s = .running ∧ (s' = .runnable ∨ s' = .sleeping ∨ s' = .zombie)

/-- Every event takes every slot along an arc, or leaves it. -/
theorem step_arc {e : Event ncpu} (h : Sound k) (hq : SiblingsReady k e)
    (he : k.step e = some k') (q : Slot) : Arc (k.proc q).state (k'.proc q).state := by
  have hch := step_change h he q
  generalize (k'.proc q).state = s at hch
  cases hch with
  | @put c ok p hadv hc hkill hk hqp hpid =>
    subst hadv
    have := hq p hc hkill hk q hqp hpid.symm
    grind
  | _ => grind

theorem Sound.special {e : Event ncpu} (h : Sound k) (hq : SiblingsReady k e)
    (hs : Special k e k') : Sound k' := by
  cases hs with
  | enterExec hc hp _ =>
    refine h.goto hc (x := .exec) ?_ (by simp) (by simp) (k.goto_ctl _ · .exec)
    simp [hp, Ctl.building, Ctl.started]
  | threadExit hc hp => exact h.threadExit hc
  | joinScan hc hp => exact h.joinScan hc hp
  | exec hc hp => exact h.exec hc hp
  | threadKill hc hp => exact h.threadKill hc hp (hq _ hc (by rw [hp]; rfl))

theorem Sound.step {e : Event ncpu} (h : Sound k) (hq : SiblingsReady k e)
    (he : k.step e = some k') : Sound k' :=
  step_inv (fun _ _ => Sound.move) (h.special hq) h he

theorem sound_boot : Sound (boot ncpu) := by
  constructor <;> grind

/-- A dead process that is reaped is reaped by one of its reapers. -/
theorem step_reaps {e : Event ncpu} (h : Sound k) (he : k.step e = some k') {q : Slot}
    (hz : (k.proc q).state = .zombie) (hu : (k'.proc q).state = .unused) :
    ∃ c ok p, e = .advance c ok ∧ k.cpu c = some p ∧ ReapedBy k p q := by
  have hch := step_change h he q
  rw [hu] at hch
  generalize hs : ProcState.unused = s at hch
  cases hch with
  | reaped hadv hc _ hr => exact ⟨_, _, _, hadv, hc, hr⟩
  | _ => simp_all

/-- The states are sound along every run whose calls of `thread_kill` find the siblings
    asleep or ready. -/
theorem sound_run {es : List (Event ncpu)}
    (hg : Trace.Along Kernel.step SiblingsReady (boot ncpu) es)
    (hr : Trace.run Kernel.step (boot ncpu) es = some k) : Sound k :=
  Trace.run_inv (fun _ _ _ h hq he => h.step hq he) sound_boot hg hr

/-- In such a run a `ZOMBIE` slot only becomes `UNUSED`, by the hand of its reaper, an
    `EMBRYO` or `UNUSED` one never sleeps, and one that has left `exit` or `thread_exit`
    for the last time is never made `RUNNABLE`. -/
theorem run_lifecycle {es : List (Event ncpu)} {e : Event ncpu}
    (hg : Trace.Along Kernel.step SiblingsReady (boot ncpu) (es ++ [e]))
    (hr : Trace.run Kernel.step (boot ncpu) es = some k) (he : k.step e = some k') (q : Slot) :
    ((k.proc q).state = .zombie → (k'.proc q).state = .zombie ∨
      (k'.proc q).state = .unused ∧
        ∃ c ok p, e = .advance c ok ∧ k.cpu c = some p ∧ ReapedBy k p q) ∧
    ((k.proc q).state = .embryo ∨ (k.proc q).state = .unused → (k'.proc q).state ≠ .sleeping) ∧
    (k'.ctl q = .dead → (k'.proc q).state ≠ .runnable) := by
  obtain ⟨hg, hq⟩ := Trace.along_append.1 hg
  have hq := (hq k hr).1
  have h := sound_run hg hr
  have harc := step_arc h hq he q
  refine ⟨fun hz => ?_, fun hs => ?_, fun hd hs => ?_⟩
  · rcases eq_or_ne (k'.proc q).state .unused with hu | hu
    · exact .inr ⟨hu, step_reaps h he hz hu⟩
    · grind
  · grind
  · have := (h.step hq he).dead q hd
    rw [hs] at this
    cases this

/-- A process creates a thread, which exits, and then calls `exec`. -/
def execAfterThreadExit : List (Event 2) :=
  [.dispatch 0 0, .syscall 0 .threadCreate, .advance 0 true, .advance 0 true, .advance 0 true,
    .advance 0 true, .advance 0 true, .advance 0 true, .yield 0,
    .dispatch 0 1, .syscall 0 (.threadExit 7), .advance 0 true,
    .dispatch 0 0, .syscall 0 .exec, .advance 0 true]

/-- The thread, dead when `thread_kill` runs, is put to sleep by it, and is ready to run once
    `exec` is through. -/
theorem dead_thread_runnable :
    (Trace.run Kernel.step (boot 2) execAfterThreadExit).map (fun k => (k.proc 1).state) =
        some .zombie ∧
      (Trace.run Kernel.step (boot 2) (execAfterThreadExit ++ [.advance 0 true])).map
        (fun k => (k.proc 1).state) = some .sleeping ∧
      (Trace.run Kernel.step (boot 2) (execAfterThreadExit ++
          [.advance 0 true, .advance 0 true, .advance 0 true, .advance 0 true])).map
        (fun k => ((k.proc 1).state, k.ctl 1)) = some (.runnable, .dead) := by
  decide +kernel

/-- A process creates a thread, goes to sleep, and the thread calls `exec`. -/
def threadExec : List (Event 2) :=
  [.dispatch 0 0, .syscall 0 .threadCreate, .advance 0 true, .advance 0 true, .advance 0 true,
    .advance 0 true, .advance 0 true, .advance 0 true, .sleep 0 0,
    .dispatch 0 1, .syscall 0 .exec, .advance 0 true, .advance 0 true, .advance 0 true,
    .advance 0 true]

theorem run_lifecycle_threadExec :
    ∃ k k' : Kernel 2, Trace.run Kernel.step (boot 2) threadExec = some k ∧
      k.step (.advance 0 true) = some k' ∧ ∀ q,
        ((k.proc q).state = .zombie → (k'.proc q).state = .zombie ∨
          (k'.proc q).state = .unused ∧
            ∃ c ok p, Event.advance 0 true = .advance c ok ∧ k.cpu c = some p ∧
              ReapedBy k p q) ∧
        ((k.proc q).state = .embryo ∨ (k.proc q).state = .unused →
          (k'.proc q).state ≠ .sleeping) ∧
        (k'.ctl q = .dead → (k'.proc q).state ≠ .runnable) := by
  obtain ⟨k', h⟩ : ∃ k', Trace.run Kernel.step (boot 2) (threadExec ++ [.advance 0 true]) =
      some k' := Option.isSome_iff_exists.1 (by decide +kernel)
  rw [Trace.run_append] at h
  obtain ⟨k, hr, h⟩ := Option.bind_eq_some_iff.1 h
  obtain ⟨_, he, h⟩ := Option.bind_eq_some_iff.1 h
  cases h
  exact ⟨k, k', hr, he, run_lifecycle (by decide +kernel) hr he⟩

end Kernel
end Xv6
