import CourseProjects.Xv6.Kin

/-!
# A process and its threads

The master of a thread is alive, has not left the loop of `exit` that waits for its
threads and is not in `exec`, and its threads have its pid and its page directory
(`Crew`). This holds along every run whose calls of `thread_kill` find the siblings
asleep or ready, and in which a main thread calls `thread_exit` only when it has no
threads (`ExitsLast`), and `exec` only when no other slot has its page directory
(`ExecsAlone`).
-/

namespace Xv6

/-- The slot a kernel thread is building has not been given its page directory. -/
@[grind =] def Ctl.unset : Ctl → Option Slot
  | forkAlloc np | forkCopy np => some np
  | createAlloc np _ | createInit np _ | createMap np _ | createSet np _ => some np
  | user | fork | forkReady _ | create | createReady _ | threadExit _ | threadJoin _ | joinScan _
  | exit | exitReap | exitClose | wait | kill _ | exec | execKill _ | execNamei _ | execLoad _
  | execWake | dead => none

@[grind →] theorem Ctl.building_of_unset {x : Ctl} {np : Slot} (h : x.unset = some np) :
    x.building = some np := by
  cases x <;> simp_all [unset, building]

theorem Ctl.calm_of_unset {x : Ctl} {np : Slot} (h : x.unset = some np) :
    x.inExec = false ∧ x ≠ .exitClose := by
  cases x <;> simp_all [unset, inExec]

@[grind →] theorem Ctl.inside_of_building {x : Ctl} {np : Slot} (h : x.building = some np) :
    x ≠ .user ∧ x ≠ .dead := by
  cases x <;> simp_all [building]

@[grind →] theorem Ctl.inside_of_inExec {x : Ctl} (h : x.inExec = true) :
    x ≠ .user ∧ x ≠ .dead ∧ x.building = none := by
  cases x <;> simp_all [inExec, building]

/-- The next section of the kernel thread is the end of `thread_exit`. -/
def Ctl.exiting : Ctl → Bool
  | .threadExit _ => true
  | _ => false

namespace Kernel

variable {ncpu : ℕ} {k k' : Kernel ncpu}

/-- The slot was drawn, and still has the page directory its last occupant left. -/
def Leftover (k : Kernel ncpu) (q : Slot) : Prop :=
  ∃ p, (k.ctl p).unset = some q

instance (k : Kernel ncpu) : DecidablePred (Leftover k) :=
  fun _ => inferInstanceAs (Decidable (∃ _, _))

/-- A main thread calls `thread_exit` only when it has no threads. -/
def ExitsLast : Kernel ncpu → Event ncpu → Prop :=
  OnAdvance fun k p => (k.ctl p).exiting → (k.proc p).tid = 0 → ∀ q, (k.proc q).master ≠ some p

instance (k : Kernel ncpu) : DecidablePred (ExitsLast k) :=
  inferInstanceAs (DecidablePred (OnAdvance _ k))

/-- A main thread enters `exec` only when no other slot in use was given its page directory. -/
def ExecsAlone (k : Kernel ncpu) : Event ncpu → Prop
  | .syscall c .exec => ∀ p ∈ k.cpu c, (k.proc p).master = none → ∀ q, q ≠ p →
      (k.proc q).state ≠ .unused → ¬ Leftover k q → (k.proc q).pgdir ≠ (k.proc p).pgdir
  | _ => True

instance (k : Kernel ncpu) : DecidablePred (ExecsAlone k)
  | .syscall _ .exec => inferInstanceAs (Decidable (∀ _ ∈ _, _))
  | .syscall _ .fork | .syscall _ .exit | .syscall _ .wait | .syscall _ (.kill _)
  | .syscall _ .threadCreate | .syscall _ (.threadExit _) | .syscall _ (.threadJoin _)
  | .dispatch _ _ | .yield _ | .sleep _ _ | .fault _ | .advance _ _ | .wakeup _ => isTrue trivial

/-- The threads of `m` are created by `m` itself and by its threads. -/
@[grind =] def Leads (k : Kernel ncpu) (m p : Slot) : Prop :=
  m = p ∧ (k.proc p).master = none ∨ (k.proc p).master = some m

/-- Whose thread a kernel thread creates, and the page directory it gives it. -/
@[grind =] def Raises (k : Kernel ncpu) (p : Slot) : Ctl → Prop
  | .createAlloc _ m | .createInit _ m => k.Leads m p
  | .createMap np m => (k.proc np).master = some m ∧ k.Leads m p
  | .createSet np g => ∀ m, (k.proc np).master = some m → k.Leads m p ∧ g = (k.proc m).pgdir
  | .user | .fork | .forkAlloc _ | .forkCopy _ | .forkReady _ | .create | .createReady _
  | .threadExit _ | .threadJoin _ | .joinScan _ | .exit | .exitReap | .exitClose | .wait | .kill _
  | .exec | .execKill _ | .execNamei _ | .execLoad _ | .execWake | .dead => True

/-- The masters of the threads. -/
structure Crew (k : Kernel ncpu) : Prop where
  kin : Kin k
  master : ∀ q m, (k.proc q).master = some m → (k.proc m).tid = 0 ∧
    (k.proc m).state.active = true ∧ k.ctl m ≠ .exitClose ∧ (k.ctl m).inExec = false ∧
      (k.proc q).pid = (k.proc m).pid
  raises : ∀ p, k.Raises p (k.ctl p)
  shared : ∀ q m, (k.proc q).master = some m → (∀ p, (k.ctl p).unset ≠ some q) →
    (k.proc q).pgdir = (k.proc m).pgdir
  fresh : ∀ q, (k.proc q).pgdir < k.nextdir
  detached : ∀ p, (k.ctl p).inExec = true → k.ctl p ≠ .exec → (k.proc p).master = none

section

variable {c : Fin ncpu} {p np z : Slot} {x : Ctl}

/-- No slot is drawn, built or reaped, and the masters live on; a thread in `exec` may become a
    master, and may get a new page directory. -/
theorem Crew.stay (h : Crew k) (hx : Kin k')
    (hm : ∀ q, (k'.proc q).master = (k.proc q).master ∨
      (k'.proc q).master = none ∧ k.ctl q = .exec)
    (ht : ∀ q, (k'.proc q).tid = (k.proc q).tid ∨ (k'.proc q).tid = 0)
    (hg : ∀ q, (k'.proc q).pgdir = (k.proc q).pgdir ∨
      (k'.proc q).pgdir < k'.nextdir ∧ (k.ctl q).inExec = true ∧ k.ctl q ≠ .exec)
    (hpid : ∀ q, (k'.proc q).pid = (k.proc q).pid)
    (halive : ∀ q m, (k.proc q).master = some m → (k'.proc m).state.active = true ∧
      k'.ctl m ≠ .exitClose ∧ (k'.ctl m).inExec = false)
    (hctl : ∀ q, k'.ctl q = k.ctl q ∨
      (k'.ctl q).unset = (k.ctl q).unset ∧ k.Raises q (k'.ctl q))
    (hexec : ∀ q, (k'.ctl q).inExec = true → k'.ctl q ≠ .exec →
      (k'.proc q).master = none)
    (hn : k.nextdir ≤ k'.nextdir) : Crew k' := by
  have ⟨_, hmas, hr, _, _, hdet⟩ := h
  have hun : ∀ q, (k'.ctl q).unset = (k.ctl q).unset := fun q => by
    rcases hctl q with h | h
    · rw [h]
    · exact h.1
  have hnp : ∀ q np, (k'.ctl q).unset = some np →
      (k'.proc np).master = (k.proc np).master ∧ (k'.proc q).master = (k.proc q).master := by
    have := h.kin.sound.embryo
    have := h.kin.sound.active
    grind
  have hgm : ∀ q m, (k'.proc q).master = some m → (k'.proc m).pgdir = (k.proc m).pgdir ∧
      (k'.proc q).pgdir = (k.proc q).pgdir := by
    grind
  refine ⟨hx, ?_, fun q => ?_, ?_, ?_, hexec⟩
  · grind
  · have hq : k.Raises q (k'.ctl q) := by
      rcases hctl q with h | h
      · rw [h]
        exact hr q
      · exact h.2
    have := hnp q
    cases hx : k'.ctl q with
    | createAlloc | createInit | createMap | createSet => grind
    | _ => trivial
  · grind
  · grind

/-- A free slot may be drawn. -/
theorem Crew.draw (h : Crew k) (hx : Kin k') (hc : k.cpu c = some p)
    (hnp : (k.proc np).state = .unused) (hxu : x.unset = some np) (hxr : k.Raises p x)
    (hst : ∀ q, (k'.proc q).state = if q = np then .embryo else (k.proc q).state)
    (hm : ∀ q, (k'.proc q).master = (k.proc q).master)
    (ht : ∀ q, (k'.proc q).tid = (k.proc q).tid)
    (hg : ∀ q, (k'.proc q).pgdir = (k.proc q).pgdir)
    (hpid : ∀ q, q ≠ np → (k'.proc q).pid = (k.proc q).pid)
    (hp : (k.ctl p).building = none ∧ (k.ctl p).inExec = false)
    (hctl : ∀ q, k'.ctl q = if q = p then x else k.ctl q)
    (hn : k'.nextdir = k.nextdir) : Crew k' := by
  have hfree := h.kin.free np hnp
  obtain ⟨_, hmas, hr, _, _, hdet⟩ := h
  have hnx := Ctl.calm_of_unset hxu
  refine ⟨hx, ?_, fun q => ?_, ?_, ?_, ?_⟩
  · grind
  · have := hr q
    rcases eq_or_ne q p with rfl | hq
    · rw [hctl, if_pos rfl]
      cases hx : x with
      | createAlloc | createInit | createMap | createSet => grind
      | _ => trivial
    · rw [hctl, if_neg hq]
      cases hx : k.ctl q with
      | createAlloc | createInit | createMap | createSet => grind
      | _ => trivial
  all_goals grind

variable (p np) in
/-- The slot being built may change; it is nobody's master. -/
theorem Crew.build (h : Crew k) (hx : Kin k')
    (hb : (k.ctl p).building = some np)
    (hxp : k'.Raises p (k'.ctl p) ∧ k'.ctl p ≠ .exitClose ∧ (k'.ctl p).inExec = false)
    (hxu : ∀ q, (k'.ctl p).unset = some q → q = np)
    (hother : ∀ q, q ≠ np → (k'.proc q).state = (k.proc q).state ∧
      (k'.proc q).master = (k.proc q).master ∧ (k'.proc q).tid = (k.proc q).tid ∧
      (k'.proc q).pgdir = (k.proc q).pgdir ∧ (k'.proc q).pid = (k.proc q).pid)
    (hctl : ∀ q, q ≠ p → k'.ctl q = k.ctl q ∨ k'.ctl q = .user ∧ (k.ctl q).unset = none)
    (hmaster : ∀ m, (k'.proc np).master = some m → (k.proc m).tid = 0 ∧
      (k.proc m).state.active = true ∧ k.ctl m ≠ .exitClose ∧ (k.ctl m).inExec = false ∧
        (k'.proc np).pid = (k.proc m).pid ∧
        ((k'.ctl p).unset = none → (k'.proc np).pgdir = (k.proc m).pgdir))
    (hn : k.nextdir ≤ k'.nextdir ∧ (k'.proc np).pgdir < k'.nextdir) : Crew k' := by
  obtain ⟨hkin, hmas, hr, hsh, hfr, hdet⟩ := h
  have hbuild := hkin.sound.builder
  have hemb := hkin.sound.embryo
  have hact := hkin.sound.active
  have hnp := hemb p np hb
  have hne : ∀ q m, (k'.proc q).master = some m → m ≠ np := by grind
  have hun : ∀ q, q ≠ np → (∀ p, (k'.ctl p).unset ≠ some q) → ∀ p, (k.ctl p).unset ≠ some q := by
    intro q hq hset p'
    have := hset p'
    have := hctl p'
    grind
  have hunp : (∀ p, (k'.ctl p).unset ≠ some np) → (k'.ctl p).unset = none := by
    intro hset
    cases hq : (k'.ctl p).unset with
    | none => rfl
    | some q => exact absurd (hxu q hq ▸ hq) (hset p)
  refine ⟨hx, ?_, fun q => ?_, ?_, ?_, ?_⟩
  · grind
  · have := hr q
    have := hbuild p q np hb
    have := hact q
    rcases eq_or_ne q p with rfl | hq
    · exact hxp.1
    · rcases hctl q hq with hq' | ⟨hq', -⟩ <;> rw [hq']
      · cases hx : k.ctl q with
        | createAlloc | createInit | createMap | createSet => grind
        | _ => trivial
      · trivial
  · intro q m hq hset
    have := hun q
    grind
  · grind
  · grind

/-- A dead process may be reaped. -/
theorem Crew.reap (h : Crew k) (hx : Kin k') (hz : (k.proc z).state = .zombie)
    (hz' : (k'.proc z).state = .unused ∧ (k'.proc z).master = none)
    (ht : ∀ q, (k'.proc q).tid = (k.proc q).tid)
    (hg : ∀ q, (k'.proc q).pgdir = (k.proc q).pgdir)
    (hother : ∀ q, q ≠ z → (k'.proc q).state = (k.proc q).state ∧
      (k'.proc q).master = (k.proc q).master ∧ (k'.proc q).pid = (k.proc q).pid)
    (hctl : ∀ q, k'.ctl q = k.ctl q) (hn : k'.nextdir = k.nextdir) : Crew k' := by
  obtain ⟨hkin, hmas, hr, _, _, _⟩ := h
  have hemb := hkin.sound.embryo
  have hact := hkin.sound.active
  refine ⟨hx, ?_, fun q => ?_, ?_, ?_, ?_⟩
  · grind
  · have := hr q
    have := hemb q
    have := hact q
    rw [hctl]
    cases hx : k.ctl q with
    | createAlloc | createInit | createMap | createSet => grind
    | _ => trivial
  all_goals grind

/-- A process closes its files once its threads are gone. -/
theorem Next.close_spec {y : Ctl} (h : Next k p x y) (hy : y = .exitClose) :
    (k.proc p).tid ≠ 0 ∨ ∀ q, (k.proc q).master ≠ some p := by
  cases h with
  | enter call => cases call <;> cases hy
  | close _ ht => exact .inl ht
  | reaped hl => exact .inr hl
  | _ => cases hy

theorem Next.raises {y : Ctl} (h : Next k p x y) (hx : k.Raises p x) :
    k.Raises p y ∧ y.unset = x.unset := by
  cases h with
  | enter call => cases call <;> exact ⟨trivial, rfl⟩
  | map np m =>
    refine ⟨fun m' hm => ?_, rfl⟩
    simp only [Raises] at hx
    rw [hx.1, Option.some.injEq] at hm
    exact hm ▸ ⟨hx.2, rfl⟩
  | back hb hd =>
    refine ⟨trivial, ?_⟩
    cases x <;> simp_all [Ctl.building, Ctl.unset]
  | _ => exact ⟨trivial, rfl⟩

/-- A thread in `exec` was in it before. -/
theorem Next.inExec {y : Ctl} (h : Next k p x y) (hy : y.inExec = true) :
    x.inExec = true ∧ x ≠ .exec := by
  cases h with
  | enter call hc => cases call <;> first | exact absurd rfl hc | cases hy
  | load | failed => simp [Ctl.inExec]
  | _ => cases hy

end

/-! ### The slot being built -/

section

variable {c : Fin ncpu} {p np m : Slot}

theorem Crew.forkStack (h : Crew k) (hx : Kin ((k.allocStack np).goto p (.forkCopy np)))
    (hp : k.ctl p = .forkAlloc np) : Crew ((k.allocStack np).goto p (.forkCopy np)) := by
  have := h.fresh np
  have := h.kin.sound.embryo p np
  have := h.kin.sound.active np
  refine h.build p np hx ?_ ?_ ?_ ?_ ?_ ?_ ?_ <;> grind [Kernel.allocStack]

theorem Crew.createStack (h : Crew k) (hx : Kin ((k.allocStack np).goto p (.createInit np m)))
    (hp : k.ctl p = .createAlloc np m) : Crew ((k.allocStack np).goto p (.createInit np m)) := by
  have := h.fresh np
  have := h.raises p
  have := h.kin.sound.embryo p np
  have := h.kin.sound.active
  refine h.build p np hx ?_ ?_ ?_ ?_ ?_ ?_ ?_ <;> grind [Kernel.allocStack]

theorem Crew.abandon (h : Crew k) (hx : Kin ((k.abandon np).goto p .user))
    (hp : k.ctl p = .forkAlloc np ∨ k.ctl p = .forkCopy np ∨ k.ctl p = .createAlloc np m) :
    Crew ((k.abandon np).goto p .user) := by
  have := h.fresh np
  have := h.kin.fits p
  refine h.build p np hx ?_ ?_ ?_ ?_ ?_ ?_ ?_ <;> grind [Kernel.abandon]

theorem Crew.forkCopy (h : Crew k) (hx : Kin (k.forkCopy p np true))
    (hp : k.ctl p = .forkCopy np) : Crew (k.forkCopy p np true) := by
  have := h.kin.fits p
  refine h.build p np hx ?_ ?_ ?_ ?_ ?_ ?_ ?_ <;> grind [Kernel.forkCopy]

theorem Crew.createInit (h : Crew k) (hx : Kin (k.createInit p np m)) (hc : k.cpu c = some p)
    (hp : k.ctl p = .createInit np m) : Crew (k.createInit p np m) := by
  have := h.fresh np
  have := h.master p m
  have := h.raises p
  have := h.kin.main p
  have := h.kin.sound.running c p hc
  have := h.kin.sound.embryo p np
  refine h.build p np hx ?_ ?_ ?_ ?_ ?_ ?_ ?_ <;> grind [Kernel.createInit]

theorem Crew.createSet {g : ℕ} (h : Crew k) (hx : Kin (k.createSet p np g))
    (hp : k.ctl p = .createSet np g) : Crew (k.createSet p np g) := by
  obtain ⟨m, hm⟩ : ∃ m, (k.proc np).master = some m :=
    Option.ne_none_iff_exists'.1 (by have := h.kin.fits p; grind)
  have := h.fresh m
  have := h.master np m
  have := h.raises p
  refine h.build p np hx ?_ ?_ ?_ ?_ ?_ ?_ ?_ <;> grind [Kernel.createSet]

theorem Crew.ready (h : Crew k) (hx : Kin ((k.ready np).goto p .user))
    (hp : k.ctl p = .forkReady np ∨ k.ctl p = .createReady np) :
    Crew ((k.ready np).goto p .user) := by
  have := h.fresh np
  have := h.master np
  have := h.shared np
  have := h.kin.fits p
  have := h.kin.sound.builder
  refine h.build p np hx ?_ ?_ ?_ ?_ ?_ ?_ ?_ <;> grind [Kernel.ready]

end

/-! ### The other moves -/

section

variable {c : Fin ncpu} {p np : Slot}

/-- The fields that tell whose thread a slot is. -/
def threadFields (x : Proc) : Option Slot × ℤ × ℕ × ℤ := (x.master, x.tid, x.pgdir, x.pid)

/-- Only states of processes in use change, and none of them is freed or dies. -/
theorem Crew.keep (h : Crew k) (hx : Kin k')
    (hsame : ∀ q, threadFields (k'.proc q) = threadFields (k.proc q))
    (hactive : ∀ q, (k.proc q).state.active = true → (k'.proc q).state.active = true)
    (hctl : ∀ q, k'.ctl q = k.ctl q) (hn : k.nextdir ≤ k'.nextdir) : Crew k' := by
  have hfields : ∀ q, (k'.proc q).master = (k.proc q).master ∧ (k'.proc q).tid = (k.proc q).tid ∧
      (k'.proc q).pgdir = (k.proc q).pgdir ∧ (k'.proc q).pid = (k.proc q).pid := by
    intro q
    simpa only [threadFields, Prod.mk.injEq] using hsame q
  refine h.stay hx (fun q => .inl (hfields q).1) (fun q => .inl (hfields q).2.1)
    (fun q => .inl (hfields q).2.2.1) (fun q => (hfields q).2.2.2) (fun q m hm => ?_)
    (fun q => .inl (hctl q)) (fun q hq hne => ?_) hn
  · obtain ⟨-, hact, hclose, hexec, -⟩ := h.master q m hm
    rw [hctl]
    exact ⟨hactive m hact, hclose, hexec⟩
  · rw [hctl] at hq hne
    rw [(hfields q).1]
    exact h.detached q hq hne

theorem Crew.quiet (h : Crew k) (hx : Kin k') (hq : Quiet k k') : Crew k' := by
  refine h.keep hx (fun q => ?_) (fun q hact => ?_) hq.ctl (by rw [hq.globals])
  · rw [threadFields, hq.master, hq.tid, hq.pgdir, hq.pid]
    rfl
  · rcases hq.state q with hs | ⟨-, hs⟩
    · rw [hs]
      exact hact
    · rw [hs]
      rfl

theorem Crew.goto {x : Ctl} (h : Crew k) (hx : Kin (k.goto p x))
    (hn : Next k p (k.ctl p) x) : Crew (k.goto p x) := by
  have hr := hn.raises (h.raises p)
  have hexec := hn.inExec
  have hmas := h.master
  have hdet := h.detached
  have hclose : x = .exitClose → ∀ q, (k.proc q).master ≠ some p := by
    intro hclose q hq
    rcases hn.close_spec hclose with ht | hl
    · exact ht (hmas q p hq).1
    · exact hl q hq
  refine h.stay hx (fun q => .inl rfl) (fun q => .inl rfl) (fun q => .inl rfl) (fun q => rfl)
    ?_ ?_ ?_ le_rfl <;> grind

/-- A system call returns. -/
theorem Crew.back (h : Crew k) (hx : Kin (k.goto p .user)) (hp : (k.ctl p).unset = none) :
    Crew (k.goto p .user) := by
  have hmas := h.master
  have hdet := h.detached
  refine h.stay hx (fun q => .inl rfl) (fun q => .inl rfl) (fun q => .inl rfl) (fun q => rfl)
    ?_ ?_ ?_ le_rfl <;> grind

/-- A process that runs gives up the processor, or a ready one gets it. -/
theorem Crew.sched (h : Crew k) {f : Proc → Proc} {c' : Fin ncpu} {k' : Kernel ncpu}
    (hx : Kin k') (hk' : k' = (k.modify p f).sched c' ∨ k' = (k.modify p f).take c' p)
    (hf : ∀ x, threadFields (f x) = threadFields x) (hact : (f (k.proc p)).state.active = true) :
    Crew k' := by
  have hproc : ∀ q, k'.proc q = (k.modify p f).proc q := by
    rcases hk' with rfl | rfl <;> simp
  have hctl : ∀ q, k'.ctl q = k.ctl q := by
    rcases hk' with rfl | rfl <;> simp
  have hglobals : k'.toGlobals = k.toGlobals := by
    rcases hk' with rfl | rfl <;> simp
  refine h.keep hx (fun q => ?_) (fun q hq => ?_) hctl (by rw [hglobals])
  · rw [hproc]
    exact k.modify_field threadFields hf q
  · rw [hproc, modify_proc]
    split
    · exact hact
    · exact hq

theorem Crew.die (h : Crew k) (hx : Kin (k.die c p)) (hp : k.ctl p = .exitClose) :
    Crew (k.die c p) := by
  have hmas := h.master
  have hdet := h.detached
  refine h.stay hx ?_ ?_ ?_ ?_ ?_ ?_ ?_ ?_ <;> grind

theorem Crew.commit {t : ℤ} (h : Crew k) (hx : Kin (k.execLoad p t true))
    (hp : k.ctl p = .execLoad t) : Crew (k.execLoad p t true) := by
  have hmas := h.master
  have hdet := h.detached
  refine h.stay hx ?_ ?_ ?_ ?_ ?_ ?_ ?_ ?_ <;> grind [Kernel.execLoad]

theorem Crew.threadWakeup (h : Crew k) (hx : Kin (k.threadWakeup p)) :
    Crew (k.threadWakeup p) := by
  refine h.keep hx (fun q => ?_) (fun q hq => ?_) (fun q => rfl) le_rfl
  · rw [threadWakeup_proc]
    split <;> rfl
  · rw [threadWakeup_proc]
    split
    · rfl
    · exact hq

theorem Crew.forkEmbryo (h : Crew k) (hx : Kin ((k.embryo np).goto p (.forkAlloc np)))
    (hc : k.cpu c = some p) (hp : k.ctl p = .fork) (hnp : (k.proc np).state = .unused) :
    Crew ((k.embryo np).goto p (.forkAlloc np)) := by
  refine h.draw hx hc hnp (x := .forkAlloc _) rfl trivial ?_ ?_ ?_ ?_ ?_ ?_ ?_ ?_ <;>
    grind [Kernel.embryo]

theorem Crew.createEmbryo
    (h : Crew k) (hx : Kin ((k.embryo np).goto p (.createAlloc np ((k.proc p).master.getD p))))
    (hc : k.cpu c = some p) (hp : k.ctl p = .create) (hnp : (k.proc np).state = .unused) :
    Crew ((k.embryo np).goto p (.createAlloc np ((k.proc p).master.getD p))) := by
  have hraises : k.Raises p (.createAlloc np ((k.proc p).master.getD p)) := by
    cases hm : (k.proc p).master <;> simp [Raises, Leads, hm]
  refine h.draw hx hc hnp (x := .createAlloc np ((k.proc p).master.getD p)) rfl hraises
    ?_ ?_ ?_ ?_ ?_ ?_ ?_ ?_ <;> grind [Kernel.embryo]

end

theorem Crew.move (h : Crew k) (hm : Move k k') : Crew k' := by
  have hx := h.kin.move hm
  cases hm with
  | quiet hq => exact h.quiet hx hq
  | goto _ hn => exact h.goto hx hn
  | dispatch => exact h.sched hx (.inr rfl) (fun _ => rfl) rfl
  | yield => exact h.sched hx (.inl rfl) (fun _ => rfl) rfl
  | sleep => exact h.sched hx (.inl rfl) (fun _ => rfl) rfl
  | forkEmbryo hc hp hnp => exact h.forkEmbryo hx hc hp hnp
  | createEmbryo hc hp hnp => exact h.createEmbryo hx hc hp hnp
  | forkStack hc hp => exact h.forkStack hx hp
  | createStack hc hp => exact h.createStack hx hp
  | abandon hc hp => exact h.abandon hx hp
  | forkCopy hc hp => exact h.forkCopy hx hp
  | createInit hc hp => exact h.createInit hx hc hp
  | createSet hc hp => exact h.createSet hx hp
  | ready hc hp => exact h.ready hx hp
  | reapThread hc hp hz hs => refine h.reap hx hs ?_ ?_ ?_ ?_ ?_ ?_ <;> grind
  | reapChild hc hp hz hs =>
    have := h.kin.worker
    refine h.reap hx hs ?_ ?_ ?_ ?_ ?_ ?_ <;> grind [Kernel.reapChild]
  | reparent =>
    refine h.keep hx (k.modify_field threadFields fun _ => rfl) (fun q hq => ?_) (fun _ => rfl) le_rfl
    rw [modify_proc]
    split
    · rename_i hr
      exact hr ▸ hq
    · exact hq
  | die hc hp => exact h.die hx hp
  | commit hc hp => exact h.commit hx hp
  | threadWakeup => exact h.threadWakeup hx

section

variable {c : Fin ncpu} {p : Slot}

/-- The threads of a main thread that is about to enter `exec` alone are none. -/
theorem Crew.alone (h : Crew k) (hp : k.ctl p = .user)
    (hl : (k.proc p).master = none → ∀ q, q ≠ p → (k.proc q).state ≠ .unused →
      ¬ Leftover k q → (k.proc q).pgdir ≠ (k.proc p).pgdir) (q : Slot) :
    (k.proc q).master ≠ some p := by
  intro hq
  have hp0 : (k.proc p).master = none := by
    by_contra hm
    exact (h.kin.worker p hm).2.ne' (h.master q p hq).1
  have hset : ∀ r, (k.proc r).master = some p → (∀ b, (k.ctl b).unset ≠ some r) → False := by
    intro r hr hun
    have hru : (k.proc r).state ≠ .unused := fun hu => by simp [(h.kin.free r hu).1] at hr
    refine hl hp0 r ?_ hru (fun ⟨b, hb⟩ => hun b hb) (h.shared r p hr hun)
    rintro rfl
    simp [hp0] at hr
  by_cases hun : ∀ b, (k.ctl b).unset ≠ some q
  · exact hset q hq hun
  · -- A thread under construction is the work of another thread of `p`, which is not.
    simp only [ne_eq, not_forall, not_not] at hun
    obtain ⟨b, hb⟩ := hun
    have hbp : (k.proc b).master = some p := by
      have := h.raises b
      have := h.kin.fits b
      cases hx : k.ctl b <;> simp [hx, Ctl.unset] at hb <;> grind
    refine hset b hbp fun b' hb' => ?_
    have hemb := h.kin.sound.embryo b' b (Ctl.building_of_unset hb')
    have hact : (k.proc b).state.active = true := by
      apply h.kin.sound.active <;> intro hx <;> simp [hx, Ctl.unset] at hb
    simp [hemb, ProcState.active] at hact

theorem Crew.reapThread {z : Slot} (h : Crew k) (hz : (k.proc z).state = .zombie) :
    Crew (k.reapThread p z) := by
  refine h.reap (h.kin.reapThread hz) hz ?_ ?_ ?_ ?_ ?_ ?_ <;> grind

theorem Crew.enterExec (h : Crew k) (hx : Kin (k.goto p .exec)) (hp : k.ctl p = .user)
    (hl : ∀ q, (k.proc q).master ≠ some p) : Crew (k.goto p .exec) := by
  have := h.master
  have := h.detached
  refine h.stay hx ?_ ?_ ?_ ?_ ?_ ?_ ?_ ?_ <;> grind

theorem Crew.threadExit {v : ℤ} (h : Crew k) (hx : Kin (k.threadExit c p v))
    (hp : k.ctl p = .threadExit v)
    (hl : ∀ q, (k.proc q).master ≠ some p) : Crew (k.threadExit c p v) := by
  have := h.master
  have := h.detached
  refine h.stay hx ?_ ?_ ?_ ?_ ?_ ?_ ?_ ?_ <;> grind [Kernel.threadExit]

theorem Crew.joinScan {t : ℤ} (h : Crew k) (hx : Kin (k.joinScan c p t).2)
    (hp : k.ctl p = .joinScan t) : Crew (k.joinScan c p t).2 := by
  rcases joinScan_cases k c p t with ⟨z, -, hz, he⟩ | ⟨-, ⟨-, he⟩ | ⟨-, he⟩⟩ <;> rw [he] at hx ⊢
  · exact (h.reapThread hz).back hx (by simp [hp, Ctl.unset])
  · exact h.back hx (by simp [hp, Ctl.unset])
  · exact h.sched hx (.inl rfl) (fun _ => rfl) rfl

theorem Crew.exec (h : Crew k) (hx : Kin (k.exec p)) (hp : k.ctl p = .exec) :
    Crew (k.exec p) := by
  have := h.master
  have := h.detached
  rw [Kernel.exec] at hx ⊢
  split at hx
  · refine h.stay hx ?_ ?_ ?_ ?_ ?_ ?_ ?_ ?_ <;> grind
  · refine h.stay hx ?_ ?_ ?_ ?_ ?_ ?_ ?_ ?_ <;> grind

theorem Crew.threadKill {t : ℤ} (h : Crew k) (hx : Kin ((k.threadKill p).goto p (.execNamei t)))
    (hp : k.ctl p = .execKill t) : Crew ((k.threadKill p).goto p (.execNamei t)) := by
  have := h.master
  have := h.detached
  refine h.stay hx ?_ ?_ ?_ ?_ ?_ ?_ ?_ ?_ <;> grind

theorem Crew.special {e : Event ncpu} (h : Crew k) (hs : SiblingsReady k e) (hl : ExitsLast k e)
    (ha : ExecsAlone k e) (he : Special k e k') : Crew k' := by
  have hx := h.kin.special hs he
  cases he with
  | enterExec hc hp hk => exact h.enterExec hx hp (h.alone hp (ha _ hc))
  | @threadExit c p v ok hc hp =>
    refine h.threadExit hx hp fun q hq => ?_
    exact hl p hc (by rw [hp]; rfl) (h.master q p hq).1 q hq
  | joinScan _ hp => exact h.joinScan hx hp
  | exec hc hp => exact h.exec hx hp
  | threadKill hc hp => exact h.threadKill hx hp

theorem Crew.step {e : Event ncpu} (h : Crew k) (hs : SiblingsReady k e) (hl : ExitsLast k e)
    (ha : ExecsAlone k e) (he : k.step e = some k') : Crew k' :=
  step_inv (fun _ _ => Crew.move) (h.special hs hl ha) h he

theorem crew_boot : Crew (boot ncpu) := by
  refine ⟨kin_boot, ?_, fun p => ?_, ?_, ?_, ?_⟩
  · grind
  · rw [boot_ctl]
    split <;> trivial
  all_goals grind

end

/-- The first process forks, and its child creates a thread. -/
def childWithThread : List (Event 2) :=
  [.dispatch 0 0, .syscall 0 .fork, .advance 0 true, .advance 0 true, .advance 0 true,
    .advance 0 true, .syscall 0 .wait, .dispatch 1 1, .syscall 1 .threadCreate, .advance 1 true,
    .advance 1 true, .advance 1 true, .advance 1 true, .advance 1 true, .advance 1 true]

end Kernel
end Xv6
