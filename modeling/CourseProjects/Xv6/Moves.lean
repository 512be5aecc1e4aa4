import CourseProjects.Xv6.Kernel

/-!
# What an event can do

Every event is a chain of moves (`step_moves`), each of which changes one thing: some
sleepers are woken and some slots marked killed (`Quiet`), a kernel thread goes on
where no table is written (`Next`), a slot is drawn, built, made ready, put to sleep
or reaped. The sections that the guards of the runs speak of, the call of `exec`,
`threadExit`, `joinScan`, the start of `exec` and `threadKill`, are left whole
(`Special`).

An invariant of the moves and of those sections is an invariant of the kernel
(`step_inv`).
-/

namespace Xv6

/-- The slot a kernel thread is building. -/
@[grind =] def Ctl.building : Ctl → Option Slot
  | forkAlloc np | forkCopy np | forkReady np => some np
  | createAlloc np _ | createInit np _ | createMap np _ | createSet np _ | createReady np => some np
  | user | fork | create | threadExit _ | threadJoin _ | joinScan _ | exit | exitReap | exitClose
  | wait | kill _ | exec | execKill _ | execNamei _ | execLoad _ | execWake | dead => none

namespace Kernel

variable {ncpu : ℕ}

/-- Sleepers are woken and slots marked killed; nothing else happens. -/
structure Quiet (k k' : Kernel ncpu) : Prop where
  state : ∀ q, (k'.proc q).state = (k.proc q).state ∨
    (k.proc q).state = .sleeping ∧ (k'.proc q).state = .runnable
  killed : ∀ q, (k.proc q).killed = true → (k'.proc q).killed = true
  chan : ∀ q, (k'.proc q).chan = (k.proc q).chan
  pgdir : ∀ q, (k'.proc q).pgdir = (k.proc q).pgdir
  pid : ∀ q, (k'.proc q).pid = (k.proc q).pid
  parent : ∀ q, (k'.proc q).parent = (k.proc q).parent
  tid : ∀ q, (k'.proc q).tid = (k.proc q).tid
  master : ∀ q, (k'.proc q).master = (k.proc q).master
  tmpRetval : ∀ q, (k'.proc q).tmpRetval = (k.proc q).tmpRetval
  cpu : ∀ c, k'.cpu c = k.cpu c
  ctl : ∀ q, k'.ctl q = k.ctl q
  past : ∀ q, k'.past q = k.past q
  globals : k'.toGlobals = k.toGlobals

theorem Quiet.refl (k : Kernel ncpu) : Quiet k k := by
  constructor <;> simp

theorem Quiet.trans {k k₁ k₂ : Kernel ncpu} (h : Quiet k k₁) (h' : Quiet k₁ k₂) : Quiet k k₂ where
  state q := by
    have := h.state q
    have := h'.state q
    grind
  killed q hq := h'.killed q (h.killed q hq)
  chan q := (h'.chan q).trans (h.chan q)
  pgdir q := (h'.pgdir q).trans (h.pgdir q)
  pid q := (h'.pid q).trans (h.pid q)
  parent q := (h'.parent q).trans (h.parent q)
  tid q := (h'.tid q).trans (h.tid q)
  master q := (h'.master q).trans (h.master q)
  tmpRetval q := (h'.tmpRetval q).trans (h.tmpRetval q)
  cpu c := (h'.cpu c).trans (h.cpu c)
  ctl q := (h'.ctl q).trans (h.ctl q)
  past q := (h'.past q).trans (h.past q)
  globals := h'.globals.trans h.globals

theorem quiet_wakeup1 (k : Kernel ncpu) (chan : Option Chan) : Quiet k (k.wakeup1 chan) := by
  constructor <;> intros <;> grind [wakeup1]

/-- A slot is marked killed, and may be woken. -/
theorem quiet_kill (k : Kernel ncpu) (p : Slot) {f : Proc → Proc}
    (hf : f (k.proc p) = { k.proc p with killed := true, state := (f (k.proc p)).state })
    (hs : (f (k.proc p)).state = (k.proc p).state ∨
      (k.proc p).state = .sleeping ∧ (f (k.proc p)).state = .runnable) :
    Quiet k (k.modify p f) := by
  constructor <;> intros <;> grind [modify]

/-- A kernel thread goes on, and the table stays as it is. -/
inductive Next (k : Kernel ncpu) (p : Slot) : Ctl → Ctl → Prop
  | enter (call : Call) : call ≠ .exec → (k.proc p).killed = false → Next k p .user call.entry
  | trap : Next k p .user .exit
  | back {x : Ctl} : x.building = none → x ≠ .dead → Next k p x .user
  | map (np m : Slot) : Next k p (.createMap np m) (.createSet np (k.proc m).pgdir)
  | scan (t : ℤ) : (k.proc p).master = none → Next k p (.threadJoin t) (.joinScan t)
  | reap : p ≠ initproc → (k.proc p).tid = 0 → Next k p .exit .exitReap
  | close : p ≠ initproc → (k.proc p).tid ≠ 0 → Next k p .exit .exitClose
  | reaped : (∀ q, (k.proc q).master ≠ some p) → Next k p .exitReap .exitClose
  | load (t : ℤ) : Next k p (.execNamei t) (.execLoad t)
  | failed (t : ℤ) : Next k p (.execLoad t) .execWake
  | wait : Next k p .execWake .wait

/-- A move of the kernel. -/
inductive Move (k : Kernel ncpu) : Kernel ncpu → Prop
  | quiet {k' : Kernel ncpu} : Quiet k k' → Move k k'
  | goto {c : Fin ncpu} {p : Slot} {x : Ctl} : k.cpu c = some p → Next k p (k.ctl p) x →
      Move k (k.goto p x)
  | dispatch {c : Fin ncpu} {p : Slot} : k.cpu c = none → (k.proc p).state = .runnable →
      k.ctl p ≠ .dead → Move k (k.dispatch c p)
  | yield {c : Fin ncpu} {p : Slot} : k.cpu c = some p →
      Move k ((k.modify p fun x => { x with state := .runnable }).sched c)
  | sleep {c : Fin ncpu} {p : Slot} {chan : Chan} : k.cpu c = some p →
      (∀ t, k.ctl p ≠ .joinScan t) → Move k (k.sleep c p chan)
  | forkEmbryo {c : Fin ncpu} {p np : Slot} : k.cpu c = some p → k.ctl p = .fork →
      (k.proc np).state = .unused → Move k ((k.embryo np).goto p (.forkAlloc np))
  | createEmbryo {c : Fin ncpu} {p np : Slot} : k.cpu c = some p → k.ctl p = .create →
      (k.proc np).state = .unused →
      Move k ((k.embryo np).goto p (.createAlloc np ((k.proc p).master.getD p)))
  | forkStack {c : Fin ncpu} {p np : Slot} : k.cpu c = some p → k.ctl p = .forkAlloc np →
      Move k ((k.allocStack np).goto p (.forkCopy np))
  | createStack {c : Fin ncpu} {p np m : Slot} : k.cpu c = some p → k.ctl p = .createAlloc np m →
      Move k ((k.allocStack np).goto p (.createInit np m))
  | abandon {c : Fin ncpu} {p np m : Slot} : k.cpu c = some p →
      k.ctl p = .forkAlloc np ∨ k.ctl p = .forkCopy np ∨ k.ctl p = .createAlloc np m →
      Move k ((k.abandon np).goto p .user)
  | forkCopy {c : Fin ncpu} {p np : Slot} : k.cpu c = some p → k.ctl p = .forkCopy np →
      Move k (k.forkCopy p np true)
  | createInit {c : Fin ncpu} {p np m : Slot} : k.cpu c = some p → k.ctl p = .createInit np m →
      Move k (k.createInit p np m)
  | createSet {c : Fin ncpu} {p np : Slot} {g : ℕ} : k.cpu c = some p →
      k.ctl p = .createSet np g → Move k (k.createSet p np g)
  | ready {c : Fin ncpu} {p np : Slot} : k.cpu c = some p →
      k.ctl p = .forkReady np ∨ k.ctl p = .createReady np → Move k ((k.ready np).goto p .user)
  | reapThread {c : Fin ncpu} {p z : Slot} : k.cpu c = some p → k.ctl p = .exitReap →
      (k.proc z).master = some p → (k.proc z).state = .zombie → Move k (k.reapThread p z)
  | reapChild {c : Fin ncpu} {p z : Slot} : k.cpu c = some p → k.ctl p = .wait →
      (k.proc z).parent = some p → (k.proc z).state = .zombie → Move k (k.reapChild z)
  | reparent {c : Fin ncpu} {p q : Slot} : k.cpu c = some p → k.ctl p = .exitClose →
      (k.proc q).parent = some p →
      Move k (k.modify q fun x => { x with parent := some initproc })
  | die {c : Fin ncpu} {p : Slot} : k.cpu c = some p → k.ctl p = .exitClose →
      (∀ q, p ≠ initproc → (k.proc q).parent ≠ some p) →
      (∀ m, (k.proc p).tid ≠ 0 → (k.proc p).master = some m →
        (k.proc m).state = .sleeping → (k.proc m).chan ≠ some (.proc m)) →
      Move k (k.die c p)
  | commit {c : Fin ncpu} {p : Slot} {t : ℤ} : k.cpu c = some p → k.ctl p = .execLoad t →
      Move k (k.execLoad p t true)
  | threadWakeup {c : Fin ncpu} {p : Slot} : k.cpu c = some p → k.ctl p = .execWake →
      Move k (k.threadWakeup p)

/-- An event that is one of the sections the guards of the runs speak of. -/
inductive Special (k : Kernel ncpu) : Event ncpu → Kernel ncpu → Prop
  | enterExec {c : Fin ncpu} {p : Slot} : k.cpu c = some p → k.ctl p = .user →
      (k.proc p).killed = false → Special k (.syscall c .exec) (k.goto p .exec)
  | threadExit {c : Fin ncpu} {p : Slot} {v : ℤ} {ok : Bool} : k.cpu c = some p →
      k.ctl p = .threadExit v → Special k (.advance c ok) (k.threadExit c p v)
  | joinScan {c : Fin ncpu} {p : Slot} {t : ℤ} {ok : Bool} : k.cpu c = some p →
      k.ctl p = .joinScan t → Special k (.advance c ok) (k.joinScan c p t).2
  | exec {c : Fin ncpu} {p : Slot} {ok : Bool} : k.cpu c = some p → k.ctl p = .exec →
      Special k (.advance c ok) (k.exec p)
  | threadKill {c : Fin ncpu} {p : Slot} {t : ℤ} {ok : Bool} : k.cpu c = some p →
      k.ctl p = .execKill t →
      Special k (.advance c ok) ((k.threadKill p).goto p (.execNamei t))

/-! ### The sections that loop over the table -/

/-- A chain of moves. -/
def Moves : Kernel ncpu → Kernel ncpu → Prop := Relation.ReflTransGen Move

variable {k k' k₁ : Kernel ncpu} {c : Fin ncpu} {p : Slot}

theorem Moves.refl : Moves k k := Relation.ReflTransGen.refl

theorem Move.moves (h : Move k k') : Moves k k' := Relation.ReflTransGen.single h

theorem Moves.tail (h : Moves k k₁) (h' : Move k₁ k') : Moves k k' :=
  Relation.ReflTransGen.tail h h'

theorem Moves.trans (h : Moves k k₁) (h' : Moves k₁ k') : Moves k k' :=
  Relation.ReflTransGen.trans h h'

theorem moves_wakeup1 (chan : Option Chan) : Moves k (k.wakeup1 chan) :=
  (Move.quiet (quiet_wakeup1 k chan)).moves

/-- The first loop of `exit` reaps and kills, and leaves no thread of the caller when it
    finds none to wait for. -/
theorem exitReap_loop (hc : k.cpu c = some p) (hp : k.ctl p = .exitReap) :
    let a := forSlots (exitReapSlot p) (false, k)
    Moves k a.2 ∧ a.2.cpu c = some p ∧ a.2.ctl p = .exitReap ∧
      (a.1 = false → ∀ q, (a.2.proc q).master ≠ some p) := by
  suffices h : (Moves k _ ∧ _ ∧ _) ∧ ∀ q, _ → _ from
    ⟨h.1.1, h.1.2.1, h.1.2.2, fun hf q => h.2 q hf⟩
  refine forSlots_all (g := exitReapSlot p) (a := (false, k))
    (P := fun a => Moves k a.2 ∧ a.2.cpu c = some p ∧ a.2.ctl p = .exitReap)
    (R := fun a q => a.1 = false → (a.2.proc q).master ≠ some p) ?_ ⟨.refl, hc, hp⟩
  · rintro ⟨b, k₁⟩ q ⟨hm, hc', hp'⟩
    simp only at hm hc' hp'
    simp only [exitReapSlot]
    split
    · rename_i hq
      split
      · rename_i hz
        refine ⟨⟨hm.tail (.reapThread hc' hp' hq hz), ?_, ?_⟩, ?_, ?_⟩ <;>
          grind
      · have hquiet : Quiet k₁ (k₁.modify q fun x => { x with killed := true }) :=
          quiet_kill k₁ q rfl (.inl rfl)
        exact ⟨⟨(hm.tail (.quiet hquiet)).trans (moves_wakeup1 _), hc', hp'⟩, by simp, by simp⟩
    · rename_i hq
      exact ⟨⟨hm, hc', hp'⟩, fun _ => hq, fun q' h => h⟩

/-- The second loop of `exit` passes every child on. -/
theorem reparent_loop (hc : k.cpu c = some p) (hp : k.ctl p = .exitClose) :
    let k' := forSlots (reparentSlot p) k
    Moves k k' ∧ k'.cpu c = some p ∧ k'.ctl p = .exitClose ∧
      (∀ q, p ≠ initproc → (k'.proc q).parent ≠ some p) ∧
      ∀ q, (k'.proc q).tid = (k.proc q).tid ∧ (k'.proc q).master = (k.proc q).master ∧
        (k'.proc q).chan = (k.proc q).chan ∧
        ((k'.proc q).state = .sleeping → (k.proc q).state = .sleeping) := by
  suffices h : (Moves k _ ∧ _ ∧ _ ∧ _) ∧ ∀ q, _ from
    ⟨h.1.1, h.1.2.1, h.1.2.2.1, h.2, h.1.2.2.2⟩
  refine forSlots_all (g := reparentSlot p) (a := k)
    (P := fun k' => Moves k k' ∧ k'.cpu c = some p ∧ k'.ctl p = .exitClose ∧
      ∀ q, (k'.proc q).tid = (k.proc q).tid ∧ (k'.proc q).master = (k.proc q).master ∧
        (k'.proc q).chan = (k.proc q).chan ∧
        ((k'.proc q).state = .sleeping → (k.proc q).state = .sleeping))
    (R := fun k' q => p ≠ initproc → (k'.proc q).parent ≠ some p) ?_ ⟨.refl, hc, hp, by simp⟩
  · rintro k₁ q ⟨hm, hc', hp', hk⟩
    simp only [reparentSlot]
    split
    · rename_i hq
      have hm' := hm.tail (.reparent hc' hp' hq)
      split
      · refine ⟨⟨hm'.trans (moves_wakeup1 _), hc', hp', ?_⟩, ?_, ?_⟩ <;> grind
      · refine ⟨⟨hm', hc', hp', ?_⟩, ?_, ?_⟩ <;> grind
    · rename_i hq
      exact ⟨⟨hm, hc', hp', hk⟩, fun _ => hq, fun q' h => h⟩

/-! ### What a section comes to -/

section

variable {e : Event ncpu} {np : Slot} {t : ℤ} {ok : Bool} {n : ℕ} {call : Call}

theorem step_dispatch (h : k.step (.dispatch c p) = some k') :
    k.cpu c = none ∧ (k.proc p).state = .runnable ∧ k.ctl p ≠ .dead ∧ k' = k.dispatch c p := by
  simp only [step, Option.ite_none_right_eq_some, Option.some.injEq] at h
  obtain ⟨⟨hc, hs, hd⟩, rfl⟩ := h
  exact ⟨hc, hs, hd, rfl⟩

theorem step_yield (h : k.step (.yield c) = some k') :
    ∃ p, k.cpu c = some p ∧ k' = (k.modify p fun x => { x with state := .runnable }).sched c := by
  obtain ⟨p, hc, rfl⟩ := Option.map_eq_some_iff.1 h
  exact ⟨p, hc, rfl⟩

theorem step_sleep (h : k.step (.sleep c n) = some k') :
    ∃ p, k.cpu c = some p ∧ (k.ctl p).mayBlock ∧ k' = k.sleep c p (.other n) := by
  obtain ⟨p, hc, h⟩ := Option.bind_eq_some_iff.1 h
  simp only [Option.ite_none_right_eq_some, Option.some.injEq] at h
  obtain ⟨hb, rfl⟩ := h
  exact ⟨p, hc, hb, rfl⟩

theorem step_syscall (h : k.step (.syscall c call) = some k') :
    ∃ p, k.cpu c = some p ∧ k.ctl p = .user ∧ k' = k.syscall p call := by
  obtain ⟨p, hc, h⟩ := Option.bind_eq_some_iff.1 h
  simp only [Option.ite_none_right_eq_some, Option.some.injEq] at h
  obtain ⟨hu, rfl⟩ := h
  exact ⟨p, hc, hu, rfl⟩

theorem step_fault (h : k.step (.fault c) = some k') :
    ∃ p, k.cpu c = some p ∧ k.ctl p = .user ∧
      k' = (k.modify p fun x => { x with killed := true }).goto p .exit := by
  obtain ⟨p, hc, h⟩ := Option.bind_eq_some_iff.1 h
  simp only [Option.ite_none_right_eq_some, Option.some.injEq] at h
  obtain ⟨hu, rfl⟩ := h
  exact ⟨p, hc, hu, rfl⟩

theorem step_advance (h : k.step (.advance c ok) = some k') :
    ∃ p, k.cpu c = some p ∧ k.advance c p ok = some k' :=
  Option.bind_eq_some_iff.1 h

theorem fork_cases (k : Kernel ncpu) (p : Slot) :
    k.fork p = k.goto p .user ∨
      ∃ np, (k.proc np).state = .unused ∧ k.fork p = (k.embryo np).goto p (.forkAlloc np) := by
  rw [fork, allocproc]
  rcases hf : k.findSlot fun x => x.state = .unused with _ | np
  · exact .inl rfl
  · exact .inr ⟨np, by simpa using findSlot_some hf, rfl⟩

theorem threadCreate_cases (k : Kernel ncpu) (p : Slot) :
    k.threadCreate p = k.goto p .user ∨
      ∃ np, (k.proc np).state = .unused ∧
        k.threadCreate p =
          (k.embryo np).goto p (.createAlloc np ((k.proc p).master.getD p)) := by
  rw [threadCreate, allocproc]
  rcases hf : k.findSlot fun x => x.state = .unused with _ | np
  · exact .inl rfl
  · exact .inr ⟨np, by simpa using findSlot_some hf, rfl⟩

/-- A round of `thread_join` reaps a dead slot with the id it is called with, or there is
    none. -/
theorem joinScan_cases (k : Kernel ncpu) (c : Fin ncpu) (p : Slot) (t : ℤ) :
    (∃ z, (k.proc z).tid = t ∧ (k.proc z).state = .zombie ∧
      k.joinScan c p t = (.reaped z (k.proc z).tmpRetval, (k.reapThread p z).goto p .user)) ∨
    (∀ z, (k.proc z).tid = t → (k.proc z).state ≠ .zombie) ∧
      ((k.proc p).killed = true ∧ k.joinScan c p t = (.refused, k.goto p .user) ∨
        (k.proc p).killed = false ∧ k.joinScan c p t = (.waits, k.sleep c p (.proc p))) := by
  rw [joinScan]
  rcases hf : k.findSlot fun x => x.tid = t ∧ x.state = .zombie with _ | z
  · refine .inr ⟨fun z ht hz => by simpa [ht, hz] using findSlot_none hf z, ?_⟩
    cases hk : (k.proc p).killed <;> simp
  · obtain ⟨ht, hz⟩ : (k.proc z).tid = t ∧ (k.proc z).state = .zombie := by
      simpa using findSlot_some hf
    exact .inl ⟨z, ht, hz, rfl⟩

/-- A round of `wait` reaps a dead child, or there is none. -/
theorem wait_cases (k : Kernel ncpu) (c : Fin ncpu) (p : Slot) :
    (∃ z, (k.proc z).parent = some p ∧ (k.proc z).state = .zombie ∧
      k.wait c p = (k.reapChild z).goto p .user) ∨
    (((∀ q, (k.proc q).parent ≠ some p) ∨ (k.proc p).killed = true) ∧
      k.wait c p = k.goto p .user) ∨ k.wait c p = k.sleep c p (.proc p) := by
  rw [wait]
  rcases hf : k.findSlot fun x => x.parent = some p ∧ x.state = .zombie with _ | z
  · right
    dsimp only
    split
    · next h =>
      refine .inl ⟨h.imp_left fun hnone q => ?_, rfl⟩
      exact of_decide_eq_false (findSlot_none hnone q)
    · exact .inr rfl
  · obtain ⟨hp, hz⟩ : (k.proc z).parent = some p ∧ (k.proc z).state = .zombie := by
      simpa using findSlot_some hf
    exact .inl ⟨z, hp, hz, rfl⟩

end

/-! ### The sections -/

theorem Moves.goto {x : Ctl} (h : Moves k k₁) (hc : k₁.cpu c = some p)
    (hx : Next k₁ p (k₁.ctl p) x) : Moves k (k₁.goto p x) :=
  h.tail (.goto hc hx)

/-- A section that does nothing but return. -/
theorem moves_back (hc : k.cpu c = some p) (hb : (k.ctl p).building = none)
    (hd : k.ctl p ≠ .dead) : Moves k (k.goto p .user) :=
  (Move.goto hc (.back hb hd)).moves

theorem fork_moves (hc : k.cpu c = some p) (hp : k.ctl p = .fork) : Moves k (k.fork p) := by
  rcases fork_cases k p with h | ⟨np, hnp, h⟩ <;> rw [h]
  · exact moves_back hc (by rw [hp]; rfl) (by simp [hp])
  · exact (Move.forkEmbryo hc hp hnp).moves

theorem threadCreate_moves (hc : k.cpu c = some p) (hp : k.ctl p = .create) :
    Moves k (k.threadCreate p) := by
  rcases threadCreate_cases k p with h | ⟨np, hnp, h⟩ <;> rw [h]
  · exact moves_back hc (by rw [hp]; rfl) (by simp [hp])
  · exact (Move.createEmbryo hc hp hnp).moves

theorem threadJoin_moves {t : ℤ} (hc : k.cpu c = some p) (hp : k.ctl p = .threadJoin t) :
    Moves k (k.threadJoin p t) := by
  rw [threadJoin]
  split
  · exact moves_back hc (by rw [hp]; rfl) (by simp [hp])
  · rename_i hm
    exact Moves.refl.goto hc (hp ▸ .scan t (by simpa using hm))

theorem exit_moves (hc : k.cpu c = some p) (hp : k.ctl p = .exit) (h : k.exit p = some k') :
    Moves k k' := by
  rw [exit] at h
  split at h
  · cases h
  · rename_i hi
    cases h
    split
    · rename_i ht
      exact Moves.refl.goto hc (hp ▸ .reap hi ht)
    · rename_i ht
      exact Moves.refl.goto hc (hp ▸ .close hi ht)

theorem exitReap_moves (hc : k.cpu c = some p) (hp : k.ctl p = .exitReap) :
    Moves k (k.exitReap c p) := by
  obtain ⟨hm, hc', hp', hall⟩ := exitReap_loop hc hp
  rw [exitReap]
  split
  · exact hm.tail (.sleep hc' (by simp [hp']))
  · rename_i hf
    exact hm.goto hc' (hp' ▸ .reaped (hall (by simpa using hf)))

/-- Telling the parent or the master is quiet, and leaves the master awake. -/
theorem exitNotify_quiet : Quiet k (k.exitNotify p) := by
  rw [exitNotify]
  split
  · exact quiet_wakeup1 _ _
  · split
    · exact .refl k
    · rename_i m _
      have hq : Quiet k (k.modify m fun x => { x with killed := true }) :=
        quiet_kill k m rfl (.inl rfl)
      exact hq.trans (quiet_wakeup1 _ _)

theorem exitNotify_awake {m : Slot} (ht : (k.proc p).tid ≠ 0) (hm : (k.proc p).master = some m)
    (hs : ((k.exitNotify p).proc m).state = .sleeping) :
    ((k.exitNotify p).proc m).chan ≠ some (.proc m) := by
  rw [exitNotify, if_neg ht, hm] at hs ⊢
  grind

theorem exitClose_moves (hc : k.cpu c = some p) (hp : k.ctl p = .exitClose) :
    Moves k (k.exitClose c p) := by
  have hq : Quiet k (k.exitNotify p) := exitNotify_quiet
  have hl := reparent_loop ((hq.cpu c).trans hc) ((hq.ctl p).trans hp)
  rw [exitClose]
  generalize forSlots (reparentSlot p) (k.exitNotify p) = k₁ at hl
  obtain ⟨hm, hc', hp', hall, hk⟩ := hl
  refine ((Move.quiet hq).moves.trans hm).tail (.die hc' hp' hall fun m ht hmm hs => ?_)
  -- The master was awake before the loop, which puts nobody to sleep.
  obtain ⟨-, -, hchan, hsl⟩ := hk m
  rw [hchan]
  refine exitNotify_awake ?_ ?_ (hsl hs)
  · rwa [(hk p).1, hq.tid] at ht
  · rwa [(hk p).2.1, hq.master] at hmm

theorem wait_moves (hc : k.cpu c = some p) (hp : k.ctl p = .wait) : Moves k (k.wait c p) := by
  rcases wait_cases k c p with ⟨z, hz, hz', h⟩ | ⟨-, h⟩ | h <;> rw [h]
  · refine (Move.reapChild hc hp hz hz').moves.trans (moves_back hc ?_ ?_)
    · rw [reapChild, modify_ctl, hp]
      rfl
    · simp [reapChild, hp]
  · exact moves_back hc (by rw [hp]; rfl) (by simp [hp])
  · exact (Move.sleep hc (by simp [hp])).moves

theorem kill_moves {pid : ℤ} (hc : k.cpu c = some p) (hp : k.ctl p = .kill pid) :
    Moves k (k.kill p pid) := by
  rw [kill]
  split
  · exact moves_back hc (by rw [hp]; rfl) (by simp [hp])
  · rename_i q hq
    refine (Move.quiet (quiet_kill k q rfl ?_)).moves.trans (moves_back hc ?_ ?_)
    · grind
    · rw [modify_ctl, hp]
      rfl
    · simp [hp]

theorem execWake_moves (hc : k.cpu c = some p) (hp : k.ctl p = .execWake) :
    Moves k (k.execWake p) := by
  have hm := (Move.threadWakeup hc hp).moves
  rw [execWake]
  split
  · exact hm.goto hc (show Next _ p (k.ctl p) _ from hp ▸ .wait)
  · exact hm.goto hc (show Next _ p (k.ctl p) _ from hp ▸ .back rfl (by simp))

/-- The next section of a kernel thread is a chain of moves, or one the guards speak of. -/
theorem advance_moves {ok : Bool} (hc : k.cpu c = some p) (h : k.advance c p ok = some k') :
    Moves k k' ∨ Special k (.advance c ok) k' := by
  cases hp : k.ctl p <;> simp only [advance, hp, reduceCtorEq, Option.some.injEq] at h <;>
    try subst h
  case fork => exact .inl (fork_moves hc hp)
  case forkAlloc np =>
    left
    cases ok
    · exact (Move.abandon (m := p) hc (.inl hp)).moves
    · exact (Move.forkStack hc hp).moves
  case forkCopy np =>
    left
    cases ok
    · exact (Move.abandon (m := p) hc (.inr (.inl hp))).moves
    · exact (Move.forkCopy hc hp).moves
  case forkReady np => exact .inl (Move.ready hc (.inl hp)).moves
  case create => exact .inl (threadCreate_moves hc hp)
  case createAlloc np m =>
    left
    cases ok
    · exact (Move.abandon hc (.inr (.inr hp))).moves
    · exact (Move.createStack hc hp).moves
  case createInit np m => exact .inl (Move.createInit hc hp).moves
  case createMap np m => exact .inl (Moves.refl.goto hc (hp ▸ .map np m))
  case createSet np g => exact .inl (Move.createSet hc hp).moves
  case createReady np => exact .inl (Move.ready hc (.inr hp)).moves
  case threadExit v => exact .inr (.threadExit hc hp)
  case threadJoin t => exact .inl (threadJoin_moves hc hp)
  case joinScan t => exact .inr (.joinScan hc hp)
  case exit => exact .inl (exit_moves hc hp h)
  case exitReap => exact .inl (exitReap_moves hc hp)
  case exitClose => exact .inl (exitClose_moves hc hp)
  case wait => exact .inl (wait_moves hc hp)
  case kill pid => exact .inl (kill_moves hc hp)
  case exec => exact .inr (.exec hc hp)
  case execKill t => exact .inr (.threadKill hc hp)
  case execNamei t =>
    left
    cases ok
    · exact moves_back hc (by rw [hp]; rfl) (by simp [hp])
    · exact Moves.refl.goto hc (hp ▸ .load t)
  case execLoad t =>
    left
    cases ok
    · exact Moves.refl.goto hc (hp ▸ .failed t)
    · exact (Move.commit hc hp).moves
  case execWake => exact .inl (execWake_moves hc hp)

/-- Every event is a chain of moves, or one of the sections the guards speak of. -/
theorem step_moves {e : Event ncpu} (h : k.step e = some k') : Moves k k' ∨ Special k e k' := by
  cases e with
  | dispatch c p =>
    obtain ⟨hc, hs, hd, rfl⟩ := step_dispatch h
    exact .inl (Move.dispatch hc hs hd).moves
  | yield c =>
    obtain ⟨p, hc, rfl⟩ := step_yield h
    exact .inl (Move.yield hc).moves
  | sleep c n =>
    obtain ⟨p, hc, hb, rfl⟩ := step_sleep h
    exact .inl (Move.sleep hc fun t ht => by simp [ht, Ctl.mayBlock] at hb).moves
  | syscall c call =>
    obtain ⟨p, hc, hu, rfl⟩ := step_syscall h
    rw [syscall]
    split
    · exact .inl (Moves.refl.goto hc (hu ▸ .trap))
    · rename_i hk
      have hk : (k.proc p).killed = false := by simpa using hk
      rcases eq_or_ne call .exec with rfl | hx
      · exact .inr (.enterExec hc hu hk)
      · exact .inl (Moves.refl.goto hc (hu ▸ .enter call hx hk))
  | fault c =>
    obtain ⟨p, hc, hu, rfl⟩ := step_fault h
    have hq : Quiet k (k.modify p fun x => { x with killed := true }) :=
      quiet_kill k p rfl (.inl rfl)
    exact .inl ((Move.quiet hq).moves.goto hc (show Next _ p (k.ctl p) _ from hu ▸ .trap))
  | advance c ok =>
    obtain ⟨p, hc, h⟩ := step_advance h
    exact advance_moves hc h
  | wakeup n =>
    cases h
    exact .inl (moves_wakeup1 _)

/-- An invariant of the moves and of the sections the guards speak of, where they meet
    the guard, is an invariant of the events that meet it. -/
theorem step_inv {Inv : Kernel ncpu → Prop} {e : Event ncpu}
    (hmove : ∀ k k', Inv k → Move k k' → Inv k') (hspec : Special k e k' → Inv k')
    (hk : Inv k) (h : k.step e = some k') : Inv k' := by
  rcases step_moves h with hm | hs
  · clear h hspec
    induction hm with
    | refl => exact hk
    | tail _ h ih => exact hmove _ _ ih h
  · exact hspec hs

/-! ### Guards -/

/-- The guard `P` of the section a kernel thread is about to go through. -/
def OnAdvance (P : Kernel ncpu → Slot → Prop) (k : Kernel ncpu) : Event ncpu → Prop
  | .advance c _ => ∀ p ∈ k.cpu c, P k p
  | _ => True

instance (P : Kernel ncpu → Slot → Prop) [∀ k p, Decidable (P k p)] (k : Kernel ncpu) :
    DecidablePred (OnAdvance P k)
  | .advance c _ => inferInstanceAs (Decidable (∀ p ∈ k.cpu c, P k p))
  | .dispatch _ _ | .yield _ | .sleep _ _ | .syscall _ _ | .fault _ | .wakeup _ => isTrue trivial

end Kernel
end Xv6
