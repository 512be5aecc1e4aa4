import CourseProjects.Xv6.Kin

/-!
# Joining threads

`thread_join` scans the table for a dead slot with the id it is called with, and
sleeps on the caller's own slot when there is none.

* `no_lost_join`: without `exec`, a master inside `thread_join` is not asleep
  while the thread it waits for is dead.
* `join_ownership`: where each round of `thread_join` is about a thread of the
  caller (`JoinsOwn`), it reaps a thread of the caller and returns the value that
  thread passed to `thread_exit`, and each worker is reaped once, by its master.
-/

namespace Xv6

/-- The id a kernel thread is joining. -/
def Ctl.joining : Ctl → Option ℤ
  | .joinScan t => some t
  | _ => none

namespace Kernel

variable {ncpu : ℕ} {k k' : Kernel ncpu}

/-! ### No lost wakeup -/

/-- A master asleep in `thread_join` sleeps on its own slot, and the thread it waits for is
    not dead. -/
structure Waits (k : Kernel ncpu) : Prop where
  execless : Execless k
  asleep : ∀ m t, k.ctl m = .joinScan t → (k.proc m).state = .sleeping →
    (k.proc m).chan = some (.proc m) ∧
      ∀ z, (k.proc z).master = some m → (k.proc z).tid = t → (k.proc z).state ≠ .zombie

section

variable {c : Fin ncpu} {p : Slot}

/-- Where nobody dies and no sleeper starts to wait, the masters asleep wait on. -/
theorem Waits.stay (h : Waits k) (hx : Execless k')
    (hz : ∀ z, (k'.proc z).state = .zombie → (k.proc z).state = .zombie ∧
      (k'.proc z).master = (k.proc z).master ∧ (k'.proc z).tid = (k.proc z).tid)
    (hs : ∀ m t, k'.ctl m = .joinScan t → (k'.proc m).state = .sleeping →
      k.ctl m = .joinScan t ∧ (k.proc m).state = .sleeping ∧
        (k'.proc m).chan = (k.proc m).chan) : Waits k' := by
  have hw := h.asleep
  refine ⟨hx, fun m t hm hsl => ⟨?_, fun z hzm hzt hzz => ?_⟩⟩ <;> grind

/-- A thread dies, and its master is not asleep on its own slot. -/
theorem Waits.dies (h : Waits k) (hx : Execless k')
    (hm : ∀ m, (k.proc p).master = some m → (k'.proc m).state = .sleeping →
      (k'.proc m).chan ≠ some (.proc m))
    (hz : ∀ z, z ≠ p → (k'.proc z).state = .zombie → (k.proc z).state = .zombie)
    (hs : ∀ m, (k'.proc m).state = .sleeping → (k.proc m).state = .sleeping)
    (hkeep : ∀ z, (k'.proc z).master = (k.proc z).master ∧ (k'.proc z).tid = (k.proc z).tid ∧
      (k'.proc z).chan = (k.proc z).chan)
    (hctl : ∀ q, k'.ctl q = if q = p then .dead else k.ctl q) : Waits k' := by
  have hw := h.asleep
  refine ⟨hx, fun m t hm' hsl => ⟨?_, fun z hzm hzt hzz => ?_⟩⟩ <;> grind

theorem Waits.move (h : Waits k) (hm : Move k k') : Waits k' := by
  have hx := h.execless.move hm
  have hrun := h.execless.kin.sound.running
  have hemb := h.execless.kin.sound.embryo
  cases hm with
  | quiet hq =>
    have := hq.state
    have := hq.ctl
    have := hq.master
    have := hq.tid
    have := hq.chan
    refine h.stay hx ?_ ?_ <;> grind
  | @die c p hc hp hpar htold =>
    have hw := h.execless.kin.worker p
    refine h.dies (p := p) hx ?_ ?_ ?_ ?_ ?_ <;> grind
  | goto | yield | reparent => refine h.stay hx ?_ ?_ <;> grind
  | dispatch => refine h.stay hx ?_ ?_ <;> grind [Kernel.dispatch]
  | sleep => refine h.stay hx ?_ ?_ <;> grind [Kernel.sleep]
  | forkEmbryo | createEmbryo => refine h.stay hx ?_ ?_ <;> grind [Kernel.embryo]
  | forkStack | createStack => refine h.stay hx ?_ ?_ <;> grind [Kernel.allocStack]
  | abandon => refine h.stay hx ?_ ?_ <;> grind [Kernel.abandon]
  | forkCopy => refine h.stay hx ?_ ?_ <;> grind [Kernel.forkCopy]
  | createInit => refine h.stay hx ?_ ?_ <;> grind [Kernel.createInit]
  | createSet => refine h.stay hx ?_ ?_ <;> grind [Kernel.createSet]
  | ready => refine h.stay hx ?_ ?_ <;> grind [Kernel.ready]
  | reapThread => refine h.stay hx ?_ ?_ <;> grind
  | reapChild => refine h.stay hx ?_ ?_ <;> grind [Kernel.reapChild]
  | @commit _ p _ _ hp => simpa [hp, Ctl.inExec] using h.execless.ctl p
  | @threadWakeup _ p _ hp => simpa [hp, Ctl.inExec] using h.execless.ctl p

theorem Waits.threadExit {v : ℤ} (h : Waits k) (hx : Execless (k.threadExit c p v)) :
    Waits (k.threadExit c p v) := by
  refine h.dies (p := p) hx ?_ ?_ ?_ ?_ ?_ <;> grind [Kernel.threadExit]

/-- A round of `thread_join` sleeps when no slot with the id is dead. -/
theorem Waits.joinScan {t : ℤ} (h : Waits k) (hc : k.cpu c = some p) (hp : k.ctl p = .joinScan t)
    (hx : Execless (k.joinScan c p t).2) : Waits (k.joinScan c p t).2 := by
  have hrun := h.execless.kin.sound.running c p hc
  rcases joinScan_cases k c p t with ⟨z, -, hz, he⟩ | ⟨hno, ⟨-, he⟩ | ⟨-, he⟩⟩ <;> rw [he] at hx ⊢
  · refine h.stay hx ?_ ?_ <;> grind
  · refine h.stay hx ?_ ?_ <;> grind
  · have hw := h.asleep
    refine ⟨hx, fun m t' hm hsl => ⟨?_, fun z hzm hzt hzz => ?_⟩⟩ <;> grind [Kernel.sleep]

theorem Waits.step {e : Event ncpu} (h : Waits k) (hn : NoExec e) (he : k.step e = some k') :
    Waits k' := by
  have hx := h.execless.step hn he
  refine step_inv (fun _ _ => Waits.move) (fun hs => ?_) h he
  obtain ⟨c, ok, p, rfl, hc, ⟨v, -, rfl⟩ | ⟨t, hp, rfl⟩⟩ := h.execless.special hn hs
  · exact h.threadExit hx
  · exact h.joinScan hc hp hx

theorem waits_boot : Waits (boot ncpu) := by
  refine ⟨execless_boot, fun m t hm => ?_⟩
  rw [boot_ctl] at hm
  split at hm <;> cases hm

end

/-- In every run without `exec`, a master inside the loop of `thread_join(t)` whose thread `t`
    is dead is not asleep: it is ready to run, or runs, and scans the table. -/
theorem no_lost_join {es : List (Event ncpu)} (hg : Trace.Along Kernel.step (fun _ => NoExec)
      (boot ncpu) es)
    (hr : Trace.run Kernel.step (boot ncpu) es = some k) {m z : Slot} {t : ℤ}
    (hm : k.ctl m = .joinScan t) (hz : (k.proc z).master = some m) (ht : (k.proc z).tid = t)
    (hd : (k.proc z).state = .zombie) :
    (k.proc m).state = .runnable ∨ (k.proc m).state = .running := by
  have h : Waits k := Trace.run_inv (fun _ _ _ h hn he => h.step hn he) waits_boot hg hr
  have hact := h.execless.kin.sound.active m (by simp [hm]) (by simp [hm])
  have hs : (k.proc m).state ≠ .sleeping := fun hs => (h.asleep m t hm hs).2 z hz ht hd
  cases hstate : (k.proc m).state <;> simp_all [ProcState.active]

/-- A master creates a thread and joins it; the thread exits. -/
def joinThenExit : List (Event 2) :=
  [.dispatch 0 0, .syscall 0 .threadCreate, .advance 0 true, .advance 0 true, .advance 0 true,
    .advance 0 true, .advance 0 true, .advance 0 true, .syscall 0 (.threadJoin 1), .advance 0 true,
    .advance 0 true, .dispatch 0 1, .syscall 0 (.threadExit 7), .advance 0 true]

theorem no_lost_join_joinThenExit :
    ∃ k, Trace.run Kernel.step (boot 2) joinThenExit = some k ∧ k.ctl 0 = .joinScan 1 ∧
      (k.proc 1).state = .zombie ∧
      ((k.proc 0).state = .runnable ∨ (k.proc 0).state = .running) := by
  have hk : (Trace.run Kernel.step (boot 2) joinThenExit).map (fun k =>
      (k.ctl 0, (k.proc 1).master, (k.proc 1).tid, (k.proc 1).state)) =
        some (.joinScan 1, some 0, 1, .zombie) := by decide +kernel
  obtain ⟨k, hr, h⟩ := Option.map_eq_some_iff.1 hk
  simp only [Prod.mk.injEq] at h
  obtain ⟨hm, hz, ht, hd⟩ := h
  exact ⟨k, hr, hm, hd, no_lost_join (by decide +kernel) hr hm hz ht hd⟩

/-! ### Whose thread is joined -/

/-- The slot is that of a thread of `m` with the id `t`. -/
def IsThread (k : Kernel ncpu) (m : Slot) (t : ℤ) (z : Slot) : Prop :=
  (k.proc z).state ≠ .unused ∧ (k.proc z).master = some m ∧ (k.proc z).tid = t

instance (k : Kernel ncpu) (m : Slot) (t : ℤ) : DecidablePred (IsThread k m t) :=
  fun _ => inferInstanceAs (Decidable (_ ∧ _ ∧ _))

/-- A round of `thread_join` that is about a thread of the caller which, if it is dead, passed
    a value to `thread_exit`; or the caller is killed and no dead slot has the id. -/
def OwnRound (k : Kernel ncpu) (p : Slot) (t : ℤ) : Prop :=
  (∃ z, IsThread k p t z ∧ ((k.proc z).state = .zombie → (k.past z).passed ≠ none)) ∨
    (k.proc p).killed = true ∧ ∀ z, (k.proc z).tid = t → (k.proc z).state ≠ .zombie

instance (k : Kernel ncpu) (p : Slot) (t : ℤ) : Decidable (OwnRound k p t) :=
  inferInstanceAs (Decidable (_ ∨ _))

/-- Each round of `thread_join` is about a thread of the caller. -/
def JoinsOwn : Kernel ncpu → Event ncpu → Prop :=
  OnAdvance fun k p => ∀ t ∈ (k.ctl p).joining, OwnRound k p t

instance (k : Kernel ncpu) : DecidablePred (JoinsOwn k) :=
  inferInstanceAs (DecidablePred (OnAdvance _ k))

/-- What a round of `thread_join(t)` by `p` must come to: it returns `0` with the value that a
    thread of the caller with the id passed to `thread_exit`; it returns `-1` and changes
    no slot; or it sleeps, for a thread of the caller with the id. -/
def Rightful (k : Kernel ncpu) (c : Fin ncpu) (p : Slot) (t : ℤ) : Joined → Prop
  | .reaped z v => (k.proc z).master = some p ∧ (k.proc z).tid = t ∧ (k.past z).passed = some v
  | .refused => (k.joinScan c p t).2.proc = k.proc
  | .waits => ∃ z, IsThread k p t z

/-- The values passed to `thread_exit` are kept until the threads are reaped, and each worker
    is reaped once, by its master. -/
structure Joins (k : Kernel ncpu) : Prop where
  kin : Kin k
  passed : ∀ z v, (k.past z).passed = some v → (k.proc z).tmpRetval = v
  gone : ∀ r ∈ k.reaped, r.tid < k.nexttid ∧
    ∀ z, (k.proc z).master ≠ none → (k.proc z).tid ≠ r.tid
  once : (k.reaped.map Reaped.tid).Nodup
  own : ∀ r ∈ k.reaped, r.reaper = r.master

section

variable {c : Fin ncpu} {p z : Slot} {t : ℤ}

/-- Where a round of `thread_join` is about a thread of the caller, and only there, it comes to
    what it must. -/
theorem Joins.rightful_iff (h : Joins k) :
    Rightful k c p t (k.joinScan c p t).1 ↔ OwnRound k p t := by
  have hworker := h.kin.worker
  rcases joinScan_cases k c p t with ⟨z, ht, hz, he⟩ | ⟨hno, ⟨hk, he⟩ | ⟨hk, he⟩⟩ <;>
    simp only [he, Rightful, OwnRound]
  · constructor
    · rintro ⟨hm, -, hv⟩
      exact .inl ⟨z, ⟨by simp [hz], hm, ht⟩, fun _ => by simp [hv]⟩
    · rintro (⟨y, ⟨hy, hm, hty⟩, hv⟩ | ⟨-, hno⟩)
      · -- The dead slot found has the id of a worker, so it is that worker.
        have hpos : 0 < (k.proc y).tid := (hworker y (by simp [hm])).2
        have hzm : (k.proc z).master ≠ none := fun hn => by
          have := h.kin.main z (by simp [hz]) (by simp [hz]) hn
          omega
        obtain rfl := h.kin.unique y z (by simp [hm]) hzm (hty.trans ht.symm)
        obtain ⟨v, hpv⟩ := Option.ne_none_iff_exists'.1 (hv hz)
        exact ⟨hm, ht, by rw [hpv, h.passed y v hpv]⟩
      · exact absurd hz (hno z ht)
  · exact iff_of_true rfl (.inr ⟨hk, hno⟩)
  · constructor
    · rintro ⟨z, hz⟩
      exact .inl ⟨z, hz, fun hd => absurd hd (hno z hz.2.2)⟩
    · rintro (⟨z, hz, -⟩ | ⟨hk', -⟩)
      · exact ⟨z, hz⟩
      · simp [hk] at hk'

/-- Where no thread is reaped and a worker keeps its id, or gets a new one, the records stay
    true. -/
theorem Joins.keep (h : Joins k) (hk : Kin k')
    (hp : ∀ z v, (k'.past z).passed = some v →
      (k.past z).passed = some v ∧ (k'.proc z).tmpRetval = (k.proc z).tmpRetval ∨
        (k'.proc z).tmpRetval = v)
    (hr : k'.reaped = k.reaped) (hn : k.nexttid ≤ k'.nexttid)
    (hm : ∀ z, (k'.proc z).master ≠ none →
      (k.proc z).master ≠ none ∧ (k'.proc z).tid = (k.proc z).tid ∨
        (k'.proc z).tid = k.nexttid) : Joins k' := by
  obtain ⟨-, hpassed, hgone, honce, hown⟩ := h
  refine ⟨hk, fun z v hv => ?_, fun r hmem => ?_, hr ▸ honce, hr ▸ hown⟩
  · rcases hp z v hv with ⟨hv, ht⟩ | ht
    · exact ht.trans (hpassed z v hv)
    · exact ht
  · obtain ⟨hlt, hne⟩ := hgone r (hr ▸ hmem)
    refine ⟨hlt.trans_le hn, fun z hz => ?_⟩
    rcases hm z hz with ⟨hz, ht⟩ | ht
    · rw [ht]
      exact hne z hz
    · omega

/-- A dead worker is reaped by its master. -/
theorem Joins.reapThread (h : Joins k) (hz : (k.proc z).state = .zombie)
    (hm : (k.proc z).master = some p) : Joins (k.reapThread p z) := by
  obtain ⟨hkin, hpassed, hgone, honce, hown⟩ := h
  have hreaped : (k.reapThread p z).reaped = ⟨(k.proc z).tid, p, p⟩ :: k.reaped := by
    rw [reapThread_toGlobals]
    simp [hm]
  have hnotin : (k.proc z).tid ∉ k.reaped.map Reaped.tid := by
    simp only [List.mem_map, not_exists, not_and]
    exact fun r hr ht => (hgone r hr).2 z (by simp [hm]) ht.symm
  refine ⟨hkin.reapThread hz, fun y v hv => ?_, fun r hr => ?_, ?_, ?_⟩
  · have := hpassed y v (by simpa using hv)
    grind
  · rw [hreaped, List.mem_cons] at hr
    rcases hr with rfl | hr
    · refine ⟨by simpa using hkin.used z, fun y hy ht => ?_⟩
      have := hkin.unique y z
      grind
    · obtain ⟨hlt, hne⟩ := hgone r hr
      refine ⟨by simpa using hlt, fun y hy => ?_⟩
      have := hne y
      grind
  · rw [hreaped, List.map_cons, List.nodup_cons]
    exact ⟨hnotin, honce⟩
  · rw [hreaped, List.forall_mem_cons]
    exact ⟨rfl, hown⟩

theorem Joins.move (h : Joins k) (hm : Move k k') : Joins k' := by
  have hk := h.kin.move hm
  have hpassed := h.passed
  cases hm with
  | quiet hq =>
    have := hq.past
    have := hq.tmpRetval
    have := hq.master
    have := hq.tid
    refine h.keep hk ?_ ?_ ?_ ?_ <;> grind [hq.globals]
  | reapThread hc hp hz hs => exact h.reapThread hs hz
  | goto | yield | reparent | die | threadWakeup => refine h.keep hk ?_ ?_ ?_ ?_ <;> grind
  | dispatch => refine h.keep hk ?_ ?_ ?_ ?_ <;> grind [Kernel.dispatch]
  | sleep => refine h.keep hk ?_ ?_ ?_ ?_ <;> grind [Kernel.sleep]
  | forkEmbryo | createEmbryo => refine h.keep hk ?_ ?_ ?_ ?_ <;> grind [Kernel.embryo]
  | forkStack | createStack => refine h.keep hk ?_ ?_ ?_ ?_ <;> grind [Kernel.allocStack]
  | abandon => refine h.keep hk ?_ ?_ ?_ ?_ <;> grind [Kernel.abandon]
  | forkCopy => refine h.keep hk ?_ ?_ ?_ ?_ <;> grind [Kernel.forkCopy]
  | createInit => refine h.keep hk ?_ ?_ ?_ ?_ <;> grind [Kernel.createInit]
  | createSet => refine h.keep hk ?_ ?_ ?_ ?_ <;> grind [Kernel.createSet]
  | ready => refine h.keep hk ?_ ?_ ?_ ?_ <;> grind [Kernel.ready]
  | reapChild => refine h.keep hk ?_ ?_ ?_ ?_ <;> grind [Kernel.reapChild]
  | commit => refine h.keep hk ?_ ?_ ?_ ?_ <;> grind [Kernel.execLoad]

theorem Joins.special {e : Event ncpu} (h : Joins k) (hq : SiblingsReady k e)
    (hj : JoinsOwn k e) (hs : Special k e k') : Joins k' := by
  have hk := h.kin.special hq hs
  have hpassed := h.passed
  cases hs with
  | enterExec => refine h.keep hk ?_ ?_ ?_ ?_ <;> grind
  | threadExit => refine h.keep hk ?_ ?_ ?_ ?_ <;> grind [Kernel.threadExit]
  | @joinScan c p t ok hc hp =>
    rcases joinScan_cases k c p t with ⟨z, -, hz, he⟩ | ⟨-, ⟨-, he⟩ | ⟨-, he⟩⟩
    · have hr : Rightful k c p t (k.joinScan c p t).1 :=
        h.rightful_iff.2 (hj p hc t (by rw [hp]; rfl))
      rw [he] at hk hr ⊢
      refine (h.reapThread hz hr.1).keep hk ?_ ?_ ?_ ?_ <;> grind
    · rw [he] at hk ⊢
      refine h.keep hk ?_ ?_ ?_ ?_ <;> grind
    · rw [he] at hk ⊢
      refine h.keep hk ?_ ?_ ?_ ?_ <;> grind [Kernel.sleep]
  | exec =>
    rw [Kernel.exec] at hk ⊢
    split at hk <;> refine h.keep hk ?_ ?_ ?_ ?_ <;> grind
  | threadKill => refine h.keep hk ?_ ?_ ?_ ?_ <;> grind

theorem Joins.step {e : Event ncpu} (h : Joins k) (hq : SiblingsReady k e) (hj : JoinsOwn k e)
    (he : k.step e = some k') : Joins k' :=
  step_inv (fun _ _ => Joins.move) (h.special hq hj) h he

theorem joins_boot : Joins (boot ncpu) := by
  refine ⟨kin_boot, ?_, ?_, ?_, ?_⟩ <;> grind

theorem joins_run {es : List (Event ncpu)}
    (hg : Trace.Along Kernel.step (fun k e => SiblingsReady k e ∧ JoinsOwn k e) (boot ncpu) es)
    (hr : Trace.run Kernel.step (boot ncpu) es = some k) : Joins k :=
  Trace.run_inv (fun _ _ _ h hq he => h.step hq.1 hq.2 he) joins_boot hg hr

/-- A dead worker is reaped by its master: by a `thread_join` with its id, or by `exit`. -/
theorem Joins.reaped_by_master (h : Joins k) {e : Event ncpu} {m : Slot} (hj : JoinsOwn k e)
    (he : k.step e = some k') (hm : (k.proc z).master = some m)
    (hz : (k.proc z).state = .zombie) (hu : (k'.proc z).state = .unused) :
    ∃ c ok, e = .advance c ok ∧ k.cpu c = some m ∧
      (k.ctl m = .joinScan (k.proc z).tid ∨ k.ctl m = .exitReap) := by
  obtain ⟨c, ok, p, rfl, hc, hp | ⟨hp, hpm⟩ | ⟨-, hpar⟩⟩ := step_reaps h.kin.sound he hz hu
  · obtain rfl : p = m := by
      rcases hj p hc _ (by rw [hp]; rfl) with ⟨y, ⟨-, hy, ht⟩, -⟩ | ⟨-, hno⟩
      · obtain rfl := h.kin.unique y z (by simp [hy]) (by simp [hm]) ht
        simpa [hy] using hm
      · exact absurd hz (hno z rfl)
    exact ⟨c, ok, rfl, hc, .inl hp⟩
  · obtain rfl : m = p := by simpa [hm] using hpm
    exact ⟨c, ok, rfl, hc, .inr hp⟩
  · -- A worker has no parent, and so `wait` never reaps it.
    have hnone := (h.kin.worker z (by simp [hm])).1
    simp [hnone] at hpar

end

/-- The first process creates a thread and forks; the thread exits, and the child joins it. -/
def foreignJoin : List (Event 2) :=
  [.dispatch 0 0, .syscall 0 .threadCreate, .advance 0 true, .advance 0 true, .advance 0 true,
    .advance 0 true, .advance 0 true, .advance 0 true,
    .syscall 0 .fork, .advance 0 true, .advance 0 true, .advance 0 true, .advance 0 true, .yield 0,
    .dispatch 0 1, .syscall 0 (.threadExit 7), .advance 0 true,
    .dispatch 0 2, .syscall 0 (.threadJoin 1), .advance 0 true]

end Kernel
end Xv6
