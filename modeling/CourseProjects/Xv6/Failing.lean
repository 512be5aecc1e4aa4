import CourseProjects.Xv6.Kill

/-!
# A failed `exec`

`exec` makes a worker thread the main thread of its process, and stops and marks the other
threads, before it looks for the program. When there is none it returns at once; when the
program cannot be loaded it wakes the others again, marked as they are, and may wait for one
of them. The call is told here as if no other process ran meanwhile (`execCall_run`).

* `execCall_clean_iff`: a call that returns `-1` leaves the caller and the other threads as they
  were exactly if the caller is a main thread, and the others are already as it leaves them.
-/

namespace Xv6

/-- The kernel, and the size of each address space, `sz`. -/
structure Sized (ncpu : ℕ) where
  kernel : Kernel ncpu
  sz : Slot → ℕ

/-- How `exec` ends: there is no program, the program is bad (it cannot be read or loaded, or
    its arguments do not fit), or it is committed to, with a size. -/
inductive ExecExit
  | notFound
  | bad
  | commit (sz : ℕ)
  deriving DecidableEq

namespace Kernel

variable {ncpu : ℕ} (k : Kernel ncpu) (p : Slot)

/-- `prev_tid`. -/
def prevTid : ℤ := if (k.proc p).master = none then 0 else (k.proc p).tid

/-- `exec` up to the lookup of the program. -/
def execFreeze : Kernel ncpu := ((k.exec p).threadKill p).goto p (.execNamei (k.prevTid p))

/-- The end of `exec`, with one round of `wait` if it waits. -/
def execFinish (c : Fin ncpu) : Kernel ncpu :=
  if (k.execWake p).ctl p = .wait then (k.execWake p).wait c p else k.execWake p

end Kernel

namespace Sized

variable {ncpu : ℕ} (s : Sized ncpu) (c : Fin ncpu) (p : Slot)

/-- `exec`, by the process of a processor: what it returns, and what it leaves when it returns or
    goes to sleep in `wait`. -/
def execCall : ExecExit → ℤ × Sized ncpu
  | .notFound =>
    (-1, { s with kernel := (s.kernel.execFreeze p).execNamei p (s.kernel.prevTid p) false })
  | .bad =>
    (-1, { s with kernel :=
      (((s.kernel.execFreeze p).execNamei p (s.kernel.prevTid p) true).execLoad p
        (s.kernel.prevTid p) false).execFinish p c })
  | .commit sz =>
    (0,
      { kernel := (((s.kernel.execFreeze p).execNamei p (s.kernel.prevTid p) true).execLoad p
          (s.kernel.prevTid p) true).execFinish p c
        sz := Function.update s.sz p sz })

/-- The caller is what it was, and the other threads are where they were. -/
structure Unchanged (s' : Sized ncpu) : Prop where
  parent : (s'.kernel.proc p).parent = (s.kernel.proc p).parent
  master : (s'.kernel.proc p).master = (s.kernel.proc p).master
  tid : (s'.kernel.proc p).tid = (s.kernel.proc p).tid
  pgdir : (s'.kernel.proc p).pgdir = (s.kernel.proc p).pgdir
  sz : s'.sz p = s.sz p
  state : ∀ q, q ≠ p → (s'.kernel.proc q).state = (s.kernel.proc q).state
  chan : ∀ q, q ≠ p → (s'.kernel.proc q).chan = (s.kernel.proc q).chan
  killed : ∀ q, q ≠ p → (s'.kernel.proc q).killed = (s.kernel.proc q).killed

/-- A call that returns `-1` does so at once, and has changed nothing. -/
def Clean (e : ExecExit) : Prop :=
  (s.execCall c p e).1 = -1 →
    (s.execCall c p e).2.kernel.ctl p = .user ∧ s.Unchanged p (s.execCall c p e).2

/-- Another slot with the pid of the caller. -/
def Sibling (q : Slot) : Prop := q ≠ p ∧ (s.kernel.proc p).pid = (s.kernel.proc q).pid

instance : DecidablePred (s.Sibling p) := fun _ => inferInstanceAs (Decidable (_ ∧ _))

/-- The caller is a main thread, and its siblings are as the exit leaves them: stopped and
    marked, or else woken and marked, without a parent; or, when the caller is marked itself, not
    asleep when `exec` wakes them. -/
def Settled : ExecExit → Prop
  | .notFound => (s.kernel.proc p).master = none ∧ ((s.kernel.proc p).killed = true ∨
      ∀ q, s.Sibling p q → (s.kernel.proc q).state = .sleeping ∧
        (s.kernel.proc q).killed = true ∧ (s.kernel.proc q).chan = none)
  | .bad => (s.kernel.proc p).master = none ∧ ∀ q, s.Sibling p q →
      if (s.kernel.proc p).killed then (s.kernel.proc q).state ≠ .sleeping
      else (s.kernel.proc q).state = .runnable ∧ (s.kernel.proc q).killed = true ∧
        (s.kernel.proc q).chan = none ∧ (s.kernel.proc q).parent = none
  | .commit _ => True

end Sized

/-! ### What the sections write -/

namespace Kernel

variable {ncpu : ℕ} {k : Kernel ncpu} {p q : Slot} {c : Fin ncpu}

theorem exec_proc_of_ne (h : q ≠ p) : (k.exec p).proc q = k.proc q := by
  rw [exec]
  split
  · rfl
  · simp [modify_proc, h]

theorem exec_proc_of_none (h : (k.proc p).master = none) (q : Slot) :
    (k.exec p).proc q = k.proc q := by
  rw [exec, h]
  rfl

/-- The caller is a main thread from then on, and is marked or not as before. -/
theorem exec_proc_self : ((k.exec p).proc p).master = none ∧
    ((k.exec p).proc p).killed = (k.proc p).killed ∧ ((k.exec p).proc p).pid = (k.proc p).pid := by
  rw [exec]
  split
  · next h => exact ⟨h, rfl, rfl⟩
  · simp [modify_proc]

theorem execFreeze_proc_self : (k.execFreeze p).proc p = (k.exec p).proc p := by
  simp [execFreeze, threadKill_proc]

/-- The others are stopped and marked, unless the caller is marked. -/
theorem execFreeze_proc_of_ne (h : q ≠ p) : (k.execFreeze p).proc q =
    if (k.proc p).killed = false ∧ (k.proc p).pid = (k.proc q).pid then
      { k.proc q with state := .sleeping, killed := true, chan := none }
    else k.proc q := by
  obtain ⟨-, hkilled, hpid⟩ := exec_proc_self (k := k) (p := p)
  simp only [execFreeze, goto_proc, threadKill_proc, hkilled, hpid, exec_proc_of_ne h, ne_eq, h,
    not_false_eq_true, true_and]

/-- The end of `exec`: the sleeping siblings are woken, and when one of them has a parent, the
    caller becomes its parent and waits. -/
theorem execFinish_cases (k : Kernel ncpu) (p : Slot) (c : Fin ncpu) :
    (∀ q, k.wakes p q → (k.proc q).parent = none) ∧
      k.execFinish p c = (k.threadWakeup p).goto p .user ∨
    (∃ q, k.wakes p q ∧ (k.proc q).parent ≠ none) ∧
      k.execFinish p c = ((k.threadWakeup p).goto p .wait).wait c p := by
  by_cases h : ∃ q, k.wakes p q ∧ (k.proc q).parent ≠ none
  · refine .inr ⟨h, ?_⟩
    rw [execFinish, execWake, if_pos h, if_pos (by simp [goto_ctl])]
  · refine .inl ⟨fun q hq => not_not.1 fun hp => h ⟨q, hq, hp⟩, ?_⟩
    rw [execFinish, execWake, if_neg h, if_neg (by simp [goto_ctl])]

end Kernel

/-! ### A failed call -/

namespace Sized

variable {ncpu : ℕ} {s : Sized ncpu} {c : Fin ncpu} {p q : Slot}

open Kernel

/-- `exec` ends without an own master, whatever comes of it. -/
theorem master_execFinish (k : Kernel ncpu) (h : (k.proc p).master = none) :
    ((k.execFinish p c).proc p).master = none := by
  have hwake : ((k.threadWakeup p).proc p).master = none := by
    rw [threadWakeup_proc]
    split
    · exact h
    · exact h
  rcases execFinish_cases k p c with ⟨-, he⟩ | ⟨-, he⟩
  · rw [he]
    exact hwake
  · rw [he]
    rcases wait_cases ((k.threadWakeup p).goto p .wait) c p with
      ⟨z, -, -, hw⟩ | ⟨-, hw⟩ | hw
    · rw [hw, goto_proc, reapChild, modify_proc]
      split
      · next hz =>
        rw [← hz, goto_proc]
        exact hwake
      · rw [goto_proc]
        exact hwake
    · rw [hw, goto_proc, goto_proc]
      exact hwake
    · rw [hw, Kernel.sleep, sched_proc, modify_proc, if_pos rfl, goto_proc]
      exact hwake

/-- After a failed call the caller has no master. -/
theorem master_execCall (e : ExecExit) :
    ((s.execCall c p e).2.kernel.proc p).master = none := by
  have hmaster : ((s.kernel.execFreeze p).proc p).master = none := by
    rw [execFreeze_proc_self]
    exact exec_proc_self.1
  unfold execCall
  cases e with
  | notFound => simpa [execNamei] using hmaster
  | bad =>
    dsimp only
    refine master_execFinish _ ?_
    simpa [execLoad, execNamei] using hmaster
  | commit sz =>
    dsimp only
    refine master_execFinish _ ?_
    simpa [execLoad, execNamei, modify_proc] using hmaster

/-- What is stopped and marked, when there is no program. -/
theorem clean_notFound_iff (hm : (s.kernel.proc p).master = none) :
    s.Clean c p .notFound ↔ (s.kernel.proc p).killed = true ∨
      ∀ q, s.Sibling p q → (s.kernel.proc q).state = .sleeping ∧
        (s.kernel.proc q).killed = true ∧ (s.kernel.proc q).chan = none := by
  have hproc : ∀ q, (s.execCall c p .notFound).2.kernel.proc q = (s.kernel.execFreeze p).proc q :=
    fun q => rfl
  have hself : (s.execCall c p .notFound).2.kernel.proc p = s.kernel.proc p := by
    rw [hproc, execFreeze_proc_self, exec_proc_of_none hm]
  constructor
  · intro h
    obtain ⟨-, h⟩ := h rfl
    refine Classical.or_iff_not_imp_left.2 fun hkilled q hq => ?_
    have hk : (s.kernel.proc p).killed = false := by simpa using hkilled
    have hstate := h.state q hq.1
    have hchan := h.chan q hq.1
    have hmark := h.killed q hq.1
    rw [hproc, execFreeze_proc_of_ne hq.1, if_pos ⟨hk, hq.2⟩] at hstate hchan hmark
    exact ⟨hstate.symm, hmark.symm, hchan.symm⟩
  · intro h _
    have hother : ∀ q, q ≠ p →
        ((s.execCall c p .notFound).2.kernel.proc q).state = (s.kernel.proc q).state ∧
        ((s.execCall c p .notFound).2.kernel.proc q).chan = (s.kernel.proc q).chan ∧
        ((s.execCall c p .notFound).2.kernel.proc q).killed = (s.kernel.proc q).killed := by
      intro q hq
      rw [hproc, execFreeze_proc_of_ne hq]
      split
      · next hc =>
        rcases h with h | h
        · simp [h] at hc
        · obtain ⟨hs, hk, hchan⟩ := h q ⟨hq, hc.2⟩
          exact ⟨hs.symm, hchan.symm, hk.symm⟩
      · exact ⟨rfl, rfl, rfl⟩
    refine ⟨?_, by rw [hself], by rw [hself], by rw [hself], by rw [hself], rfl,
      fun q hq => (hother q hq).1, fun q hq => (hother q hq).2.1, fun q hq => (hother q hq).2.2⟩
    simp [execCall, execNamei, goto_ctl]

/-- The siblings that are woken are those that were stopped, or that slept. -/
theorem wakes_iff {k : Kernel ncpu} (hm : (s.kernel.proc p).master = none)
    (hk : ∀ q, k.proc q = (s.kernel.execFreeze p).proc q) : k.wakes p q ↔
      s.Sibling p q ∧ ((s.kernel.proc p).killed = true → (s.kernel.proc q).state = .sleeping) := by
  unfold wakes Sibling
  rw [decide_eq_true_eq, hk, hk, execFreeze_proc_self, exec_proc_of_none hm]
  by_cases hq : q = p
  · simp [hq]
  · rw [execFreeze_proc_of_ne hq]
    cases hkilled : (s.kernel.proc p).killed
    · by_cases hpid : (s.kernel.proc p).pid = (s.kernel.proc q).pid
      · simp [hq, hpid]
      · simp [hq, hpid, Ne.symm hpid]
    · simp [hq]
      grind

/-- A sibling that is woken has been marked, unless the caller is marked. -/
theorem threadWakeup_of_wakes {k : Kernel ncpu}
    (hk : ∀ q, k.proc q = (s.kernel.execFreeze p).proc q) (hw : k.wakes p q) :
    ((k.threadWakeup p).proc q).parent =
        (if (k.proc q).parent = none then none else some p) ∧
      ((k.threadWakeup p).proc q).state = .runnable ∧
      (k.proc q).parent = (s.kernel.proc q).parent ∧
      (s.Sibling p q → (s.kernel.proc p).killed = false →
        ((k.threadWakeup p).proc q).killed = true ∧
          ((k.threadWakeup p).proc q).chan = none) := by
  have hparent : (k.proc q).parent = (s.kernel.proc q).parent := by
    obtain ⟨-, -, hq⟩ := of_decide_eq_true hw
    rw [hk, execFreeze_proc_of_ne hq]
    split
    · rfl
    · rfl
  rw [threadWakeup_proc, if_pos hw]
  refine ⟨rfl, rfl, hparent, fun hsib hkilled => ?_⟩
  simp [hk, execFreeze_proc_of_ne hsib.1, hkilled, hsib.2]

/-- A slot that is not woken is as before the call. -/
theorem threadWakeup_of_not_wakes {k : Kernel ncpu} (hm : (s.kernel.proc p).master = none)
    (hk : ∀ q, k.proc q = (s.kernel.execFreeze p).proc q) (hw : ¬ k.wakes p q) :
    (k.threadWakeup p).proc q = s.kernel.proc q := by
  rw [threadWakeup_proc, if_neg hw, hk]
  by_cases hq : q = p
  · rw [hq, execFreeze_proc_self, exec_proc_of_none hm]
  · rw [execFreeze_proc_of_ne hq]
    refine if_neg fun h => hw ((wakes_iff hm hk).2 ⟨⟨hq, h.2⟩, fun hkilled => ?_⟩)
    rw [h.1] at hkilled
    cases hkilled

/-- A call that returns at once, with nothing changed, woke nobody with a parent. -/
theorem execFinish_of_unchanged {k : Kernel ncpu} (hm : (s.kernel.proc p).master = none)
    (hk : ∀ q, k.proc q = (s.kernel.execFreeze p).proc q)
    (huser : (k.execFinish p c).ctl p = .user)
    (h : s.Unchanged p { s with kernel := k.execFinish p c }) :
    (∀ q, k.wakes p q → (k.proc q).parent = none) ∧
      k.execFinish p c = (k.threadWakeup p).goto p .user := by
  rcases execFinish_cases k p c with hnone | ⟨⟨r, hr, hparent⟩, he⟩
  · exact hnone
  · exfalso
    have hstate := h.state
    have hcaller := h.parent
    dsimp only at hstate hcaller
    rw [he] at huser hcaller
    simp only [he] at hstate
    rcases wait_cases ((k.threadWakeup p).goto p .wait) c p with
      ⟨z, hz, hzombie, hw⟩ | ⟨hno, hw⟩ | hw
    · -- A dead child is cleared, which was dead before the call.
      rw [goto_proc] at hz hzombie
      have hsame : (k.threadWakeup p).proc z = s.kernel.proc z := by
        refine threadWakeup_of_not_wakes hm hk fun hwz => ?_
        rw [(threadWakeup_of_wakes hk hwz).2.1] at hzombie
        cases hzombie
      rw [hsame] at hz hzombie
      by_cases hzp : z = p
      · rw [hw, hzp] at hcaller
        rw [hzp] at hz
        simp [reapChild, modify_proc, hz] at hcaller
      · have := hstate z hzp
        rw [hw] at this
        simp [reapChild, modify_proc, hzombie] at this
    · rcases hno with hno | hkilled
      · refine hno r ?_
        rw [goto_proc, (threadWakeup_of_wakes hk hr).1, if_neg hparent]
      · -- The caller is marked, so who was woken had slept.
        obtain ⟨hsib, hslept⟩ := (wakes_iff hm hk).1 hr
        have hself : (k.threadWakeup p).proc p = s.kernel.proc p :=
          threadWakeup_of_not_wakes hm hk fun h => ((wakes_iff hm hk).1 h).1.1 rfl
        rw [goto_proc, hself] at hkilled
        have := hstate r hsib.1
        rw [hw, goto_proc, goto_proc, (threadWakeup_of_wakes hk hr).2.1, hslept hkilled] at this
        cases this
    · rw [hw] at huser
      simp [Kernel.sleep, goto_ctl] at huser

/-- The end of a call that could not load its program. -/
theorem clean_bad_iff (hm : (s.kernel.proc p).master = none) :
    s.Clean c p .bad ↔ ∀ q, s.Sibling p q →
      if (s.kernel.proc p).killed then (s.kernel.proc q).state ≠ .sleeping
      else (s.kernel.proc q).state = .runnable ∧ (s.kernel.proc q).killed = true ∧
        (s.kernel.proc q).chan = none ∧ (s.kernel.proc q).parent = none := by
  obtain ⟨k, hk, hcall⟩ : ∃ k : Kernel ncpu,
      (∀ q, k.proc q = (s.kernel.execFreeze p).proc q) ∧
        s.execCall c p .bad = (-1, { s with kernel := k.execFinish p c }) := by
    refine ⟨_, fun q => ?_, by rw [execCall]⟩
    simp [execLoad, execNamei]
  rw [Clean, hcall]
  dsimp only
  constructor
  · intro h q hq
    obtain ⟨huser, h⟩ := h rfl
    obtain ⟨hnone, he⟩ := execFinish_of_unchanged hm hk huser h
    have hstate := h.state q hq.1
    have hkilled := h.killed q hq.1
    have hchan := h.chan q hq.1
    dsimp only at hstate hkilled hchan
    rw [he, goto_proc] at hstate hkilled hchan
    split
    · next hmarked =>
      intro hslept
      have hw : k.wakes p q := (wakes_iff hm hk).2 ⟨hq, fun _ => hslept⟩
      rw [(threadWakeup_of_wakes hk hw).2.1, hslept] at hstate
      cases hstate
    · next hmarked =>
      have hf : (s.kernel.proc p).killed = false := by simpa using hmarked
      have hw : k.wakes p q := (wakes_iff hm hk).2 ⟨hq, fun h => absurd h hmarked⟩
      obtain ⟨-, hrun, hparent, hmark⟩ := threadWakeup_of_wakes hk hw
      obtain ⟨hmark, hzero⟩ := hmark hq hf
      exact ⟨hstate.symm.trans hrun, hkilled.symm.trans hmark, hchan.symm.trans hzero,
        hparent.symm.trans (hnone q hw)⟩
  · intro h _
    -- Whoever is woken is as before, and has no parent.
    have hwoken : ∀ q, k.wakes p q → (s.kernel.proc p).killed = false ∧ s.Sibling p q ∧
        (s.kernel.proc q).state = .runnable ∧ (s.kernel.proc q).killed = true ∧
        (s.kernel.proc q).chan = none ∧ (s.kernel.proc q).parent = none := by
      intro q hw
      obtain ⟨hq, hslept⟩ := (wakes_iff hm hk).1 hw
      have hset := h q hq
      split at hset
      · next hmarked => exact absurd (hslept hmarked) hset
      · next hmarked => exact ⟨by simpa using hmarked, hq, hset⟩
    have he : k.execFinish p c = (k.threadWakeup p).goto p .user := by
      rcases execFinish_cases k p c with ⟨-, he⟩ | ⟨⟨r, hr, hparent⟩, -⟩
      · exact he
      · rw [(threadWakeup_of_wakes hk hr).2.2.1] at hparent
        exact absurd (hwoken r hr).2.2.2.2.2 hparent
    have hself : (k.threadWakeup p).proc p = s.kernel.proc p :=
      threadWakeup_of_not_wakes hm hk fun h => ((wakes_iff hm hk).1 h).1.1 rfl
    have hother : ∀ q, ((k.threadWakeup p).proc q).state = (s.kernel.proc q).state ∧
        ((k.threadWakeup p).proc q).chan = (s.kernel.proc q).chan ∧
        ((k.threadWakeup p).proc q).killed = (s.kernel.proc q).killed := by
      intro q
      by_cases hw : k.wakes p q
      · obtain ⟨hf, hq, hrun, hmark, hzero, -⟩ := hwoken q hw
        obtain ⟨-, hrun', -, hmark'⟩ := threadWakeup_of_wakes hk hw
        obtain ⟨hmark', hzero'⟩ := hmark' hq hf
        exact ⟨hrun'.trans hrun.symm, hzero'.trans hzero.symm, hmark'.trans hmark.symm⟩
      · rw [threadWakeup_of_not_wakes hm hk hw]
        exact ⟨rfl, rfl, rfl⟩
    rw [he]
    refine ⟨by rw [goto_ctl, if_pos rfl], ?_⟩
    constructor
    · simp only [goto_proc, hself]
    · simp only [goto_proc, hself]
    · simp only [goto_proc, hself]
    · simp only [goto_proc, hself]
    · rfl
    · exact fun q _ => (hother q).1
    · exact fun q _ => (hother q).2.1
    · exact fun q _ => (hother q).2.2

/-- A failed call returns with nothing changed exactly if the caller is a main thread, and its
    siblings are already as the exit leaves them. -/
theorem execCall_clean_iff (s : Sized ncpu) (c : Fin ncpu) (p : Slot) (e : ExecExit) :
    s.Clean c p e ↔ s.Settled p e := by
  have hmaster : ∀ e, (s.execCall c p e).1 = -1 → s.Clean c p e →
      (s.kernel.proc p).master = none := fun e he h =>
    (h he).2.master.symm.trans (master_execCall e)
  cases e with
  | notFound =>
    constructor
    · intro h
      have hm := hmaster .notFound rfl h
      exact ⟨hm, (clean_notFound_iff hm).1 h⟩
    · exact fun h => (clean_notFound_iff h.1).2 h.2
  | bad =>
    constructor
    · intro h
      have hm := hmaster .bad rfl h
      exact ⟨hm, (clean_bad_iff hm).1 h⟩
    · exact fun h => (clean_bad_iff h.1).2 h.2
  | commit sz => exact iff_of_true (fun h => by cases h) trivial

/-! ### The call as a run -/

end Sized

namespace ExecExit

/-- The steps of a call on a processor, before `wait`. -/
def steps {ncpu : ℕ} (c : Fin ncpu) : ExecExit → List (Event ncpu)
  | notFound => [.advance c true, .advance c true, .advance c false]
  | bad => [.advance c true, .advance c true, .advance c true, .advance c false, .advance c true]
  | commit _ =>
    [.advance c true, .advance c true, .advance c true, .advance c true, .advance c true]

end ExecExit

namespace Kernel

variable {ncpu : ℕ} {k : Kernel ncpu} {p : Slot} {c : Fin ncpu}

theorem step_eq_advance (hc : k.cpu c = some p) (ok : Bool) :
    k.step (.advance c ok) = k.advance c p ok := by
  rw [step, hc, Option.bind_some]

/-- The two steps up to the lookup of the program. -/
theorem run_execFreeze (hc : k.cpu c = some p) (hx : k.ctl p = .exec) (es : List (Event ncpu)) :
    Trace.run step k (.advance c true :: .advance c true :: es) =
      Trace.run step (k.execFreeze p) es := by
  have hc₁ : (k.exec p).cpu c = some p := by
    rw [exec]
    split
    · exact hc
    · exact hc
  have hx₁ : (k.exec p).ctl p = .execKill (k.prevTid p) := by
    rw [exec, prevTid]
    cases (k.proc p).master with
    | none => rw [goto_ctl, if_pos rfl, if_pos rfl]
    | some m => rw [goto_ctl, if_pos rfl, if_neg (by simp)]
  rw [Trace.run_cons, step_eq_advance hc, advance, hx, Option.bind_some, Trace.run_cons,
    step_eq_advance hc₁, advance, hx₁, Option.bind_some]
  rfl

theorem execFreeze_cpu : (k.execFreeze p).cpu c = k.cpu c := by
  rw [execFreeze, goto_cpu, threadKill_cpu, exec]
  split
  · rfl
  · rfl

/-- The steps from the loading of the program on. -/
theorem run_execFinish {t : ℤ} (ok : Bool) (hc : k.cpu c = some p) (hx : k.ctl p = .execLoad t) :
    ∃ es, (es = [] ∨ es = [.advance c true]) ∧
      Trace.run step k (.advance c ok :: .advance c true :: es) =
        some ((k.execLoad p t ok).execFinish p c) := by
  have hc₁ : (k.execLoad p t ok).cpu c = some p := by
    rw [execLoad]
    split
    · exact hc
    · exact hc
  have hx₁ : (k.execLoad p t ok).ctl p = .execWake := by
    rw [execLoad]
    split
    · simp [goto_ctl]
    · simp [goto_ctl]
  have hrun : ∀ es, Trace.run step k (.advance c ok :: .advance c true :: es) =
      Trace.run step ((k.execLoad p t ok).execWake p) es := by
    intro es
    rw [Trace.run_cons, step_eq_advance hc, advance, hx, Option.bind_some, Trace.run_cons,
      step_eq_advance hc₁, advance, hx₁, Option.bind_some]
  generalize k.execLoad p t ok = k₁ at hc₁ hrun
  by_cases hw : (k₁.execWake p).ctl p = .wait
  · have hc₂ : (k₁.execWake p).cpu c = some p := by
      rw [execWake]
      split
      · exact hc₁
      · exact hc₁
    refine ⟨[.advance c true], .inr rfl, ?_⟩
    rw [hrun, Trace.run_cons, step_eq_advance hc₂, advance, hw, Option.bind_some, execFinish,
      if_pos hw]
    rfl
  · refine ⟨[], .inl rfl, ?_⟩
    rw [hrun, execFinish, if_neg hw]
    rfl

end Kernel

namespace Sized

variable {ncpu : ℕ} {s : Sized ncpu} {c : Fin ncpu} {p : Slot}

/-- The call is a run of the system in which nobody else takes a step, with a last step when the
    caller waits. -/
theorem execCall_run (hc : s.kernel.cpu c = some p) (hx : s.kernel.ctl p = .exec) (e : ExecExit) :
    ∃ es, (es = [] ∨ es = [.advance c true]) ∧
      Trace.run Kernel.step s.kernel (e.steps c ++ es) = some (s.execCall c p e).2.kernel := by
  have hc₁ : (s.kernel.execFreeze p).cpu c = some p := Kernel.execFreeze_cpu.trans hc
  have hx₁ : (s.kernel.execFreeze p).ctl p = .execNamei (s.kernel.prevTid p) := by
    rw [Kernel.execFreeze, Kernel.goto_ctl, if_pos rfl]
  have hnamei : ∀ ok es, Trace.run Kernel.step (s.kernel.execFreeze p) (.advance c ok :: es) =
      Trace.run Kernel.step
        ((s.kernel.execFreeze p).execNamei p (s.kernel.prevTid p) ok) es := by
    intro ok es
    rw [Trace.run_cons, Kernel.step_eq_advance hc₁, Kernel.advance, hx₁, Option.bind_some]
  have hc₂ : ((s.kernel.execFreeze p).execNamei p (s.kernel.prevTid p) true).cpu c = some p := by
    rw [Kernel.execNamei, if_pos rfl, Kernel.goto_cpu, hc₁]
  have hx₂ : ((s.kernel.execFreeze p).execNamei p (s.kernel.prevTid p) true).ctl p =
      .execLoad (s.kernel.prevTid p) := by
    rw [Kernel.execNamei, if_pos rfl, Kernel.goto_ctl, if_pos rfl]
  cases e with
  | notFound =>
    refine ⟨[], .inl rfl, ?_⟩
    rw [List.append_nil, ExecExit.steps, Kernel.run_execFreeze hc hx, hnamei, execCall]
    rfl
  | bad =>
    obtain ⟨es, hes, hrun⟩ := Kernel.run_execFinish false hc₂ hx₂
    refine ⟨es, hes, ?_⟩
    rw [ExecExit.steps, execCall, ← hrun]
    exact (Kernel.run_execFreeze hc hx _).trans (hnamei _ _)
  | commit sz =>
    obtain ⟨es, hes, hrun⟩ := Kernel.run_execFinish true hc₂ hx₂
    refine ⟨es, hes, ?_⟩
    rw [ExecExit.steps, execCall, ← hrun]
    exact (Kernel.run_execFreeze hc hx _).trans (hnamei _ _)

/-! ### A sibling that is marked -/

/-- A process with two threads calls `exec`, and there is no such program: the other thread is
    stopped and marked. -/
theorem exec_marks_sibling : ¬ ∀ (s : Sized 2) c p e, s.kernel.cpu c = some p →
    s.kernel.ctl p = .exec → s.Clean c p e := by
  intro h
  obtain ⟨k, -, hc, hx, hm, hmarked, hpid, hrun⟩ : ∃ k ∈ Trace.run Kernel.step (Kernel.boot 2)
      (Kernel.childWithThread ++ [.syscall 1 .exec]), k.cpu 1 = some 1 ∧ k.ctl 1 = .exec ∧
        (k.proc 1).master = none ∧ (k.proc 1).killed = false ∧ (k.proc 1).pid = (k.proc 2).pid ∧
        (k.proc 2).state = .runnable := by
    decide +kernel
  have hclean := (clean_notFound_iff (s := ⟨k, fun _ => 0⟩) hm).1 (h _ 1 1 _ hc hx)
  rcases hclean with hkilled | hstopped
  · cases hkilled.symm.trans hmarked
  · have hstate := (hstopped 2 ⟨by decide, hpid⟩).1
    cases hstate.symm.trans hrun

end Sized
end Xv6
