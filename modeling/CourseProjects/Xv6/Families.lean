import CourseProjects.Xv6.Crews

/-!
# The end of a process

Without `exec`, two processes have different page directories (`Family`).

* `process_outlives_threads`: in a run without `exec` in which a main thread calls
  `thread_exit` only when it has no threads, a dead process has no threads, and
  the page directory that `wait` frees is that of no other slot, unless one that was
  drawn and not yet given a page directory still carries it.
-/

namespace Xv6
namespace Kernel

variable {ncpu : ℕ} {k k' : Kernel ncpu}

/-- The main threads have page directories of their own. -/
structure Family (k : Kernel ncpu) : Prop where
  execless : Execless k
  crew : Crew k
  apart : ∀ q q', q ≠ q' → (k.proc q).state ≠ .unused → (k.proc q').state ≠ .unused →
    (k.proc q).master = none → (k.proc q').master = none →
    (∀ p, (k.ctl p).unset ≠ some q) → (∀ p, (k.ctl p).unset ≠ some q') →
    (k.proc q).pgdir ≠ (k.proc q').pgdir

section

variable {c : Fin ncpu} {p np : Slot}

/-- No slot is drawn or given a page directory. -/
theorem Family.stay (h : Family k) (hx : Execless k') (hc : Crew k')
    (hs : ∀ q, (k'.proc q).state ≠ .unused → (k.proc q).state ≠ .unused ∧
      (k'.proc q).master = (k.proc q).master)
    (hg : ∀ q, (k'.proc q).pgdir = (k.proc q).pgdir)
    (hun : ∀ q, (k'.ctl q).unset = (k.ctl q).unset) : Family k' := by
  obtain ⟨-, -, hap⟩ := h
  refine ⟨hx, hc, fun q q' hne hq hq' hm hm' hset hset' => ?_⟩
  have := hap q q' hne
  grind

variable (np) in
/-- A slot being built may change; it may be given a page directory nobody has. -/
theorem Family.build (h : Family k) (hx : Execless k') (hc : Crew k')
    (hother : ∀ q, q ≠ np → (k'.proc q).state = (k.proc q).state ∧
      (k'.proc q).master = (k.proc q).master ∧ (k'.proc q).pgdir = (k.proc q).pgdir)
    (hun : ∀ q, q ≠ np → ∀ p, (k.ctl p).unset = some q → (k'.ctl p).unset = some q)
    (hnp : (k'.proc np).state ≠ .unused → (k'.proc np).master = none →
      (∀ p, (k'.ctl p).unset ≠ some np) → (k'.proc np).pgdir = k.nextdir ∨
        (k'.proc np).pgdir = (k.proc np).pgdir ∧ (k.proc np).state ≠ .unused ∧
          (k.proc np).master = none ∧ ∀ p, (k.ctl p).unset ≠ some np) : Family k' := by
  obtain ⟨-, hcrew, hap⟩ := h
  have hfr := hcrew.fresh
  have hset : ∀ q, q ≠ np → (∀ p, (k'.ctl p).unset ≠ some q) → ∀ p, (k.ctl p).unset ≠ some q :=
    fun q hq hset p hp => hset p (hun q hq p hp)
  refine ⟨hx, hc, fun q q' hne hq hq' hm hm' hun hun' => ?_⟩
  have := hap q q' hne
  have := hset q
  have := hset q'
  have := hfr q
  have := hfr q'
  grind

theorem Family.move (h : Family k) (hm : Move k k') : Family k' := by
  have hx := h.execless.move hm
  have hcrew := h.crew.move hm
  have hrun := h.crew.kin.sound.running
  have hemb := h.crew.kin.sound.embryo
  have hact := h.crew.kin.sound.active
  have hbuild := h.crew.kin.sound.builder
  have hfits := h.crew.kin.fits
  have hraises := h.crew.raises
  cases hm with
  | quiet hq =>
    have := hq.state
    have := hq.ctl
    refine h.stay hx hcrew ?_ hq.pgdir ?_ <;> grind [hq.master]
  | @goto c p x hc hn =>
    have := hn.raises (hraises p)
    refine h.stay hx hcrew ?_ ?_ ?_ <;> grind
  | dispatch => refine h.stay hx hcrew ?_ ?_ ?_ <;> grind [Kernel.dispatch]
  | sleep => refine h.stay hx hcrew ?_ ?_ ?_ <;> grind [Kernel.sleep]
  | reapChild => refine h.stay hx hcrew ?_ ?_ ?_ <;> grind [Kernel.reapChild]
  | yield | reapThread | reparent | die => refine h.stay hx hcrew ?_ ?_ ?_ <;> grind
  | @forkEmbryo c p np hc hp hnp | @createEmbryo c p np hc hp hnp =>
    refine h.build np hx hcrew ?_ ?_ fun _ _ hset => absurd ?_ (hset p) <;>
      grind [Kernel.embryo]
  | @forkStack c p np hc hp | @createStack c p np m hc hp =>
    refine h.build np hx hcrew ?_ ?_ fun _ _ hset => absurd ?_ (hset p) <;>
      grind [Kernel.allocStack]
  | @abandon c p np m hc hp =>
    refine h.build np hx hcrew ?_ ?_ ?_ <;> grind [Kernel.abandon]
  | @forkCopy c p np hc hp =>
    refine h.build np hx hcrew ?_ ?_ ?_ <;> grind [Kernel.forkCopy]
  | @createInit c p np m hc hp =>
    refine h.build np hx hcrew ?_ ?_ ?_ <;> grind [Kernel.createInit]
  | @createSet c p np g hc hp =>
    refine h.build np hx hcrew ?_ ?_ ?_ <;> grind [Kernel.createSet]
  | @ready c p np hc hp =>
    refine h.build np hx hcrew ?_ ?_ ?_ <;> grind [Kernel.ready]
  | @commit _ p _ _ hp => simpa [hp, Ctl.inExec] using h.execless.ctl p
  | @threadWakeup _ p _ hp => simpa [hp, Ctl.inExec] using h.execless.ctl p

theorem execsAlone_of_noExec {e : Event ncpu} (hn : NoExec e) : ExecsAlone k e := by
  cases e with
  | syscall c call => cases call <;> first | exact absurd rfl hn | trivial
  | _ => trivial

theorem Family.step {e : Event ncpu} (h : Family k) (hn : NoExec e) (hl : ExitsLast k e)
    (he : k.step e = some k') : Family k' := by
  have hx := h.execless.step hn he
  have hcrew := h.crew.step h.execless.siblingsReady hl (execsAlone_of_noExec hn) he
  refine step_inv (fun _ _ => Family.move) (fun hs => ?_) h he
  obtain ⟨c, ok, p, rfl, hc, ⟨v, hp, rfl⟩ | ⟨t, hp, rfl⟩⟩ := h.execless.special hn hs
  all_goals have := h.crew.kin.sound.running c p hc
  · refine h.stay hx hcrew ?_ ?_ ?_ <;> grind [Kernel.threadExit]
  · rcases joinScan_cases k c p t with ⟨z, -, hz, he⟩ | ⟨-, ⟨-, he⟩ | ⟨-, he⟩⟩ <;>
      rw [he] at hx hcrew ⊢
    · refine h.stay hx hcrew ?_ ?_ ?_ <;> grind
    · refine h.stay hx hcrew ?_ ?_ ?_ <;> grind
    · refine h.stay hx hcrew ?_ ?_ ?_ <;> grind [Kernel.sleep]

theorem family_boot : Family (boot ncpu) := by
  refine ⟨execless_boot, crew_boot, ?_⟩
  grind

end

theorem family_run {es : List (Event ncpu)}
    (hg : Trace.Along Kernel.step (fun k e => NoExec e ∧ ExitsLast k e) (boot ncpu) es)
    (hr : Trace.run Kernel.step (boot ncpu) es = some k) : Family k :=
  Trace.run_inv (fun _ _ _ h hq he => h.step hq.1 hq.2 he) family_boot hg hr

/-- A dead process has no threads. -/
theorem Family.childless (h : Family k) {z : Slot} (hz : (k.proc z).state = .zombie) (q : Slot) :
    (k.proc q).master ≠ some z := fun hq => by
  simpa [hz, ProcState.active] using (h.crew.master q z hq).2.1

/-- The page directory of a dead process is that of no other slot that was given one. -/
theorem Family.unshared (h : Family k) {q z : Slot} (hz : (k.proc z).state = .zombie)
    (hm : (k.proc z).master = none) (hqz : q ≠ z) (hq : (k.proc q).state ≠ .unused)
    (hset : ¬ Leftover k q) : (k.proc q).pgdir ≠ (k.proc z).pgdir := by
  have hemb := h.execless.kin.sound.embryo
  have hfree : ∀ m, (k.proc m).state ≠ .embryo → ∀ p, (k.ctl p).unset ≠ some m :=
    fun m hm p hp => hm (hemb p m (Ctl.building_of_unset hp))
  have hzset := hfree z (by simp [hz])
  cases hmq : (k.proc q).master with
  | none => exact h.apart q z hqz hq (by simp [hz]) hmq hm (fun p hp => hset ⟨p, hp⟩) hzset
  | some m =>
    -- A thread has the page directory of its master, which is alive, and a main thread.
    obtain ⟨ht, ha, -⟩ := h.crew.master q m hmq
    have hmm : (k.proc m).master = none := by
      by_contra hmm
      exact absurd ht (h.execless.kin.worker m hmm).2.ne'
    rw [h.crew.shared q m hmq fun p hp => hset ⟨p, hp⟩]
    refine h.apart m z ?_ ?_ (by simp [hz]) hmm hm (hfree m ?_) hzset
    · rintro rfl
      exact h.childless hz q hmq
    all_goals
      intro hs
      simp [hs, ProcState.active] at ha

/-- In a run without `exec` in which a main thread calls `thread_exit` only when it has no
    threads, a dead process has no threads; and the page directory of a dead child, which
    `wait` frees, is that of no other slot in use, exactly when no slot drawn and not yet
    given a page directory carries it as a leftover. -/
theorem process_outlives_threads {es : List (Event ncpu)}
    (hg : Trace.Along Kernel.step (fun k e => NoExec e ∧ ExitsLast k e) (boot ncpu) es)
    (hr : Trace.run Kernel.step (boot ncpu) es = some k) :
    (∀ z, (k.proc z).tid = 0 → (k.proc z).state = .zombie →
      ∀ q, (k.proc q).state ≠ .unused → (k.proc q).master ≠ some z) ∧
    (∀ p z, k.ctl p = .wait → (k.proc z).parent = some p → (k.proc z).state = .zombie →
      ((∀ q, q ≠ z → (k.proc q).state ≠ .unused → (k.proc q).pgdir ≠ (k.proc z).pgdir) ↔
        ∀ q, Leftover k q → (k.proc q).pgdir ≠ (k.proc z).pgdir)) := by
  have h := family_run hg hr
  refine ⟨fun z _ hz q _ => h.childless hz q, fun p z _ hpar hz => ⟨fun hall q hq => ?_, ?_⟩⟩
  · obtain ⟨b, hb⟩ := hq
    have hemb := h.execless.kin.sound.embryo b q (Ctl.building_of_unset hb)
    refine hall q ?_ (by simp [hemb])
    rintro rfl
    simp [hz] at hemb
  · intro hleft q hqz hq
    have hm : (k.proc z).master = none := by
      by_contra hm
      simpa [hpar] using (h.execless.kin.worker z hm).1
    by_cases hset : Leftover k q
    · exact hleft q hset
    · exact h.unshared hz hm hqz hq hset

/-- The child, told to exit, waits for its thread, which is killed and exits; the child reaps
    it and dies. -/
theorem process_outlives_threads_exit :
    ∃ k, Trace.run Kernel.step (boot 2) (childWithThread ++ [.syscall 1 .exit, .advance 1 true,
        .advance 1 true, .dispatch 1 2, .syscall 1 .exit, .advance 1 true, .advance 1 true,
        .dispatch 1 1, .advance 1 true, .advance 1 true]) = some k ∧
      k.ctl 0 = .wait ∧ (k.proc 1).parent = some 0 ∧ (k.proc 1).state = .zombie ∧
      (∀ q, (k.proc q).state ≠ .unused → (k.proc q).master ≠ some 1) ∧
      ∀ q, q ≠ 1 → (k.proc q).state ≠ .unused → (k.proc q).pgdir ≠ (k.proc 1).pgdir := by
  have hk : ∃ k ∈ Trace.run Kernel.step (boot 2) (childWithThread ++ [.syscall 1 .exit,
        .advance 1 true, .advance 1 true, .dispatch 1 2, .syscall 1 .exit, .advance 1 true,
        .advance 1 true, .dispatch 1 1, .advance 1 true, .advance 1 true]),
      k.ctl 0 = .wait ∧ (k.proc 1).parent = some 0 ∧ (k.proc 1).state = .zombie ∧
        (k.proc 1).tid = 0 ∧ ∀ q, Leftover k q → (k.proc q).pgdir ≠ (k.proc 1).pgdir := by
    decide +kernel
  obtain ⟨k, hr, hw, hp, hz, ht, hl⟩ := hk
  obtain ⟨hthreads, hdirs⟩ := process_outlives_threads (by decide +kernel) hr
  exact ⟨k, hr, hw, hp, hz, hthreads 1 ht hz, (hdirs 0 1 hw hp hz).2 hl⟩

/-- The main thread of the child calls `thread_exit`: it is dead, and its thread ready to run.
    The page directory that `wait` then frees is that of the thread. -/
theorem thread_outlives_process :
    (∃ k ∈ Trace.run Kernel.step (boot 2) (childWithThread ++ [.syscall 1 (.threadExit 7),
        .advance 1 true]),
      (k.proc 1).tid = 0 ∧ (k.proc 1).state = .zombie ∧ (k.proc 2).state = .runnable ∧
        (k.proc 2).master = some 1 ∧ k.ctl 0 = .wait ∧ (k.proc 1).parent = some 0 ∧
        (k.proc 2).pgdir = (k.proc 1).pgdir) ∧
      ∃ k ∈ Trace.run Kernel.step (boot 2) (childWithThread ++ [.syscall 1 (.threadExit 7),
        .advance 1 true, .advance 0 true]),
      (k.proc 1).state = .unused ∧ (k.proc 2).state = .runnable ∧
        (k.proc 2).pgdir = (k.proc 1).pgdir := by
  decide +kernel

end Kernel
end Xv6
