import CourseProjects.Xv6.Mlfq

/-!
# The priority boost

A timer interrupt at a multiple of 100 ticks puts a process back to the first level. It
does so for the process that it interrupts; what the others have used up stays with them.

* `charge_fresh_iff`: what the accounting makes of the process that is interrupted.
* `boosts_iff`: a run in which every boost reaches every process is one in which there is
  nothing to do for the others.
-/

namespace Xv6

/-- Nothing is used up. -/
def Proc.Fresh (x : Proc) : Prop := x.level = 0 ∧ x.ticks = 0 ∧ x.lastOut = false

/-- The accounting at a boost starts the process afresh. Without a `pid` it does if the ticks
    wrap around on the first level, or run out on a level before it. -/
def Proc.Renewed (mlfqK : ℤ) (x : Proc) : Prop :=
  0 < x.pid ∨ x.lastOut = false ∧
    (x.level = 0 ∧ (x.ticks + 1) % 2 ^ 32 = 0 ∨
      x.level = -1 ∧ 0 < mlfqK ∧ 2 ^ 32 - 2 ≤ (x.ticks + 1) % 2 ^ 32)

theorem charge_fresh_iff {clock : ℕ} (hc : clock % 100 = 0) (mlfqK : ℤ) (x : Proc) :
    (x.charge mlfqK clock).Fresh ↔ x.Renewed mlfqK := by
  by_cases hp : 0 < x.pid
  · have h0 : quantum 0 = 2 := rfl
    simp [Proc.charge, Proc.Fresh, Proc.Renewed, hc, hp, h0]
  · have h0 : x.level = 0 → quantum x.level = 2 := by
      intro h
      rw [h]
      rfl
    have h1 : x.level = -1 → quantum x.level = 2 ^ 32 - 2 := by
      intro h
      rw [h]
      rfl
    simp only [Proc.charge, Proc.Renewed, hc, hp, and_false, if_false, false_or]
    split
    · rename_i hq
      split <;> simp only [Proc.Fresh] <;> grind
    · rename_i hq
      simp only [Proc.Fresh]
      cases hl : x.lastOut <;> simp only [hl] at hq <;> grind

namespace Mlfq

variable {ncpu : ℕ} {m m' : Mlfq ncpu} {mlfqK : ℤ} {c : Fin ncpu} {p : Slot} {e : MlfqEvent ncpu}

/-- The timer interrupts a running process at a multiple of 100 ticks. -/
def BoostsAt (m : Mlfq ncpu) (c : Fin ncpu) (p : Slot) : Prop :=
  m.cpu c = some p ∧ (m.proc p).state = .running ∧ m.clock % 100 = 0

/-- The boost reaches every process of the table. -/
def ReachesAll (mlfqK : ℤ) (m : Mlfq ncpu) (e : MlfqEvent ncpu) : Prop :=
  ∀ c p m', e = .timer c → m.BoostsAt c p → m.step mlfqK e = some m' →
    ∀ q, (m'.proc q).state ≠ .unused → (m'.proc q).Fresh

/-- At a boost, nothing is used up but by the process that is interrupted. -/
def OthersFresh (mlfqK : ℤ) (m : Mlfq ncpu) (e : MlfqEvent ncpu) : Prop :=
  ∀ c p, e = .timer c → m.BoostsAt c p → (m.proc p).Renewed mlfqK ∧
    ∀ q, q ≠ p → (m.proc q).state ≠ .unused → (m.proc q).Fresh

/-- A boost writes to the process that it interrupts, and to no other. -/
theorem step_boost (hb : m.BoostsAt c p) (h : m.step mlfqK (.timer c) = some m') :
    (∀ q, q ≠ p → m'.proc q = m.proc q) ∧
      m'.proc p = { (m.proc p).charge mlfqK m.clock with state := .runnable } := by
  obtain ⟨p', hp, ⟨hr, -⟩ | ⟨-, rfl⟩⟩ := step_timer h
  all_goals obtain rfl := Option.some.inj (hb.1.symm.trans hp)
  · exact absurd hb.2.1 hr
  · refine ⟨fun q hq => ?_, ?_⟩
    · simp [leave, Kernel.modify_proc, hq]
    · simp [leave, Kernel.modify_proc]

theorem reachesAll_iff : ReachesAll mlfqK m e ↔ OthersFresh mlfqK m e := by
  refine forall_congr' fun c => forall_congr' fun p => ?_
  constructor
  · rintro h rfl hb
    obtain ⟨m', hm⟩ : ∃ m', m.step mlfqK (.timer c) = some m' := by
      simp [step, hb.1]
    obtain ⟨hq, hp⟩ := step_boost hb hm
    have h := h m' rfl hb hm
    refine ⟨(charge_fresh_iff hb.2.2 mlfqK _).1 ?_, fun q hne hs => ?_⟩
    · have := h p (by simp [hp])
      rwa [hp] at this
    · rw [← hq q hne] at hs ⊢
      exact h q hs
  · rintro h m' rfl hb hm q hs
    obtain ⟨hren, hothers⟩ := h rfl hb
    obtain ⟨hq, hp⟩ := step_boost hb hm
    by_cases hne : q = p
    · subst hne
      rw [hp]
      exact (charge_fresh_iff hb.2.2 mlfqK _).2 hren
    · rw [hq q hne] at hs ⊢
      exact hothers q hne hs

/-- A run boosts every process at every boost exactly if there is nothing to boost but the
    process that is interrupted. -/
theorem boosts_iff (mlfqK : ℤ) (m : Mlfq ncpu) (es : List (MlfqEvent ncpu)) :
    Trace.Along (Mlfq.step · mlfqK) (ReachesAll mlfqK) m es ↔
      Trace.Along (Mlfq.step · mlfqK) (OthersFresh mlfqK) m es :=
  ⟨Trace.Along.mono fun _ _ => reachesAll_iff.1, Trace.Along.mono fun _ _ => reachesAll_iff.2⟩

/-- With one level, a child of the first process uses up the quantum on the second processor,
    and the ticks come to 100. -/
def exhausted : List (MlfqEvent 2) :=
  [.clock, .schedule 0, .kernel (.syscall 0 .fork), .kernel (.advance 0 true),
    .kernel (.advance 0 true), .kernel (.advance 0 true), .kernel (.advance 0 true), .schedule 1,
    .timer 1, .schedule 1, .timer 1] ++ List.replicate 99 .clock

/-- The timer interrupts the first process then, and the child keeps its `last_out`. -/
theorem boost_missed :
    ¬ Trace.Along (Mlfq.step · 1) (ReachesAll 1) (boot 2) (exhausted ++ [.timer 0]) := by
  have hrun : ∃ m ∈ Trace.run (Mlfq.step · 1) (boot 2) exhausted,
      (m.cpu 0 = some 0 ∧ (m.proc 0).state = .running ∧ m.clock % 100 = 0) ∧
        ∃ m' ∈ m.step 1 (.timer 0), (m'.proc 1).state = .runnable ∧ (m'.proc 1).lastOut = true := by
    decide +kernel
  obtain ⟨m, hr, hb, m', hm, hs, hl⟩ := hrun
  intro h
  have hfresh := ((Trace.along_append.1 h).2 m hr).1 0 0 m' rfl hb hm 1 (by simp [hs])
  simp [Proc.Fresh, hl] at hfresh

end Mlfq
end Xv6
