import CourseProjects.Xv6.Mlfq

/-!
# The time quanta

The level, the ticks and `last_out` of a process are written by the timer interrupt, by
the system calls `yield` and `sleep`, and by `allocproc` (`step_meter`).

* `quantum_accounting`: a process that did not use up the last quantum is within the
  quantum of its level, and between two resets it is charged at most that quantum
  at each level.
* `exhausted_bottom`: where no process that used up the last quantum calls `yield` or
  `sleep`, such a process is at the last level, and every other one is moved down.
-/

namespace Xv6

/-- What the accounting writes. -/
@[grind =] def Proc.meter (x : Proc) : ℤ × ℕ × Bool := (x.level, x.ticks, x.lastOut)

/-! ### A tick -/

theorem two_le_quantum (l : ℤ) : 2 ≤ quantum l := by
  simp only [quantum]
  omega

theorem quantum_lt (l : ℤ) : quantum l < 2 ^ 32 := by
  simp only [quantum]
  omega

theorem quantum_le {l : ℤ} (h : 0 ≤ l) : (quantum l : ℤ) ≤ 4 * l + 2 := by
  simp only [quantum]
  omega

/-- The level is one of the levels, and a process that did not use up the last quantum is
    within the quantum of its level. -/
structure Proc.Within (mlfqK : ℤ) (x : Proc) : Prop where
  nonneg : 0 ≤ x.level
  lt : x.level ≤ mlfqK - 1
  ticks : x.lastOut = false → x.ticks < quantum x.level

variable {mlfqK : ℤ} {clock : ℕ} {x y : Proc}

/-- A process that was reset is within the quantum of the first level. -/
theorem Proc.within_of_reset {o : Bool} (hK : 1 ≤ mlfqK) (h : x.meter = (0, 0, o)) :
    x.Within mlfqK := by
  simp only [meter, Prod.mk.injEq] at h
  obtain ⟨hl, ht, -⟩ := h
  refine ⟨by omega, by omega, fun _ => ?_⟩
  have := two_le_quantum x.level
  omega

theorem Proc.Within.congr (h : x.Within mlfqK) (he : y.meter = x.meter) : y.Within mlfqK := by
  simp only [meter, Prod.mk.injEq] at he
  obtain ⟨hl, ht, ho⟩ := he
  refine ⟨hl ▸ h.nonneg, hl ▸ h.lt, fun hy => ?_⟩
  rw [hl, ht]
  exact h.ticks (ho ▸ hy)

/-- A boost resets the process. -/
theorem Proc.charge_boost (h : clock % 100 = 0 ∧ 0 < x.pid) :
    (x.charge mlfqK clock).meter = (0, 0, false) := by
  have := two_le_quantum 0
  simp only [charge, if_pos h]
  rw [if_neg (by simp; omega)]
  rfl

/-- Without a boost, a tick is charged; the process is moved down when its quantum is used up,
    and marked at the last level. -/
theorem Proc.Within.charge_cases (h : x.Within mlfqK) (hb : ¬ (clock % 100 = 0 ∧ 0 < x.pid)) :
    x.lastOut = true ∧ (x.charge mlfqK clock).level = x.level ∧
        (x.charge mlfqK clock).lastOut = true ∨
      x.lastOut = false ∧
        (x.ticks + 1 < quantum x.level ∧
            (x.charge mlfqK clock).meter = (x.level, x.ticks + 1, false) ∨
          x.level < mlfqK - 1 ∧ (x.charge mlfqK clock).meter = (x.level + 1, 0, false) ∨
          x.level = mlfqK - 1 ∧ (x.charge mlfqK clock).level = x.level ∧
            (x.charge mlfqK clock).lastOut = true) := by
  have hq := quantum_lt x.level
  have ht := h.ticks
  have hlt := h.lt
  cases ho : x.lastOut
  · -- The ticks do not wrap around before the quantum is used up.
    have hmod : (x.ticks + 1) % 2 ^ 32 = x.ticks + 1 := Nat.mod_eq_of_lt (by grind)
    simp only [charge, if_neg hb, hmod, ho]
    grind
  · simp [charge, hb, ho]

/-- A tick leaves a process within the quantum of its level. -/
theorem Proc.Within.charge (hK : 1 ≤ mlfqK) (h : x.Within mlfqK) (clock : ℕ) :
    (x.charge mlfqK clock).Within mlfqK := by
  by_cases hb : clock % 100 = 0 ∧ 0 < x.pid
  · exact within_of_reset hK (charge_boost hb)
  · have := h.nonneg
    have := h.lt
    have := two_le_quantum (x.level + 1)
    rcases h.charge_cases hb with ⟨-, hl, ho⟩ | ⟨-, ⟨ht, hm⟩ | ⟨hlt, hm⟩ | ⟨-, hl, ho⟩⟩
    · constructor <;> grind
    · constructor <;> grind
    · constructor <;> grind
    · constructor <;> grind

namespace Kernel

variable {ncpu : ℕ} {k k' : Kernel ncpu}

theorem exitReap_meter (c : Fin ncpu) (p q : Slot) :
    ((k.exitReap c p).proc q).meter = (k.proc q).meter := by
  have hl : ((forSlots (exitReapSlot p) (false, k)).2.proc q).meter = (k.proc q).meter := by
    refine forSlots_inv (g := exitReapSlot p)
      (P := fun a => (a.2.proc q).meter = (k.proc q).meter) ?_ rfl
    rintro ⟨b, k₁⟩ z h
    grind [exitReapSlot]
  rw [exitReap]
  grind [Kernel.sleep]

theorem exitClose_meter (c : Fin ncpu) (p q : Slot) :
    ((k.exitClose c p).proc q).meter = (k.proc q).meter := by
  have hl : ((forSlots (reparentSlot p) (k.exitNotify p)).proc q).meter = (k.proc q).meter := by
    refine forSlots_inv (g := reparentSlot p)
      (P := fun k₁ => (k₁.proc q).meter = (k.proc q).meter) ?_ ?_
    · intro k₁ z h
      grind [reparentSlot]
    · rw [exitNotify]
      split
      · grind
      · split <;> grind
  rw [exitClose]
  grind

/-- An event of the kernel leaves the level, the ticks and `last_out` of a process, or draws
    the slot. -/
theorem step_meter {e : Event ncpu} (he : k.step e = some k') (q : Slot) :
    (k'.proc q).meter = (k.proc q).meter ∨
      (k.proc q).state = .unused ∧ (k'.proc q).state = .embryo ∧
        (k'.proc q).meter = (0, 0, false) := by
  cases e with
  | advance c ok =>
    obtain ⟨p, hc, he⟩ := step_advance he
    cases hp : k.ctl p <;>
      simp only [advance, hp, reduceCtorEq, Option.some.injEq] at he <;> try subst he
    case exitReap => exact .inl (exitReap_meter c p q)
    case exitClose => exact .inl (exitClose_meter c p q)
    case joinScan t =>
      rcases joinScan_cases k c p t with ⟨z, -, -, he'⟩ | ⟨-, ⟨-, he'⟩ | ⟨-, he'⟩⟩ <;>
        grind [Kernel.sleep]
    case wait =>
      rcases wait_cases k c p with ⟨z, -, -, he'⟩ | ⟨-, he'⟩ | he' <;>
        grind [Kernel.reapChild, Kernel.sleep]
    case fork => rcases fork_cases k p with h | ⟨np, hnp, h⟩ <;> grind [Kernel.embryo]
    case create => rcases threadCreate_cases k p with h | ⟨np, hnp, h⟩ <;> grind [Kernel.embryo]
    case exit => grind [Kernel.exit]
    case execWake =>
      rw [execWake]
      split <;> grind
    all_goals grind [Kernel.forkAlloc, Kernel.forkCopy, Kernel.allocStack, Kernel.abandon,
      Kernel.ready, Kernel.createAlloc, Kernel.createInit, Kernel.createMap, Kernel.createSet,
      Kernel.threadExit, Kernel.threadJoin, Kernel.kill, Kernel.exec, Kernel.execNamei,
      Kernel.execLoad]
  | dispatch c p =>
    obtain ⟨hc, hs, hd, rfl⟩ := step_dispatch he
    grind [Kernel.dispatch]
  | wakeup n =>
    cases he
    grind
  | yield c =>
    obtain ⟨p, hc, rfl⟩ := step_yield he
    grind
  | sleep c n =>
    obtain ⟨p, hc, -, rfl⟩ := step_sleep he
    grind [Kernel.sleep]
  | syscall c call =>
    obtain ⟨p, hc, -, rfl⟩ := step_syscall he
    grind [Kernel.syscall]
  | fault c =>
    obtain ⟨p, hc, -, rfl⟩ := step_fault he
    grind

end Kernel

namespace Mlfq

variable {ncpu : ℕ} {m m' : Mlfq ncpu} {mlfqK : ℤ} {e : MlfqEvent ncpu} {p : Slot}

/-! ### Charges and resets -/

/-- The event charges a tick to a process. -/
def Charges (m : Mlfq ncpu) (p : Slot) : MlfqEvent ncpu → Prop
  | .timer c => m.cpu c = some p ∧ (m.proc p).state = .running
  | _ => False

/-- The event resets a process: a boost, a call of `yield` or `sleep`, or the creation of
    a process in its slot. -/
def Resets (m : Mlfq ncpu) (p : Slot) : MlfqEvent ncpu → Prop
  | .timer c => m.cpu c = some p ∧ (m.proc p).state = .running ∧ m.clock % 100 = 0 ∧
      0 < (m.proc p).pid
  | .reset c => m.cpu c = some p ∧ m.ctl p = .user ∧ (m.proc p).killed = false
  | .kernel e => (m.proc p).state = .unused ∧
      ∃ k ∈ m.toKernel.step e, (k.proc p).state = .embryo
  | .schedule _ | .clock | .setpriority _ _ _ => False

instance (m : Mlfq ncpu) (p : Slot) : DecidablePred (Charges m p)
  | .timer _ => inferInstanceAs (Decidable (_ ∧ _))
  | .schedule _ | .clock | .reset _ | .setpriority _ _ _ | .kernel _ => isFalse id

instance (m : Mlfq ncpu) (p : Slot) : DecidablePred (Resets m p)
  | .timer _ => inferInstanceAs (Decidable (_ ∧ _ ∧ _ ∧ _))
  | .reset _ => inferInstanceAs (Decidable (_ ∧ _ ∧ _))
  | .kernel e => inferInstanceAs (Decidable (_ ∧ ∃ k ∈ m.toKernel.step e, _))
  | .schedule _ | .clock | .setpriority _ _ _ => isFalse id

theorem setpriority_meter (pid priority : ℤ) (q : Slot) :
    ((m.setpriority p pid priority).proc q).meter = (m.proc q).meter := by
  rw [setpriority]
  split
  · rfl
  · dsimp only
    split
    · rfl
    · refine m.toKernel.modify_field Proc.meter ?_ q
      exact fun _ => rfl

/-- What an event does to the level, the ticks and `last_out` of a process. -/
theorem step_meter (he : m.step mlfqK e = some m') (q : Slot) :
    ¬ m.Charges q e ∧ (m'.proc q).meter = (m.proc q).meter ∨
      m.Charges q e ∧ (m'.proc q).meter = ((m.proc q).charge mlfqK m.clock).meter ∨
      m.Resets q e ∧ ((m'.proc q).meter = (0, 0, false) ∨
        (m'.proc q).meter = (0, 0, (m.proc q).lastOut) ∧ ∃ c, e = .reset c) := by
  cases e with
  | schedule c =>
    refine .inl ⟨id, ?_⟩
    obtain ⟨hc, rfl | ⟨p, -, hr, hd, rfl⟩⟩ := step_schedule he
    · rfl
    · grind [pick, Kernel.dispatch]
  | clock =>
    cases he
    refine .inl ⟨id, ?_⟩
    grind
  | timer c =>
    obtain ⟨p, hc, ⟨hr, rfl⟩ | ⟨hr, rfl⟩⟩ := step_timer he
    · refine .inl ⟨?_, rfl⟩
      rintro ⟨hq, hr'⟩
      rw [Option.some.inj (hc.symm.trans hq)] at hr
      exact hr hr'
    · rcases eq_or_ne q p with rfl | hqp
      · refine .inr (.inl ⟨⟨hc, hr⟩, ?_⟩)
        simp only [leave]
        grind
      · refine .inl ⟨fun hq => hqp (Option.some.inj (hq.1.symm.trans hc)), ?_⟩
        simp only [leave]
        grind
  | reset c =>
    obtain ⟨p, hc, hu, ⟨-, rfl⟩ | ⟨hk, rfl⟩⟩ := step_reset he
    · exact .inl ⟨id, rfl⟩
    · rcases eq_or_ne q p with rfl | hqp
      · refine .inr (.inr ⟨⟨hc, hu, hk⟩, .inr ⟨?_, c, rfl⟩⟩)
        grind [Proc.reset]
      · refine .inl ⟨id, ?_⟩
        grind
  | setpriority c pid priority =>
    obtain ⟨p, hc, rfl⟩ := step_setpriority he
    exact .inl ⟨id, setpriority_meter _ _ q⟩
  | kernel e =>
    obtain ⟨k, he', rfl, -⟩ := step_kernel he
    rcases Kernel.step_meter he' q with h | ⟨hu, he, h⟩
    · exact .inl ⟨id, h⟩
    · exact .inr (.inr ⟨⟨hu, k, he', he⟩, .inl h⟩)

/-! ### Runs -/

theorem step_within (hK : 1 ≤ mlfqK) (h : ∀ q, (m.proc q).Within mlfqK)
    (he : m.step mlfqK e = some m') (q : Slot) : (m'.proc q).Within mlfqK := by
  rcases step_meter he q with ⟨-, hm⟩ | ⟨-, hm⟩ | ⟨-, hm | ⟨hm, -⟩⟩
  · exact (h q).congr hm
  · exact ((h q).charge hK m.clock).congr hm
  · exact Proc.within_of_reset hK hm
  · exact Proc.within_of_reset hK hm

theorem within_run {es : List (MlfqEvent ncpu)} (hK : 1 ≤ mlfqK)
    (hr : Trace.run (Mlfq.step · mlfqK) (boot ncpu) es = some m) (q : Slot) :
    (m.proc q).Within mlfqK := by
  refine Trace.run_inv (I := fun m => ∀ q, (m.proc q).Within mlfqK)
    (fun m e m' h _ he => step_within hK h he) (fun q => ?_)
    (Trace.along_of_forall (P := fun _ _ => True) fun _ _ _ => trivial) hr q
  refine Proc.within_of_reset (o := false) hK ?_
  simp only [boot, Kernel.boot_proc]
  split <;> rfl

/-- The ticks charged at a level so far, as far as the process tells. -/
def used (p : Slot) (i : ℕ) (m : Mlfq ncpu) : ℕ :=
  if (m.proc p).level < i then 0
  else if (m.proc p).level = i ∧ (m.proc p).lastOut = false then (m.proc p).ticks
  else 4 * i + 2

/-- An event that does not reset a process does not take back ticks charged at a level, and a
    tick charged there counts. -/
theorem used_step {i : ℕ} (h : (m.proc p).Within mlfqK) (hr : ¬ m.Resets p e)
    (he : m.step mlfqK e = some m') :
    used p i m + (if m.Charges p e ∧ (m.proc p).level = i ∧ (m.proc p).lastOut = false then 1
      else 0) ≤ used p i m' := by
  have hq := quantum_le h.nonneg
  rcases step_meter he p with ⟨hc, hm⟩ | ⟨hc, hm⟩ | ⟨hc, -⟩
  · simp only [Proc.meter, Prod.mk.injEq] at hm
    obtain ⟨hl, ht, ho⟩ := hm
    rw [if_neg fun hc' => hc hc'.1, used, used, hl, ht, ho]
    exact le_rfl
  · have hb : ¬ (m.clock % 100 = 0 ∧ 0 < (m.proc p).pid) := by
      cases e <;> simp_all [Charges, Resets]
    have ht' := h.ticks
    simp only [Proc.meter, Prod.mk.injEq] at hm
    obtain ⟨hl', ht', ho'⟩ := hm
    rcases h.charge_cases hb with ⟨ho, hl, ho''⟩ | ⟨ho, ⟨ht, hm'⟩ | ⟨hlt, hm'⟩ | ⟨-, hl, ho''⟩⟩ <;>
      grind [used]
  · exact absurd hc hr

theorem used_le {i : ℕ} (h : (m.proc p).Within mlfqK) : used p i m ≤ 4 * i + 2 := by
  have hq := quantum_le h.nonneg
  have ht := h.ticks
  grind [used]

/-- Between two resets, the ticks charged at a level are ticks used there. -/
theorem count_le_used {i : ℕ} {fs : List (MlfqEvent ncpu)} (hK : 1 ≤ mlfqK)
    (h : ∀ q, (m.proc q).Within mlfqK)
    (hseg : Trace.Along (Mlfq.step · mlfqK) (fun m e => ¬ m.Resets p e) m fs)
    (hrun : Trace.run (Mlfq.step · mlfqK) m fs = some m') :
    (∀ q, (m'.proc q).Within mlfqK) ∧
      Trace.count (Mlfq.step · mlfqK) (fun m e =>
        m.Charges p e ∧ (m.proc p).level = i ∧ (m.proc p).lastOut = false) m fs ≤
          used p i m' := by
  let Q : Mlfq ncpu → MlfqEvent ncpu → Bool := fun m e =>
    m.Charges p e ∧ (m.proc p).level = i ∧ (m.proc p).lastOut = false
  have hstep : ∀ (m : Mlfq ncpu) e m', (∀ q, (m.proc q).Within mlfqK) → ¬ m.Resets p e →
      m.step mlfqK e = some m' →
      (∀ q, (m'.proc q).Within mlfqK) ∧ used p i m + (if Q m e then 1 else 0) ≤ used p i m' := by
    intro m e m' h hreset he
    refine ⟨step_within hK h he, ?_⟩
    simpa [Q] using used_step (i := i) (h p) hreset he
  obtain ⟨h', hcount⟩ := Trace.count_le (P := fun m e => ¬ m.Resets p e) hstep h hseg hrun
  exact ⟨h', le_trans (Nat.le_add_left _ _) hcount⟩

/-- For every `MLFQ_K` and every run, the levels are the levels, a process that is not marked
    is within the quantum of its level, and between two resets a process is charged at most
    that quantum at a level before it is moved down or marked. -/
theorem quantum_accounting {es : List (MlfqEvent ncpu)} (hK : 1 ≤ mlfqK)
    (hr : Trace.run (Mlfq.step · mlfqK) (boot ncpu) es = some m) :
    (∀ q, 0 ≤ (m.proc q).level ∧ (m.proc q).level ≤ mlfqK - 1) ∧
    (∀ q, (m.proc q).lastOut = false → ((m.proc q).ticks : ℤ) < 4 * (m.proc q).level + 2) ∧
    ∀ p (i : ℕ) fs m', Trace.Along (Mlfq.step · mlfqK) (fun m e => ¬ m.Resets p e) m fs →
      Trace.run (Mlfq.step · mlfqK) m fs = some m' →
      let n := Trace.count (Mlfq.step · mlfqK) (fun m e =>
        m.Charges p e ∧ (m.proc p).level = i ∧ (m.proc p).lastOut = false) m fs
      n ≤ 4 * i + 2 ∧
        ((m'.proc p).level = i → (m'.proc p).lastOut = false → n < 4 * i + 2) := by
  have h := within_run hK hr
  refine ⟨fun q => ⟨(h q).nonneg, (h q).lt⟩, fun q ho => ?_, fun p i fs m' hseg hrun => ?_⟩
  · have := (h q).ticks ho
    have := quantum_le (h q).nonneg
    omega
  · intro n
    obtain ⟨h', hcount⟩ := count_le_used (p := p) (i := i) hK h hseg hrun
    have hn : n ≤ used p i m' := hcount
    have hle := used_le (i := i) (h' p)
    refine ⟨by omega, fun hl ho => ?_⟩
    have := (h' p).ticks ho
    have := quantum_le (h' p).nonneg
    have : used p i m' = (m'.proc p).ticks := by
      rw [used, if_neg (by omega), if_pos ⟨hl, ho⟩]
    omega

theorem quantum_accounting_forkAndYield :
    ∃ m m', Trace.run (Mlfq.step · 2) (boot 2) forkAndYield = some m ∧
      Trace.run (Mlfq.step · 2) m [.schedule 0, .timer 0, .schedule 0, .timer 0] = some m' ∧
      (∀ q, 0 ≤ (m.proc q).level ∧ (m.proc q).level ≤ 2 - 1) ∧
      Trace.count (Mlfq.step · 2) (fun m e =>
        m.Charges 0 e ∧ (m.proc 0).level = (0 : ℕ) ∧ (m.proc 0).lastOut = false) m
        [.schedule 0, .timer 0, .schedule 0, .timer 0] ≤ 4 * 0 + 2 := by
  have hm : ∃ m ∈ Trace.run (Mlfq.step · 2) (boot 2) forkAndYield,
      Trace.Along (Mlfq.step · 2) (fun m e => ¬ m.Resets 0 e) m
        [.schedule 0, .timer 0, .schedule 0, .timer 0] ∧
      (Trace.run (Mlfq.step · 2) m [.schedule 0, .timer 0, .schedule 0, .timer 0]).isSome := by
    decide +kernel
  obtain ⟨m, hr, hseg, hsome⟩ := hm
  obtain ⟨m', hrun⟩ := Option.isSome_iff_exists.1 hsome
  obtain ⟨hlevels, -, hcount⟩ := quantum_accounting (by decide) hr
  exact ⟨m, m', hr, hrun, hlevels, (hcount 0 0 _ m' hseg hrun).1⟩

/-! ### The last level -/

/-- The processes that used up the last quantum are at the last level. -/
def Bottom (mlfqK : ℤ) (m : Mlfq ncpu) : Prop :=
  ∀ q, (m.proc q).lastOut = true → (m.proc q).level = mlfqK - 1

/-- No process that used up the last quantum calls `yield` or `sleep`: `syscall` resets the
    level and the ticks of the caller, and leaves its `last_out`. -/
def ResetsFresh (m : Mlfq ncpu) : MlfqEvent ncpu → Prop
  | .reset c => ∀ p ∈ m.cpu c, m.ctl p = .user → (m.proc p).killed = false →
      (m.proc p).lastOut = false
  | _ => True

instance (m : Mlfq ncpu) : DecidablePred (ResetsFresh m)
  | .reset c => inferInstanceAs (Decidable (∀ p ∈ m.cpu c, _))
  | .schedule _ | .clock | .timer _ | .setpriority _ _ _ | .kernel _ => isTrue trivial

theorem step_bottom (hw : ∀ q, (m.proc q).Within mlfqK) (hb : m.Bottom mlfqK)
    (hf : m.ResetsFresh e) (he : m.step mlfqK e = some m') : m'.Bottom mlfqK := by
  intro q hq
  rcases step_meter he q with ⟨-, hm⟩ | ⟨-, hm⟩ | ⟨hr, hm | ⟨hm, c, rfl⟩⟩
  · have := hb q
    grind
  · by_cases hbo : m.clock % 100 = 0 ∧ 0 < (m.proc q).pid
    · have hmeter : ((m.proc q).charge mlfqK m.clock).meter = (0, 0, false) :=
        Proc.charge_boost hbo
      grind
    · have := hb q
      rcases (hw q).charge_cases hbo with h | ⟨-, ⟨-, h⟩ | ⟨-, h⟩ | h⟩ <;> grind
  · grind
  · -- The process that calls did not use up the last quantum, and still has not.
    have := hf q hr.1 hr.2.1 hr.2.2
    grind

/-- That is exactly what keeps the marked processes at the last level. -/
theorem step_bottom_iff (hK : 2 ≤ mlfqK) (hw : ∀ q, (m.proc q).Within mlfqK)
    (hb : m.Bottom mlfqK) (he : m.step mlfqK e = some m') :
    m'.Bottom mlfqK ↔ m.ResetsFresh e := by
  refine ⟨fun h => ?_, fun hf => step_bottom hw hb hf he⟩
  cases e with
  | reset c =>
    intro p hp hu hk
    obtain ⟨p', hc, -, ⟨hk', rfl⟩ | ⟨-, rfl⟩⟩ := step_reset he
    · obtain rfl := Option.some.inj (hc.symm.trans hp)
      rw [hk] at hk'
      cases hk'
    · obtain rfl := Option.some.inj (hc.symm.trans hp)
      cases ho : (m.proc p').lastOut
      · rfl
      · have hl := h p' (by grind [Proc.reset])
        have : (0 : ℤ) = mlfqK - 1 := by grind [Proc.reset]
        omega
  | _ => trivial

theorem bottom_run {es : List (MlfqEvent ncpu)} (hK : 1 ≤ mlfqK)
    (hf : Trace.Along (Mlfq.step · mlfqK) ResetsFresh (boot ncpu) es)
    (hr : Trace.run (Mlfq.step · mlfqK) (boot ncpu) es = some m) : m.Bottom mlfqK := by
  refine (Trace.run_inv (I := fun m => (∀ q, (m.proc q).Within mlfqK) ∧ m.Bottom mlfqK)
    (fun m e m' h hf he => ⟨step_within hK h.1 he, step_bottom h.1 h.2 hf he⟩)
    ⟨within_run hK (Trace.run_nil (boot ncpu)), fun q ho => ?_⟩ hf hr).2
  simp only [boot, Kernel.boot_proc] at ho
  split at ho <;> cases ho

/-- Where the marked processes are at the last level, each tick charged at a level above it is
    a tick used there. -/
theorem bottom_count {i : ℕ} {fs : List (MlfqEvent ncpu)} (hK : 1 ≤ mlfqK)
    (hi : (i : ℤ) < mlfqK - 1) (hw : ∀ q, (m.proc q).Within mlfqK) (hb : m.Bottom mlfqK)
    (hseg : Trace.Along (Mlfq.step · mlfqK) (fun m e => m.ResetsFresh e ∧ ¬ m.Resets p e) m fs)
    (hrun : Trace.run (Mlfq.step · mlfqK) m fs = some m') :
    ((∀ q, (m'.proc q).Within mlfqK) ∧ m'.Bottom mlfqK) ∧
      Trace.count (Mlfq.step · mlfqK) (fun m e =>
        m.Charges p e ∧ (m.proc p).level = i) m fs ≤ used p i m' := by
  let Q : Mlfq ncpu → MlfqEvent ncpu → Bool := fun m e => m.Charges p e ∧ (m.proc p).level = i
  have hstep : ∀ (m : Mlfq ncpu) e m', (∀ q, (m.proc q).Within mlfqK) ∧ m.Bottom mlfqK →
      m.ResetsFresh e ∧ ¬ m.Resets p e → m.step mlfqK e = some m' →
      ((∀ q, (m'.proc q).Within mlfqK) ∧ m'.Bottom mlfqK) ∧
        used p i m + (if Q m e then 1 else 0) ≤ used p i m' := by
    intro m e m' ⟨hw, hb⟩ ⟨hf, hreset⟩ he
    refine ⟨⟨step_within hK hw he, step_bottom hw hb hf he⟩, ?_⟩
    have hfresh : (m.proc p).level = i → (m.proc p).lastOut = false := by
      intro hl
      cases ho : (m.proc p).lastOut
      · rfl
      · have := hb p ho
        omega
    have := used_step (i := i) (hw p) hreset he
    grind
  obtain ⟨h', hcount⟩ := Trace.count_le (P := fun m e => m.ResetsFresh e ∧ ¬ m.Resets p e) hstep
    ⟨hw, hb⟩ hseg hrun
  exact ⟨h', le_trans (Nat.le_add_left _ _) hcount⟩

/-- In every run in which no process that used up the last quantum calls `yield` or `sleep`,
    the processes that did are at the last level, and a process at a level above it is moved
    down after at most the quantum of its level; the first such call takes a marked process
    off the last level. -/
theorem exhausted_bottom {es : List (MlfqEvent ncpu)} (hK : 2 ≤ mlfqK)
    (hf : Trace.Along (Mlfq.step · mlfqK) ResetsFresh (boot ncpu) es)
    (hr : Trace.run (Mlfq.step · mlfqK) (boot ncpu) es = some m) :
    (∀ q, (m.proc q).lastOut = true → (m.proc q).level = mlfqK - 1) ∧
    (∀ p (i : ℕ) fs m', (i : ℤ) < mlfqK - 1 →
      Trace.Along (Mlfq.step · mlfqK) (fun m e => m.ResetsFresh e ∧ ¬ m.Resets p e) m fs →
      Trace.run (Mlfq.step · mlfqK) m fs = some m' →
      let n := Trace.count (Mlfq.step · mlfqK) (fun m e =>
        m.Charges p e ∧ (m.proc p).level = i) m fs
      n ≤ 4 * i + 2 ∧ ((m'.proc p).level = i → n < 4 * i + 2)) ∧
    ∀ e m', m.step mlfqK e = some m' →
      ((∀ q, (m'.proc q).lastOut = true → (m'.proc q).level = mlfqK - 1) ↔ m.ResetsFresh e) := by
  have hK' : 1 ≤ mlfqK := by omega
  have hw := within_run hK' hr
  have hb := bottom_run hK' hf hr
  refine ⟨hb, fun p i fs m' hi hseg hrun => ?_, fun e m' he => step_bottom_iff hK hw hb he⟩
  intro n
  obtain ⟨⟨hw', hb'⟩, hcount⟩ := bottom_count (p := p) (i := i) hK' hi hw hb hseg hrun
  have hn : n ≤ used p i m' := hcount
  have hle := used_le (i := i) (hw' p)
  refine ⟨by omega, fun hl => ?_⟩
  have ho : (m'.proc p).lastOut = false := by
    cases ho : (m'.proc p).lastOut
    · rfl
    · have := hb' p ho
      omega
  have ht := (hw' p).ticks ho
  have hq := quantum_le (hw' p).nonneg
  have : used p i m' = (m'.proc p).ticks := by
    rw [used, if_neg (by omega), if_pos ⟨hl, ho⟩]
  omega

/-- A number of times, the scheduler of the first processor runs a process until the timer
    interrupts it. -/
def rounds : ℕ → List (MlfqEvent 2)
  | 0 => []
  | n + 1 => .schedule 0 :: .timer 0 :: rounds n

theorem exhausted_bottom_rounds :
    ∃ m m', Trace.run (Mlfq.step · 2) (boot 2) (.clock :: rounds 8) = some m ∧
      (m.proc 0).lastOut = true ∧ (m.proc 0).level = 2 - 1 ∧
      Trace.run (Mlfq.step · 2) m (rounds 2) = some m' ∧
      Trace.count (Mlfq.step · 2) (fun m e => m.Charges 0 e ∧ (m.proc 0).level = (0 : ℕ)) m
        (rounds 2) ≤ 4 * 0 + 2 ∧
      ∃ m'', m.step 2 .clock = some m'' ∧
        ∀ q, (m''.proc q).lastOut = true → (m''.proc q).level = 2 - 1 := by
  have hm : ∃ m ∈ Trace.run (Mlfq.step · 2) (boot 2) (.clock :: rounds 8),
      (m.proc 0).lastOut = true ∧
      Trace.Along (Mlfq.step · 2) (fun m e => m.ResetsFresh e ∧ ¬ m.Resets 0 e) m (rounds 2) ∧
      (Trace.run (Mlfq.step · 2) m (rounds 2)).isSome := by
    decide +kernel
  obtain ⟨m, hr, ho, hseg, hsome⟩ := hm
  obtain ⟨m', hrun⟩ := Option.isSome_iff_exists.1 hsome
  obtain ⟨hbottom, hcount, hexact⟩ := exhausted_bottom (by decide) (by decide +kernel) hr
  exact ⟨m, m', hr, ho, hbottom 0 ho, hrun, (hcount 0 0 _ m' (by decide) hseg hrun).1,
    _, rfl, (hexact .clock _ rfl).2 trivial⟩

/-- The first process uses up the last quantum and calls `yield`: it is back at the first
    level, and is still there after more ticks than the quantum of the level. -/
theorem exhausted_escapes :
    ∃ m ∈ Trace.run (Mlfq.step · 2) (boot 2) (.clock :: rounds 8 ++ [.schedule 0, .reset 0]),
      (m.proc 0).lastOut = true ∧ (m.proc 0).level = 0 ∧
        ∃ m' ∈ Trace.run (Mlfq.step · 2) m (.timer 0 :: rounds 10),
          Trace.Along (Mlfq.step · 2) (fun m e => ¬ m.Resets 0 e) m (.timer 0 :: rounds 10) ∧
          Trace.count (Mlfq.step · 2) (fun m e => m.Charges 0 e ∧ (m.proc 0).level = (0 : ℕ)) m
            (.timer 0 :: rounds 10) = 11 ∧ (m'.proc 0).level = 0 := by
  decide +kernel

end Mlfq
end Xv6
