import CourseProjects.Xv6.Mlfq

/-!
# The choice of the MLFQ scheduler

The scan of `scheduler` with `prev = 0`, over a process table of any length. It compares
the level and the priority, and leaves out the processes that used up the last quantum
(`last_out`); but the first process that is ready is taken whatever its `last_out`, before
it is looked at.

* `scan_eq_argmin`: the scan takes the first ready process at the head of all that are to
  be chosen from.
* `selects_iff`: the tables from which the scan chooses as it should.
-/

namespace Xv6

/-- The body of the loop of `scheduler` over the table. -/
def scanProc (tmp : Option Proc) (p : Proc) : Option Proc :=
  if p.state ≠ .runnable then tmp
  else if p.pid = 1 then some p
  else
    match tmp with
    | none => some p
    | some t =>
      if p.lastOut then tmp
      else if p.level = t.level then
        if t.priority < p.priority then some p else tmp
      else if p.level < t.level then some p
      else tmp

/-- The process that the loop over a table finds. -/
def scan (ps : List Proc) : Option Proc := ps.foldl scanProc none

/-- The scan of the table of the kernel. -/
theorem scan_table {ncpu : ℕ} (m : Mlfq ncpu) :
    (Kernel.forSlots m.scanSlot none).map m.proc = scan ((List.finRange nproc).map m.proc) := by
  have hstep : ∀ (tmp : Option Slot) (p : Slot),
      (m.scanSlot tmp p).map m.proc = scanProc (tmp.map m.proc) (m.proc p) := by
    intro tmp p
    cases tmp <;> simp only [Mlfq.scanSlot, scanProc, Option.map_none, Option.map_some]
    · split_ifs <;> rfl
    · split_ifs <;> rfl
  suffices h : ∀ (l : List Slot) (tmp : Option Slot), (l.foldl m.scanSlot tmp).map m.proc =
      (l.map m.proc).foldl scanProc (tmp.map m.proc) from h _ none
  intro l
  induction l with
  | nil => exact fun _ => rfl
  | cons p l ih => exact fun tmp => by rw [List.foldl_cons, ih, hstep]; rfl

/-! ### What is to be chosen -/

/-- A process that the scan may choose. -/
def Proc.Ready (p : Proc) : Prop := p.state = .runnable ∧ p.lastOut = false

instance : DecidablePred Proc.Ready := fun _ => inferInstanceAs (Decidable (_ ∧ _))

/-- The process is of the highest priority on the lowest level of those to choose from. -/
structure Best (ps : List Proc) (t : Proc) : Prop where
  ready : t.Ready
  level : ∀ p ∈ ps, p.Ready → t.level ≤ p.level
  priority : ∀ p ∈ ps, p.Ready → p.level = t.level → p.priority ≤ t.priority

/-- The scan chooses such a process if there is one to choose. -/
def Selects (ps : List Proc) : Prop := (∃ p ∈ ps, p.Ready) → ∃ t ∈ scan ps, Best ps t

/-- The place of a process: its level, and on a level its priority. -/
def rank (p : Proc) : ℤ ×ₗ ℤ := toLex (p.level, -p.priority)

/-- A process comes before another one. -/
def Proc.Ahead (p t : Proc) : Prop :=
  p.level < t.level ∨ p.level = t.level ∧ t.priority < p.priority

instance (p t : Proc) : Decidable (p.Ahead t) := inferInstanceAs (Decidable (_ ∨ _ ∧ _))

variable {ps : List Proc} {p t f : Proc}

theorem rank_lt_iff : rank p < rank t ↔ p.Ahead t := by
  simp [rank, Prod.Lex.lt_iff, Proc.Ahead]

theorem rank_le_iff : rank t ≤ rank p ↔
    t.level ≤ p.level ∧ (p.level = t.level → p.priority ≤ t.priority) := by
  rw [← not_lt, rank_lt_iff, Proc.Ahead]
  omega

/-- The first process that is ready to run. -/
def firstRunnable (ps : List Proc) : Option Proc := ps.find? fun p => p.state = .runnable

/-- What the scan goes through: the first process that is ready to run, and those that may be
    chosen. -/
def candidates (ps : List Proc) : List Proc := (firstRunnable ps).toList ++ ps.filter fun p => p.Ready

theorem scanProc_of_ne (tmp : Option Proc) (hr : p.state ≠ .runnable) : scanProc tmp p = tmp :=
  if_pos hr

theorem scanProc_none (hr : p.state = .runnable) (h1 : p.pid ≠ 1) : scanProc none p = some p := by
  simp [scanProc, hr, h1]

theorem scanProc_some (hr : p.state = .runnable) (h1 : p.pid ≠ 1) :
    scanProc (some t) p = if p.lastOut = false ∧ p.Ahead t then some p else some t := by
  simp only [scanProc, hr, h1, Proc.Ahead, ne_eq, not_true_eq_false, if_false]
  grind

/-- A process that is ready to run is added to those to choose from, if it may be chosen. -/
theorem candidates_snoc (hf : firstRunnable ps = some f) :
    candidates (ps ++ [p]) = candidates ps ++ [p].filter fun p => p.Ready := by
  have hf' : firstRunnable (ps ++ [p]) = some f := by
    rw [firstRunnable, List.find?_append, ← firstRunnable, hf]
    rfl
  rw [candidates, candidates, hf, hf', List.filter_append, List.append_assoc]

/-- The scan finds the best of these. -/
theorem scan_eq_argmin (h : ∀ p ∈ ps, p.pid = 1 → p.state ≠ .runnable) :
    scan ps = (candidates ps).argmin rank := by
  induction ps using List.reverseRecOn with
  | nil => rfl
  | append_singleton ps p ih =>
    have ih := ih fun q hq => h q (List.mem_append_left _ hq)
    have hp := h p (List.mem_append_right _ List.mem_cons_self)
    rw [scan, List.foldl_append, ← scan, List.foldl_cons, List.foldl_nil, ih]
    by_cases hr : p.state = .runnable
    swap
    · have hc : candidates (ps ++ [p]) = candidates ps := by
        simp [candidates, firstRunnable, List.find?_append, Proc.Ready, hr]
      rw [scanProc_of_ne _ hr, hc]
    have hpid : p.pid ≠ 1 := fun h1 => hp h1 hr
    cases hf : firstRunnable ps with
    | none =>
      -- No process of the table was ready to run so far.
      have hnone : ∀ q ∈ ps, q.state ≠ .runnable := by simpa [firstRunnable] using hf
      have hfilter : ps.filter (fun p => p.Ready) = [] :=
        List.filter_eq_nil_iff.2 fun q hq hy => hnone q hq (of_decide_eq_true hy).1
      have hc : candidates ps = [] := by rw [candidates, hf, hfilter]; rfl
      have hc' : candidates (ps ++ [p]) = p :: [p].filter fun p => p.Ready := by
        rw [candidates, List.filter_append, hfilter, firstRunnable, List.find?_append,
          ← firstRunnable, hf]
        simp [hr]
      rw [hc, hc', List.argmin_nil, scanProc_none hr hpid]
      by_cases hy : p.Ready <;> simp [hy, List.argmin_cons]
    | some f =>
      rw [candidates_snoc hf]
      obtain ⟨t, ht⟩ : ∃ t, (candidates ps).argmin rank = some t := by
        rw [← Option.ne_none_iff_exists', Ne, List.argmin_eq_none, candidates, hf]
        simp
      rw [ht, scanProc_some hr hpid]
      by_cases hy : p.lastOut = true
      · simp [Proc.Ready, hy, ht]
      · have hready : [p].filter (fun p => p.Ready) = [p] := by simp [Proc.Ready, hr, hy]
        rw [hready, List.argmin_concat, ht]
        simp only [rank_lt_iff, Bool.eq_false_of_not_eq_true hy, true_and]

/-- The first process that is ready to run may be chosen, or another one comes before it. -/
def Yields (ps : List Proc) : Prop :=
  (∃ p ∈ ps, p.Ready) → ∀ f ∈ firstRunnable ps, f.lastOut = false ∨ ∃ p ∈ ps, p.Ready ∧ p.Ahead f

instance : Decidable (Yields ps) :=
  inferInstanceAs (Decidable ((∃ p ∈ ps, p.Ready) → ∀ f ∈ firstRunnable ps, _ ∨ ∃ p ∈ ps, _ ∧ _))

theorem mem_candidates : p ∈ candidates ps ↔ p ∈ firstRunnable ps ∨ p ∈ ps ∧ p.Ready := by
  simp [candidates]

/-- The scan goes wrong in one way: the first process that is ready to run used up the last
    quantum, and no process that may be chosen comes before it. -/
theorem selects_iff (h : ∀ p ∈ ps, p.pid = 1 → p.state ≠ .runnable) : Selects ps ↔ Yields ps := by
  refine forall_congr' fun hex => ?_
  obtain ⟨r, hr, hready⟩ := hex
  obtain ⟨f, hf⟩ : ∃ f, firstRunnable ps = some f := by
    rw [← Option.isSome_iff_exists, firstRunnable, List.find?_isSome]
    exact ⟨r, hr, decide_eq_true hready.1⟩
  have hfr : f.state = .runnable := by simpa using List.find?_some hf
  have hfm : f ∈ ps := List.mem_of_find?_eq_some hf
  obtain ⟨t, ht⟩ : ∃ t, scan ps = some t := by
    rw [scan_eq_argmin h, ← Option.ne_none_iff_exists', Ne, List.argmin_eq_none, candidates, hf]
    simp
  have harg : t ∈ (candidates ps).argmin rank := scan_eq_argmin h ▸ ht
  have hmin : ∀ p ∈ candidates ps, rank t ≤ rank p := fun p hp =>
    List.le_of_mem_argmin hp harg
  simp only [ht, hf, Option.mem_some_iff, exists_eq_left', forall_eq']
  constructor
  · intro hb
    by_contra hn
    obtain ⟨hout, hahead⟩ := not_or.1 hn
    -- The first process is the best of the candidates, and stands first.
    have hfirst : f ∈ (candidates ps).argmin rank := by
      rw [List.mem_argmin_iff]
      refine ⟨mem_candidates.2 (.inl hf), fun p hp => ?_, fun p _ _ => ?_⟩
      · rcases mem_candidates.1 hp with hp | ⟨hp, hy⟩
        · exact (Option.some.inj (hf.symm.trans hp) ▸ le_rfl)
        · exact not_lt.1 fun hlt => hahead ⟨p, hp, hy, rank_lt_iff.1 hlt⟩
      · rw [candidates, hf]
        simp
    obtain rfl := Option.some.inj (Option.mem_def.1 harg ▸ Option.mem_def.1 hfirst)
    exact hout hb.ready.2
  · intro hcond
    have hready : t.Ready := by
      rcases mem_candidates.1 (List.argmin_mem harg) with hft | hmem
      · obtain rfl := Option.some.inj (hf.symm.trans hft)
        rcases hcond with hout | ⟨p, hp, hy, hahead⟩
        · exact ⟨hfr, hout⟩
        · exact absurd (rank_lt_iff.2 hahead) (hmin p (mem_candidates.2 (.inr ⟨hp, hy⟩))).not_gt
      · exact hmem.2
    have hle := fun p hp hy => rank_le_iff.1 (hmin p (mem_candidates.2 (.inr ⟨hp, hy⟩)))
    exact ⟨hready, fun p hp hy => (hle p hp hy).1, fun p hp hy => (hle p hp hy).2⟩

/-- The first process is exhausted, and another one is on a level before its own. -/
theorem selects_exhausted :
    Selects [{ pid := 2, state := .runnable, level := 1, lastOut := true },
      { pid := 3, state := .runnable, priority := 4 }] :=
  (selects_iff (by decide)).2 (by decide)

/-- Two processes on the lowest level, of which the first used up its quantum: it is chosen
    again. -/
theorem exhausted_chosen :
    ¬ Selects [{ pid := 2, state := .runnable, level := 1, lastOut := true },
      { pid := 3, state := .runnable, level := 1 }] := by
  intro h
  obtain ⟨t, ht, hb⟩ := h ⟨_, List.mem_cons_of_mem _ List.mem_cons_self, by decide⟩
  have hout := hb.ready.2
  cases ht
  cases hout

end Xv6
