import CourseProjects.Lc2k.Isa

/-!
# Halting executions and their schedule

A sequential execution that halts (`Execution`), and when a pipeline that fetches
one instruction a cycle and loses three cycles to each taken branch fetches its
instructions (`issue`). Nothing here depends on the pipeline simulator.

* `Execution.ofHalts`: a run of the sequential semantics that reaches `halt` is an
  execution.
* `Execution.issue_cases`: in every cycle the pipeline fetches an instruction of the
  execution, or one of the three words after a taken branch or the halt.
* `Execution.Front`: the instructions that have left a stage, and how this set
  grows in a cycle (`Front.of_succ`).
* `Execution.HazardFree.reg_eq`: an instruction whose operands are written early
  enough reads the same from the registers of up to three instructions before.
-/

namespace CourseProjects.Lc2k

/-- A sequential execution of the program in `im` that halts after `N` instructions. -/
structure Execution (im : Memory) (N : ℕ) where
  /-- The state before the `n`-th instruction. -/
  arch : ℕ → Arch
  /-- The `n`-th word fetched. -/
  word : ℕ → Word
  /-- The `n`-th instruction. -/
  instr : ℕ → Instr
  fetched : ∀ n ≤ N, fetch im (arch n) = some (word n)
  decoded : ∀ n ≤ N, decode (word n) = some (instr n)
  executed : ∀ n < N, exec (arch n) (instr n) = some (arch (n + 1))
  halts : instr N = .halt

namespace Execution

/-- The execution of a run that reaches `halt`. -/
def ofHalts {im : Memory} {s : Arch} {N : ℕ}
    (h : (after im s N).bind (current im) = some .halt) : Execution im N :=
  have hafter : ∀ n ≤ N, ∃ a w i, after im s n = some a ∧ fetch im a = some w ∧
      decode w = some i := fun n hn => by
    obtain ⟨aN, haN, hcur⟩ := Option.bind_eq_some_iff.1 h
    rcases Nat.lt_or_eq_of_le hn with hlt | rfl
    · obtain ⟨a, ha⟩ := Loop.iter_of_le hlt haN
      obtain ⟨a', ha', hs⟩ := Option.bind_eq_some_iff.1 ((Loop.iter_succ n).symm.trans ha)
      obtain ⟨i, hi, -⟩ := Option.bind_eq_some_iff.1 hs
      obtain ⟨w, hw, hd⟩ := Option.bind_eq_some_iff.1 hi
      exact ⟨a', w, i, ha', hw, hd⟩
    · obtain ⟨w, hw, hd⟩ := Option.bind_eq_some_iff.1 hcur
      exact ⟨aN, w, _, haN, hw, hd⟩
  { arch := fun n => (after im s n).getD s
    word := fun n => (fetch im ((after im s n).getD s)).getD 0
    instr := fun n => (current im ((after im s n).getD s)).getD .halt
    fetched := fun n hn => by
      obtain ⟨a, w, i, ha, hw, -⟩ := hafter n hn
      simp [ha, hw]
    decoded := fun n hn => by
      obtain ⟨a, w, i, ha, hw, hd⟩ := hafter n hn
      simp [ha, hw, hd, current]
    executed := fun n hn => by
      obtain ⟨a, w, i, ha, hw, hd⟩ := hafter n hn.le
      obtain ⟨a', -, -, ha', -⟩ := hafter (n + 1) hn
      have hs : step im a = some a' := by
        rw [after, Loop.iter_succ] at ha'
        rw [after] at ha
        rwa [ha] at ha'
      rw [step, current, hw, Option.bind_some, hd] at hs
      simpa [ha, ha', current, hw, hd] using hs
    halts := by
      obtain ⟨a, ha, hcur⟩ := Option.bind_eq_some_iff.1 h
      simp [ha, hcur] }

variable {im : Memory} {N : ℕ} (e : Execution im N)

/-! ### The schedule -/

/-- The `n`-th instruction is a taken branch. -/
abbrev Taken (n : ℕ) : Prop := (e.instr n).Taken (e.arch n)

/-- The number of branches taken by the first `n` instructions. -/
def takenBranches : ℕ → ℕ
  | 0 => 0
  | n + 1 => takenBranches n + if e.Taken n then 1 else 0

/-- The cycle in which the pipeline fetches the `n`-th instruction. -/
def issue (n : ℕ) : ℕ := n + 3 * e.takenBranches n

/-- After fetching the `n`-th instruction, the pipeline goes on fetching words that
    are not to be executed. -/
def Diverts (n : ℕ) : Prop := e.Taken n ∨ n = N

instance (n : ℕ) : Decidable (e.Diverts n) := inferInstanceAs (Decidable (_ ∨ _))

@[simp] theorem issue_zero : e.issue 0 = 0 := rfl

variable {e}

theorem issue_succ_of_taken {n : ℕ} (h : e.Taken n) : e.issue (n + 1) = e.issue n + 4 := by
  simp only [issue, takenBranches, if_pos h]
  omega

theorem issue_succ_of_not_taken {n : ℕ} (h : ¬ e.Taken n) : e.issue (n + 1) = e.issue n + 1 := by
  simp only [issue, takenBranches, if_neg h]
  omega

/-- Instructions are fetched in order, at most one a cycle. -/
theorem issue_add_le {m n : ℕ} (h : m ≤ n) : e.issue m + (n - m) ≤ e.issue n := by
  induction n, h using Nat.le_induction with
  | base => simp
  | succ n hn ih =>
    by_cases ht : e.Taken n
    · rw [issue_succ_of_taken ht]
      omega
    · rw [issue_succ_of_not_taken ht]
      omega

theorem issue_lt {m n : ℕ} (h : m < n) : e.issue m < e.issue n := by
  have := issue_add_le (e := e) h.le
  omega

theorem issue_le {m n : ℕ} (h : m ≤ n) : e.issue m ≤ e.issue n := by
  have := issue_add_le (e := e) h
  omega

theorem issue_inj {m n : ℕ} (h : e.issue m = e.issue n) : m = n := by
  rcases Nat.lt_trichotomy m n with hlt | rfl | hlt
  · exact absurd h (issue_lt hlt).ne
  · rfl
  · exact absurd h (issue_lt hlt).ne'

/-- What is fetched in a cycle: an instruction, or a word after a diverting one. -/
theorem issue_cases {t : ℕ} (ht : t ≤ e.issue N + 3) :
    (∃ n ≤ N, e.issue n = t) ∨
      ∃ n ≤ N, e.Diverts n ∧ e.issue n < t ∧ t ≤ e.issue n + 3 := by
  induction t with
  | zero => exact .inl ⟨0, Nat.zero_le _, e.issue_zero⟩
  | succ t ih =>
    obtain ⟨n, hn, rfl⟩ | ⟨n, hn, hd, hlt, hle⟩ := ih (by omega)
    · -- The next instruction, unless this one diverts.
      by_cases hd : e.Diverts n
      · exact .inr ⟨n, hn, hd, by omega, by omega⟩
      · obtain ⟨htk, hne⟩ := not_or.1 hd
        exact .inl ⟨n + 1, by omega, issue_succ_of_not_taken htk⟩
    · -- One more word, unless it was the third.
      by_cases h3 : t + 1 ≤ e.issue n + 3
      · exact .inr ⟨n, hn, hd, by omega, h3⟩
      · obtain htk | rfl := hd
        · have hnN : n ≠ N := by
            rintro rfl
            omega
          refine .inl ⟨n + 1, by omega, ?_⟩
          rw [issue_succ_of_taken htk]
          omega
        · omega

/-- An instruction is not fetched in the shadow of another. -/
theorem Diverts.issue_ne {n m : ℕ} (h : e.Diverts n) (hm : m ≤ N) (hlt : e.issue n < e.issue m) :
    e.issue n + 4 ≤ e.issue m := by
  have hnm : n < m := by
    by_contra hle
    have := issue_le (e := e) (Nat.not_lt.1 hle)
    omega
  obtain htk | rfl := h
  · rw [← issue_succ_of_taken htk]
    exact issue_le hnm
  · omega

/-! ### Leaving a stage -/

variable (e) in
/-- Before cycle `t`, the instructions before the `m`-th have left the stage that is
    reached `d` cycles after the fetch; later ones have not, the halt apart. -/
structure Front (d t m : ℕ) : Prop where
  le : m ≤ N
  left : ∀ n < m, e.issue n + d < t
  notYet : m = N ∨ t ≤ e.issue m + d

/-- The last front. -/
theorem front_last {d t : ℕ} (h : e.issue N + d ≤ t) : e.Front d t N where
  le := le_rfl
  left n hn := by
    have := issue_lt (e := e) hn
    omega
  notYet := .inl rfl

/-- There is a front at every time. -/
theorem exists_front (d t : ℕ) : ∃ m, e.Front d t m := by
  classical
  by_cases h : ∃ m, m ≤ N ∧ t ≤ e.issue m + d
  · obtain ⟨hle, hm⟩ := Nat.find_spec h
    refine ⟨Nat.find h, hle, fun n hn => ?_, .inr hm⟩
    have := Nat.find_min h hn
    have hnN : n ≤ N := (hn.trans_le hle).le
    by_contra hc
    exact this ⟨hnN, Nat.not_lt.1 hc⟩
  · refine ⟨N, le_rfl, fun n hn => ?_, .inl rfl⟩
    by_contra hc
    exact h ⟨n, hn.le, Nat.not_lt.1 hc⟩

/-- An instruction in the stage is the front. -/
theorem front_of_issue {n d t : ℕ} (hn : n ≤ N) (h : e.issue n + d = t) : e.Front d t n where
  le := hn
  left m hm := by
    have := issue_lt (e := e) hm
    omega
  notYet := .inr h.ge

/-- In a cycle the front stays, if no instruction was in the stage but the halt, or
    passes the instruction that was. -/
theorem Front.of_succ {d t m : ℕ} (h : e.Front d (t + 1) m) :
    (e.Front d t m ∧ ∀ n < N, e.issue n + d ≠ t) ∨
      ∃ n, m = n + 1 ∧ e.issue n + d = t := by
  cases m with
  | zero =>
    refine .inl ⟨⟨h.le, fun n hn => absurd hn (Nat.not_lt_zero n), ?_⟩, fun n hn hd => ?_⟩
    · exact h.notYet.imp_right fun hle => by omega
    · have := issue_le (e := e) (Nat.zero_le n)
      have := h.notYet
      omega
  | succ m =>
    by_cases hm : e.issue m + d = t
    · exact .inr ⟨m, rfl, hm⟩
    · have hlt := h.left m (Nat.lt_succ_self m)
      refine .inl ⟨⟨h.le, fun n hn => ?_, h.notYet.imp_right fun hle => by omega⟩,
        fun n hn hd => ?_⟩
      · have := issue_le (e := e) (Nat.lt_succ_iff.1 hn)
        omega
      · rcases Nat.lt_or_ge m n with hmn | hnm
        · have := issue_le (e := e) (show m + 1 ≤ n from hmn)
          obtain hN | hle := h.notYet <;> omega
        · have := issue_le (e := e) hnm
          omega

/-! ### Hazards -/

variable (e) in
/-- No instruction reads a register written by one of the three before it. -/
def HazardFree : Prop :=
  ∀ n ≤ N, ∀ m < n, n < m + 4 → ∀ r, (e.instr n).Reads r → ¬ (e.instr m).Writes r

instance : Decidable e.HazardFree := inferInstanceAs (Decidable (∀ n ≤ N, _))

/-- What an instruction reads has not changed over the three instructions before it. -/
theorem HazardFree.reg_eq (h : e.HazardFree) {m n : ℕ} (hn : n ≤ N) (hmn : m ≤ n)
    (hd : n ≤ m + 3) {r : Fin numRegs} (hr : (e.instr n).Reads r) :
    (e.arch m).reg r = (e.arch n).reg r := by
  obtain ⟨k, rfl⟩ := Nat.exists_eq_add_of_le hmn
  induction k generalizing m with
  | zero => rfl
  | succ k ih =>
    have hw := h _ hn m (by omega) (by omega) r hr
    rw [← exec_reg_of_not_writes (e.executed m (by omega)) hw]
    rw [show m + (k + 1) = m + 1 + k by omega] at hn hd hr ⊢
    exact ih hn (by omega) (by omega) hr

end Execution

end CourseProjects.Lc2k
