import CourseProjects.Storage.Crash

/-!
# The room in the log

`begin_op` puts `MAXOPBLOCKS` blocks of the log aside for each call under way, out of
`LOGSIZE`; but one block of the log is its header, and `log_write` panics when the others
are taken.

* `Log.no_panic_iff`: the log never panics as long as no call adds `MAXOPBLOCKS` blocks to
  it; calls that may add as many can fill it.
-/

namespace Storage.Log

open Counting Function

variable {s s' : Log} {p : Fin nproc} {k : ℕ}

/-- No call adds more than `k` blocks to the log. -/
def Spends (k : ℕ) (s : Log) : LogEvent → Prop
  | .logWrite p b _ =>
    match s.spent p with
    | none => True
    | some m => b ∈ s.lh ∨ m < k
  | .beginOp _ | .endOp _ | .advance | .crash => True

instance : ∀ s e, Decidable (Spends k s e)
  | s, .logWrite p b _ =>
    match h : s.spent p with
    | none => isTrue (by simp [Spends, h])
    | some m => decidable_of_iff (b ∈ s.lh ∨ m < k) (by simp [Spends, h])
  | _, .beginOp _ | _, .endOp _ | _, .advance | _, .crash => isTrue trivial

theorem Spends.mono {k' : ℕ} {e : LogEvent} (hk : k ≤ k') (h : Spends k s e) : Spends k' s e := by
  cases e with
  | logWrite p b v =>
    rw [Spends] at h ⊢
    split
    · trivial
    · rename_i m hm
      rw [hm] at h
      exact h.imp_right fun h => h.trans_le hk
  | _ => trivial

/-- What a call may still add, if it adds fewer than `MAXOPBLOCKS` blocks. -/
def left (o : Option ℕ) : ℕ := o.elim 0 fun m => maxopblocks - 1 - m

theorem left_le (o : Option ℕ) : left o ≤ maxopblocks - 1 := by
  cases o with
  | none => exact Nat.zero_le _
  | some m => exact Nat.sub_le _ _

/-- No more is put aside than the calls may add. -/
theorem Counted.sum_left_le (h : s.Counted) :
    ∑ q, left (s.spent q) ≤ s.outstanding * (maxopblocks - 1) := by
  calc ∑ q, left (s.spent q)
      = ∑ q ∈ Finset.univ.filter (fun q => (s.spent q).isSome), left (s.spent q) := by
        refine (Finset.sum_filter_of_ne fun q _ hq => ?_).symm
        rw [Option.isSome_iff_ne_none]
        rintro hn
        rw [hn] at hq
        exact hq rfl
    _ ≤ (Finset.univ.filter fun q => (s.spent q).isSome).card • (maxopblocks - 1) :=
        Finset.sum_le_card_nsmul _ _ _ fun q _ => left_le _
    _ = s.outstanding * (maxopblocks - 1) := by rw [h, smul_eq_mul]

/-- What is in the log and what the calls may add stays below the panic of `log_write`. -/
structure Roomy (s : Log) : Prop where
  follows : ∃ d, s.Follows d
  room : s.lh.length + ∑ q, left (s.spent q) + 1 < nlog
  spent : ∀ q m, s.spent q = some m → m < maxopblocks

/-- Within the bound, nothing panics. -/
theorem Roomy.ok (h : s.Roomy) (e : LogEvent) (x : Panic) : s.call e ≠ some (.error x) := by
  obtain ⟨⟨d, hd, hcount⟩, hroom, -⟩ := h
  cases e with
  | beginOp p =>
    rw [call]
    split <;> simp
  | logWrite p b v =>
    rw [call]
    cases hm : s.spent p with
    | none => simp
    | some m =>
      have ho : s.outstanding ≠ 0 := by
        have := card_spent_none (f := s.spent) (p := p) (by simp [hm])
        rw [hcount]
        omega
      have hlog : nlog = logsize := rfl
      dsimp only
      split
      · rw [logWrite, if_neg (by omega), if_neg (by omega)]
        intro hx
        cases hx
      · intro hx
        cases hx
  | endOp p =>
    rw [call]
    split
    · intro hx
      cases hx
    · rename_i hp
      have ho : s.outstanding ≠ 0 := by
        have := card_spent_none hp
        rw [hcount]
        omega
      rw [endOp, hd.sound.idle ho]
      simp only [ne_eq, not_true_eq_false, if_false]
      split
      · intro hx
        cases hx
      · intro hx
        cases hx
  | advance =>
    rw [call]
    cases s.advance with
    | none =>
      intro hx
      cases hx
    | some t =>
      intro hx
      cases hx
  | crash =>
    intro hx
    cases hx

/-- Where no call is under way, nothing is put aside. -/
theorem Roomy.of_follows {d : AtomicDisk} (h : s.Follows d) (ho : s.outstanding = 0)
    (hl : s.lh.length + 1 < nlog) : s.Roomy := by
  have hsum := h.2.sum_left_le
  rw [ho, Nat.zero_mul] at hsum
  refine ⟨⟨d, h⟩, by omega, fun q m hm => ?_⟩
  have hcount := h.2
  have := card_spent_none (f := s.spent) (p := q) (by simp [hm])
  rw [Counted, ho] at hcount
  omega

theorem Roomy.step {e : LogEvent} (h : s.Roomy) (he : Spends (maxopblocks - 1) s e)
    (hs' : s.step e = some s') : s'.Roomy := by
  obtain ⟨⟨d, hd⟩, hroom, hspent⟩ := h
  obtain ⟨d', -, hd'⟩ := hd.step hs'
  cases e with
  | beginOp p =>
    obtain ⟨hp, hb⟩ := step_beginOp.1 hs'
    obtain ⟨hphase, hn, rfl⟩ := beginOp_spec hb
    refine ⟨⟨d', hd'⟩, ?_, fun q m hm => ?_⟩
    · have hsum := hd'.2.sum_left_le
      dsimp only at hsum ⊢
      rcases Nat.eq_zero_or_pos s.outstanding with h0 | h0
      · -- The first call finds the log empty.
        have hat := hd.1.sound.atPhase
        rw [hphase] at hat
        rw [hat.2 h0, h0] at *
        simp only [List.length_nil, maxopblocks, nlog, logsize] at *
        omega
      · simp only [maxopblocks, nlog, logsize] at *
        omega
    · dsimp only at hm
      rcases eq_or_ne q p with rfl | hq
      · rw [update_self] at hm
        cases hm
        decide
      · rw [update_of_ne hq] at hm
        exact hspent q m hm
  | logWrite p b v =>
    obtain ⟨m, hm, -, hw⟩ := step_logWrite.1 hs'
    obtain ⟨hlen, -, rfl⟩ := logWrite_spec hw
    have hmlt := hspent p m hm
    rw [Spends, hm] at he
    refine ⟨⟨d', hd'⟩, ?_, fun q m' hm' => ?_⟩
    · have hsum := sum_update_add left s.spent p (some (if b ∈ s.lh then m else m + 1))
      rw [hm] at hsum
      dsimp only
      split
      · rename_i hmem
        rw [if_pos hmem] at hsum
        omega
      · rename_i hmem
        rw [if_neg hmem] at hsum
        have hlt := he.resolve_left hmem
        rw [List.length_append, List.length_singleton]
        have hm₀ : left (some m) = maxopblocks - 1 - m := rfl
        have hm₁ : left (some (m + 1)) = maxopblocks - 1 - (m + 1) := rfl
        omega
    · dsimp only at hm'
      rcases eq_or_ne q p with rfl | hq
      · rw [update_self] at hm'
        cases hm'
        split
        · exact hmlt
        · rename_i hmem
          have hlt := he.resolve_left hmem
          omega
      · rw [update_of_ne hq] at hm'
        exact hspent q m' hm'
  | endOp p =>
    obtain ⟨hp, he⟩ := step_endOp.1 hs'
    obtain ⟨-, rfl⟩ := endOp_spec he
    refine ⟨⟨d', hd'⟩, ?_, fun q m hm => ?_⟩
    · have hsum := sum_update_add left s.spent p none
      have hnone : left none = 0 := rfl
      dsimp only
      omega
    · dsimp only at hm
      rcases eq_or_ne q p with rfl | hq
      · rw [update_self] at hm
        cases hm
      · rw [update_of_ne hq] at hm
        exact hspent q m hm
  | advance =>
    obtain ⟨-, hsp, hlh⟩ := advance_spec (step_advance.1 hs')
    refine ⟨⟨d', hd'⟩, ?_, fun q m hm => hspent q m (by rwa [hsp] at hm)⟩
    rw [hsp]
    rcases hlh with hlh | hlh
    · rw [hlh]
      exact hroom
    · rw [hlh, List.length_nil]
      omega
  | crash =>
    cases hs'
    refine .of_follows hd' rfl ?_
    rcases hd.1.sound.head with hr | hr
    · simp only [boot, hr]
      decide
    · simp only [boot, hr]
      omega

/-- Three calls, of which each adds ten blocks to the log, but for the last block. -/
def threeCalls : List LogEvent :=
  .advance :: .beginOp 0 :: .beginOp 1 :: .beginOp 2 ::
    (List.range 29).map fun i => .logWrite (Fin.ofNat _ (i / 10)) (100 + i) 0

/-- The log never panics exactly if fewer blocks are added by each call than are put aside
    for it. -/
theorem no_panic_iff (k : ℕ) :
    (∀ disk es s e, readHead (disk logstart) = [] →
      Trace.Along step (Spends k) (boot disk) (es ++ [e]) →
        Trace.run step (boot disk) es = some s → ∀ x, s.call e ≠ some (.error x)) ↔
      k < maxopblocks := by
  constructor
  · intro h
    by_contra hk
    have halong : Trace.Along step (Spends maxopblocks) (boot 0)
        (threeCalls ++ [.logWrite 2 129 0]) := by
      decide +kernel
    obtain ⟨s, hs⟩ := Option.isSome_iff_exists.1
      (by decide +kernel : (Trace.run step (boot 0) threeCalls).isSome = true)
    have hfull : (Trace.run step (boot 0) threeCalls).all
        (fun s => (s.call (.logWrite 2 129 0)).any fun r => !r.isOk) = true := by
      decide +kernel
    rw [hs, Option.all_some, Option.any_eq_true] at hfull
    obtain ⟨r, hr, hbad⟩ := hfull
    cases r with
    | ok => cases hbad
    | error x =>
      exact h 0 threeCalls s _ rfl (halong.mono fun _ _ => Spends.mono (not_lt.1 hk)) hs x hr
  · intro hk disk es s e hd halong hs x
    have hboot : (boot disk).Roomy :=
      .of_follows (follows_boot hd) rfl (by simp only [boot, hd]; decide)
    have halong' := (Trace.along_append.1 halong).1.mono
      fun _ _ => Spends.mono (Nat.le_sub_one_of_lt hk)
    exact (Trace.run_inv (fun _ _ _ h he => h.step he) hboot halong' hs).ok e x

end Storage.Log
