import Mathlib

/-!
# Programs with loops

A program gets fuel, and each of its loops runs for at most so many rounds (`Prog`). It meets a
postcondition when with enough fuel it completes, always in the same way (`Meets`).

* `Meets.bind`: the rule of the sequence;
* `Meets.whileDo`, `Meets.whileList`: the rule of the loop, with an invariant that is indexed by
  what is left to do;
* `Meets.foldlM`: the rule of a loop over a list.
-/

namespace While

/-- Why a program does not complete. -/
inductive Stop
  | fault
  | outOfFuel
  deriving DecidableEq

/-- A program: its loops get fuel. -/
abbrev Prog := ReaderT ℕ (Except Stop)

/-- The program is not defined here. -/
def fault {α : Type} : Prog α := fun _ => .error .fault

/-- A value that has to be there. -/
def ofOption {α : Type} : Option α → Prog α
  | some a => pure a
  | none => fault

variable {σ α β τ : Type}

/-- At most so many rounds of a loop. -/
def rounds (cond : σ → Bool) (body : σ → Except Stop σ) : ℕ → σ → Except Stop σ
  | 0, _ => .error .outOfFuel
  | n + 1, s => if cond s then (body s).bind (rounds cond body n) else .ok s

/-- The loop `while (cond) body`. -/
def whileDo (cond : σ → Bool) (body : σ → Prog σ) (s : σ) : Prog σ := fun fuel =>
  rounds cond (fun s => body s fuel) fuel s

/-- With enough fuel the program completes with a value of a kind. -/
def Meets (x : Prog α) (Q : α → Prop) : Prop := ∃ a, Q a ∧ ∃ n, ∀ fuel ≥ n, x fuel = .ok a

variable {x : Prog α} {f : α → Prog β} {P P' : α → Prop} {Q : β → Prop} {s : σ}

theorem Meets.mono (h : Meets x P) (hP : ∀ a, P a → P' a) : Meets x P' := by
  obtain ⟨a, ha, hx⟩ := h
  exact ⟨a, hP a ha, hx⟩

/-- A program completes in one way only. -/
theorem Meets.and (h : Meets x P) (h' : Meets x P') : Meets x fun a => P a ∧ P' a := by
  obtain ⟨a, ha, n, hx⟩ := h
  obtain ⟨b, hb, m, hx'⟩ := h'
  have hab := (hx (max n m) (le_max_left ..)).symm.trans (hx' (max n m) (le_max_right ..))
  cases hab
  exact ⟨a, ⟨ha, hb⟩, n, hx⟩

theorem meets_pure {a : α} (h : P a) : Meets (pure a) P := ⟨a, h, 0, fun _ _ => rfl⟩

theorem Meets.bind (hx : Meets x P) (hf : ∀ a, P a → Meets (f a) Q) : Meets (x >>= f) Q := by
  obtain ⟨a, ha, n, hx⟩ := hx
  obtain ⟨b, hb, m, hf⟩ := hf a ha
  refine ⟨b, hb, max n m, fun fuel hfuel => ?_⟩
  change (x fuel).bind (fun a => f a fuel) = _
  rw [hx fuel (le_of_max_le_left hfuel)]
  exact hf fuel (le_of_max_le_right hfuel)

/-- The loop, from an invariant that is indexed by what is left to do. -/
theorem Meets.whileDo {ι : Type} {r : ι → ι → Prop} (hr : WellFounded r) {cond : σ → Bool}
    {body : σ → Prog σ} {I : ι → σ → Prop}
    (hbody : ∀ i s, I i s → cond s = true → Meets (body s) fun t => ∃ j, r j i ∧ I j t)
    {i : ι} (hs : I i s) : Meets (whileDo cond body s) fun t => cond t = false ∧ ∃ j, I j t := by
  -- the rounds that are needed do not depend on the fuel of the body
  suffices h : ∃ t, (cond t = false ∧ ∃ j, I j t) ∧ ∃ n m, ∀ fuel ≥ n, ∀ k ≥ m,
      rounds cond (fun s => body s fuel) k s = .ok t by
    obtain ⟨t, ht, n, m, h⟩ := h
    exact ⟨t, ht, max n m, fun fuel hfuel => h fuel (le_of_max_le_left hfuel) fuel
      (le_of_max_le_right hfuel)⟩
  induction i using hr.induction generalizing s with
  | _ i ih =>
    cases hc : cond s with
    | false =>
      refine ⟨s, ⟨hc, i, hs⟩, 0, 1, fun fuel _ k hk => ?_⟩
      obtain ⟨k, rfl⟩ := Nat.exists_eq_add_of_le' hk
      rw [rounds, hc]
      rfl
    | true =>
      obtain ⟨u, ⟨j, hj, hu⟩, l, hbody⟩ := hbody i s hs hc
      obtain ⟨t, ht, n, m, h⟩ := ih j hj hu
      refine ⟨t, ht, max n l, m + 1, fun fuel hfuel k hk => ?_⟩
      obtain ⟨k, rfl⟩ := Nat.exists_eq_add_of_le' (Nat.le_of_add_left_le hk)
      rw [rounds, if_pos hc, hbody fuel (le_of_max_le_right hfuel)]
      exact h fuel (le_of_max_le_left hfuel) k (by omega)

/-- A loop that takes the elements of a list one after the other, and then finds the end. -/
theorem Meets.whileList {cond : σ → Bool} {body : σ → Prog σ} {I : List τ → σ → Prop}
    {J : σ → Prop} (hI : ∀ l s, I l s → cond s = true) (hJ : ∀ s, J s → cond s = false)
    (hcons : ∀ a l s, I (a :: l) s → Meets (body s) (I l))
    (hnil : ∀ s, I [] s → Meets (body s) J) {l : List τ} (hs : I l s) :
    Meets (While.whileDo cond body s) J := by
  -- what is left: the rest of the list, or nothing
  let left : Option (List τ) → σ → Prop := fun o s => o.elim (J s) fun l => I l s
  let size : Option (List τ) → ℕ := fun o => o.elim 0 fun l => l.length + 1
  have hbody : ∀ o s, left o s → cond s = true →
      Meets (body s) fun t => ∃ o', size o' < size o ∧ left o' t := by
    intro o s ho hc
    cases o with
    | none => cases (hJ s ho).symm.trans hc
    | some l =>
      cases l with
      | nil => exact (hnil s ho).mono fun t ht => ⟨none, Nat.zero_lt_one, ht⟩
      | cons a l => exact (hcons a l s ho).mono fun t ht => ⟨some l, Nat.lt_succ_self _, ht⟩
  refine (Meets.whileDo (measure size).wf hbody (i := some l) hs).mono fun t ht => ?_
  obtain ⟨hc, o, ho⟩ := ht
  cases o with
  | none => exact ho
  | some l => cases (hI l t ho).symm.trans hc

/-- The loop over a list, from an invariant that is indexed by the elements that are left. -/
theorem Meets.foldlM {g : σ → τ → Prog σ} {I : List τ → σ → Prop}
    (hstep : ∀ a l s, I (a :: l) s → Meets (g s a) (I l)) {l : List τ} (hs : I l s) :
    Meets (l.foldlM g s) (I []) := by
  induction l generalizing s with
  | nil => exact meets_pure hs
  | cons a l ih =>
    rw [List.foldlM_cons]
    exact (hstep a l s hs).bind fun t ht => ih ht

end While
