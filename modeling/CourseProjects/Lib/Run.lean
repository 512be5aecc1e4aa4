import Mathlib

/-!
# Runs of a machine

A machine answers calls: in a state `s : σ`, a call `c : ι` either faults or
returns a result and the next state. A run answers a list of calls one after
the other (`run`).

* `run_append`: a run of two lists is a run of the first followed by one of the
  second.
* `run_inv`: an invariant kept by each call that meets a guard holds at the end
  of every run whose calls meet it (`Along`), and no such run faults.
* `run_simulates`: a machine simulating, call by call, one that never faults
  returns what that machine returns.
* `run_bisim`: two machines in related states, related after each call, return
  the same along every run, faults included (`Rel`).
-/

namespace Run

variable {σ σ' τ ι ρ ε : Type*}

/-- The results of a list of calls, and the state after them. -/
def run (step : σ → ι → Except ε (ρ × σ)) : σ → List ι → Except ε (List ρ × σ)
  | s, [] => .ok ([], s)
  | s, c :: cs =>
    match step s c with
    | .error e => .error e
    | .ok (r, s) =>
      match run step s cs with
      | .error e => .error e
      | .ok (rs, s) => .ok (r :: rs, s)

/-- The results of a list of calls. -/
def results (step : σ → ι → Except ε (ρ × σ)) (s : σ) (cs : List ι) : Except ε (List ρ) :=
  (run step s cs).map Prod.fst

/-- The guard `P` holds at every call of a run. -/
def Along (step : σ → ι → Except ε (ρ × σ)) (P : σ → ι → Prop) : σ → List ι → Prop
  | _, [] => True
  | s, c :: cs => P s c ∧ ∀ r s', step s c = .ok (r, s') → Along step P s' cs

variable {step : σ → ι → Except ε (ρ × σ)} {P : σ → ι → Prop}

theorem eq_ok_of_toOption {α : Type*} {x : Except ε α} {a : α} (h : a ∈ x.toOption) : x = .ok a := by
  cases x with
  | error e => cases h
  | ok b => exact congrArg Except.ok (Option.some.inj h)

@[simp] theorem run_nil (s : σ) : run step s [] = .ok ([], s) := rfl

theorem run_cons_ok {s s' : σ} {c : ι} {r : ρ} (h : step s c = .ok (r, s')) (cs : List ι) :
    run step s (c :: cs) = (run step s' cs).map fun p => (r :: p.1, p.2) := by
  simp only [run, h]
  cases run step s' cs <;> rfl

theorem run_cons_error {s : σ} {c : ι} {e : ε} (h : step s c = .error e) (cs : List ι) :
    run step s (c :: cs) = .error e := by
  rw [run, h]

/-- A run of two lists of calls. -/
theorem run_append {s s' : σ} {cs : List ι} {rs : List ρ} (h : run step s cs = .ok (rs, s'))
    (ds : List ι) :
    run step s (cs ++ ds) = (run step s' ds).map fun p => (rs ++ p.1, p.2) := by
  induction cs generalizing s rs with
  | nil =>
    cases h
    cases hr : run step s' ds <;> simp [hr, Except.map]
  | cons c cs ih =>
    rcases hc : step s c with e | ⟨r, s₁⟩
    · rw [run_cons_error hc] at h
      cases h
    · rw [run_cons_ok hc] at h
      rcases hr : run step s₁ cs with e | ⟨rs₁, s₂⟩
      · rw [hr] at h
        cases h
      · simp only [hr, Except.map, Except.ok.injEq, Prod.mk.injEq] at h
        obtain ⟨rfl, rfl⟩ := h
        rw [List.cons_append, run_cons_ok hc, ih hr]
        cases run step s₂ ds <;> rfl

theorem Along.mono {Q : σ → ι → Prop} (hPQ : ∀ s c, P s c → Q s c) {s : σ} {cs : List ι}
    (h : Along step P s cs) : Along step Q s cs := by
  induction cs generalizing s with
  | nil => trivial
  | cons c cs ih => exact ⟨hPQ _ _ h.1, fun r s' hs => ih (h.2 r s' hs)⟩

theorem along_of_forall {s : σ} {cs : List ι} (h : ∀ s, ∀ c ∈ cs, P s c) : Along step P s cs := by
  induction cs generalizing s with
  | nil => trivial
  | cons c cs ih =>
    exact ⟨h s c List.mem_cons_self, fun _ _ _ => ih fun s c hc => h s c (List.mem_cons_of_mem _ hc)⟩

/-- An invariant of the guarded calls is an invariant of the guarded runs. -/
theorem run_inv {Inv : σ → Prop}
    (hstep : ∀ s c, Inv s → P s c → ∃ r s', step s c = .ok (r, s') ∧ Inv s')
    {s : σ} {cs : List ι} (hs : Inv s) (hP : Along step P s cs) :
    ∃ rs s', run step s cs = .ok (rs, s') ∧ Inv s' := by
  induction cs generalizing s with
  | nil => exact ⟨[], s, rfl, hs⟩
  | cons c cs ih =>
    obtain ⟨r, s₁, hc, hs₁⟩ := hstep s c hs hP.1
    obtain ⟨rs, s', hr, hs'⟩ := ih hs₁ (hP.2 r s₁ hc)
    exact ⟨r :: rs, s', by rw [run_cons_ok hc, hr]; rfl, hs'⟩

/-- The run of a machine that never faults. -/
def runTotal (step : τ → ι → ρ × τ) : τ → List ι → List ρ × τ
  | a, [] => ([], a)
  | a, c :: cs =>
    let (r, a) := step a c
    let (rs, a) := runTotal step a cs
    (r :: rs, a)

theorem runTotal_append {step : τ → ι → ρ × τ} (a : τ) (cs ds : List ι) :
    runTotal step a (cs ++ ds) =
      ((runTotal step a cs).1 ++ (runTotal step (runTotal step a cs).2 ds).1,
        (runTotal step (runTotal step a cs).2 ds).2) := by
  induction cs generalizing a with
  | nil => rfl
  | cons c cs ih => simp [runTotal, ih]

/-- A run of a machine simulating, call by call, one that never faults. -/
theorem run_simulates {stepT : τ → ι → ρ × τ} {R : σ → τ → Prop}
    (hstep : ∀ s a c, R s a → P s c →
      ∃ s', step s c = .ok ((stepT a c).1, s') ∧ R s' (stepT a c).2)
    {s : σ} {a : τ} {cs : List ι} (h : R s a) (hP : Along step P s cs) :
    ∃ s', run step s cs = .ok ((runTotal stepT a cs).1, s') ∧ R s' (runTotal stepT a cs).2 := by
  induction cs generalizing s a with
  | nil => exact ⟨s, rfl, h⟩
  | cons c cs ih =>
    obtain ⟨s₁, hc, h₁⟩ := hstep s a c h hP.1
    obtain ⟨s', hr, h'⟩ := ih h₁ (hP.2 _ s₁ hc)
    exact ⟨s', by rw [run_cons_ok hc, hr]; rfl, h'⟩

/-! ### Related computations -/

/-- Two computations fault alike, or return related results. -/
inductive Rel {α β : Type*} (R : α → β → Prop) : Except ε α → Except ε β → Prop
  | ok {a : α} {b : β} : R a b → Rel R (.ok a) (.ok b)
  | error (e : ε) : Rel R (.error e) (.error e)

section Rel

variable {α β α' β' : Type} {R : α → β → Prop} {S : α' → β' → Prop}

theorem Rel.bind {x : Except ε α} {y : Except ε β} {f : α → Except ε α'} {g : β → Except ε β'}
    (h : Rel R x y) (hfg : ∀ a b, R a b → Rel S (f a) (g b)) : Rel S (x >>= f) (y >>= g) := by
  cases h with
  | ok h => exact hfg _ _ h
  | error e => exact .error e

/-- The same computation on both sides. -/
theorem Rel.bind_same (x : Except ε α) {f : α → Except ε α'} {g : α → Except ε β'}
    (hfg : ∀ a, Rel S (f a) (g a)) : Rel S (x >>= f) (x >>= g) := by
  cases x with
  | ok a => exact hfg a
  | error e => exact .error e

/-- The same branch on both sides. -/
theorem Rel.ite {p : Prop} [Decidable p] {x x' : Except ε α} {y y' : Except ε β}
    (h : Rel R x y) (h' : Rel R x' y') : Rel R (if p then x else x') (if p then y else y') := by
  split
  · exact h
  · exact h'

theorem Rel.foldlM {f : α → ι → Except ε α} {g : β → ι → Except ε β}
    (hfg : ∀ a b i, R a b → Rel R (f a i) (g b i)) {l : List ι} {a : α} {b : β} (h : R a b) :
    Rel R (l.foldlM f a) (l.foldlM g b) := by
  induction l generalizing a b with
  | nil => exact .ok h
  | cons i l ih =>
    rw [List.foldlM_cons, List.foldlM_cons]
    exact (hfg a b i h).bind fun a b h => ih h

end Rel

/-- Two machines return the same from related states. -/
theorem run_bisim {step' : σ' → ι → Except ε (ρ × σ')} {R : σ → σ' → Prop}
    (hstep : ∀ s s' c, R s s' → Rel (fun p p' => p.1 = p'.1 ∧ R p.2 p'.2) (step s c) (step' s' c))
    {s : σ} {s' : σ'} (h : R s s') (cs : List ι) :
    results step s cs = results step' s' cs := by
  induction cs generalizing s s' with
  | nil => rfl
  | cons c cs ih =>
    have hc := hstep s s' c h
    generalize hx : step s c = x at hc
    generalize hx' : step' s' c = x' at hc
    cases hc with
    | error e =>
      rw [results, results, run_cons_error hx, run_cons_error hx']
      rfl
    | @ok a b hab =>
      obtain ⟨r, s₁⟩ := a
      obtain ⟨r', s₁'⟩ := b
      obtain ⟨rfl, h₁⟩ := hab
      have := ih h₁
      rw [results, results] at this ⊢
      rw [run_cons_ok hx, run_cons_ok hx']
      -- Both runs go on to the same results or the same fault.
      cases h₂ : run step s₁ cs <;> cases h₃ : run step' s₁' cs <;>
        simp_all [Except.map]

end Run
