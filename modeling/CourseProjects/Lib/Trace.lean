import Mathlib

/-!
# Traces of a transition system

A transition system answers events: in a state `s : σ`, an event `e : ι` either
is not possible (`none`) or leads to the next state. A trace is a list of events,
each possible where it comes (`run`).

* `run_inv`: an invariant kept by each event that meets a guard holds at the end
  of every trace whose events meet it (`Along`).
* `along_iff_prefix`: what each event keeps exactly when it meets a guard holds all along
  exactly the traces that meet it.
* `count_le`: a measure that grows at each event of a kind, and never shrinks,
  bounds the number of events of that kind in a trace (`count`).
-/

namespace Trace

variable {σ ι : Type*}

/-- The state after a list of events. -/
def run (step : σ → ι → Option σ) : σ → List ι → Option σ
  | s, [] => some s
  | s, e :: es => (step s e).bind fun s => run step s es

/-- The guard `P` holds at every event of a trace. -/
def Along (step : σ → ι → Option σ) (P : σ → ι → Prop) : σ → List ι → Prop
  | _, [] => True
  | s, e :: es => P s e ∧ ∀ s', step s e = some s' → Along step P s' es

instance decidableAlong {step : σ → ι → Option σ} {P : σ → ι → Prop}
    [∀ s e, Decidable (P s e)] : ∀ s es, Decidable (Along step P s es)
  | _, [] => inferInstanceAs (Decidable True)
  | s, e :: es =>
    haveI : DecidablePred fun s' => Along step P s' es := fun s' => decidableAlong s' es
    inferInstanceAs (Decidable (P s e ∧ ∀ s' ∈ step s e, Along step P s' es))

/-- The number of events of a kind in a trace. -/
def count (step : σ → ι → Option σ) (Q : σ → ι → Bool) : σ → List ι → ℕ
  | _, [] => 0
  | s, e :: es =>
    (if Q s e then 1 else 0) +
      match step s e with
      | none => 0
      | some s' => count step Q s' es

variable {step : σ → ι → Option σ} {P : σ → ι → Prop} {s s' : σ} {es : List ι}

@[simp] theorem run_nil (s : σ) : run step s [] = some s := rfl

theorem run_cons (s : σ) (e : ι) (es : List ι) :
    run step s (e :: es) = (step s e).bind fun s => run step s es := rfl

/-- A trace of two lists of events. -/
theorem run_append (s : σ) (es fs : List ι) :
    run step s (es ++ fs) = (run step s es).bind fun s => run step s fs := by
  induction es generalizing s with
  | nil => rfl
  | cons e es ih =>
    rw [List.cons_append, run_cons, run_cons, Option.bind_assoc]
    exact congrArg _ (funext fun s => ih s)

theorem Along.mono {Q : σ → ι → Prop} (hPQ : ∀ s e, P s e → Q s e) (h : Along step P s es) :
    Along step Q s es := by
  induction es generalizing s with
  | nil => trivial
  | cons e es ih => exact ⟨hPQ _ _ h.1, fun s' hs => ih (h.2 s' hs)⟩

theorem along_of_forall (h : ∀ s, ∀ e ∈ es, P s e) : Along step P s es := by
  induction es generalizing s with
  | nil => trivial
  | cons e es ih =>
    exact ⟨h s e List.mem_cons_self, fun _ _ => ih fun s e he => h s e (List.mem_cons_of_mem _ he)⟩

/-- A trace meets a guard when its first part does, and then the rest. -/
theorem along_append {fs : List ι} :
    Along step P s (es ++ fs) ↔
      Along step P s es ∧ ∀ s', run step s es = some s' → Along step P s' fs := by
  induction es generalizing s with
  | nil => simp [Along]
  | cons e es ih =>
    simp only [List.cons_append, Along, run_cons, Option.bind_eq_some_iff, ih]
    constructor
    · rintro ⟨h, hs⟩
      exact ⟨⟨h, fun t ht => (hs t ht).1⟩, fun s' ⟨t, ht, hr⟩ => (hs t ht).2 s' hr⟩
    · rintro ⟨⟨h, hs⟩, hr⟩
      exact ⟨h, fun t ht => ⟨hs t ht, fun s' h' => hr s' ⟨t, ht, h'⟩⟩⟩

/-- An invariant of the guarded events is an invariant of the guarded traces. -/
theorem run_inv {I : σ → Prop}
    (hstep : ∀ s e s', I s → P s e → step s e = some s' → I s')
    (hs : I s) (hP : Along step P s es) (h : run step s es = some s') : I s' := by
  induction es generalizing s with
  | nil =>
    cases h
    exact hs
  | cons e es ih =>
    obtain ⟨t, ht, h⟩ := Option.bind_eq_some_iff.1 h
    exact ih (hstep s e t hs hP.1 ht) (hP.2 t ht) h

/-- Two guards that are the same wherever an invariant holds, which one of them keeps, are met
    by the same traces. -/
theorem along_congr {Q : σ → ι → Prop} {G : ι → Prop} {I : σ → Prop}
    (hiff : ∀ s e, I s → G e → (P s e ↔ Q s e))
    (hstep : ∀ s e s', I s → G e → Q s e → step s e = some s' → I s')
    (hs : I s) (hG : ∀ e ∈ es, G e) : Along step P s es ↔ Along step Q s es := by
  induction es generalizing s with
  | nil => exact Iff.rfl
  | cons e es ih =>
    have he := hG e List.mem_cons_self
    have hG := fun e h => hG e (List.mem_cons_of_mem _ h)
    refine (and_congr_left' (hiff s e hs he)).trans (and_congr_right fun hq => ?_)
    exact forall_congr' fun s' => imp_congr_right fun h => ih (hstep s e s' hs he hq h) hG

/-- What each event keeps exactly when it meets a guard holds all along a trace exactly when its
    events meet it. -/
theorem along_iff_prefix {I A : σ → Prop}
    (hstep : ∀ s e s', I s → A s → step s e = some s' → (A s' ↔ P s e))
    (hkeep : ∀ s e s', I s → step s e = some s' → I s') (hnone : ∀ s e, step s e = none → P s e)
    (hI : I s) (hA : A s) :
    Along step P s es ↔ ∀ fs, fs <+: es → ∀ t, run step s fs = some t → A t := by
  induction es generalizing s with
  | nil =>
    refine iff_of_true trivial fun fs hfs t ht => ?_
    rw [List.prefix_nil.1 hfs] at ht
    cases ht
    exact hA
  | cons e es ih =>
    constructor
    · rintro ⟨he, hs⟩ fs hfs t ht
      cases fs with
      | nil =>
        cases ht
        exact hA
      | cons f fs =>
        obtain ⟨rfl, hfs'⟩ := List.cons_prefix_cons.1 hfs
        obtain ⟨s', hs', ht⟩ := Option.bind_eq_some_iff.1 ht
        exact (ih (hkeep s f s' hI hs') ((hstep s f s' hI hA hs').2 he)).1 (hs s' hs') fs hfs' t ht
    · intro h
      cases hs : step s e with
      | none =>
        refine ⟨hnone s e hs, fun s' hs' => ?_⟩
        rw [hs] at hs'
        cases hs'
      | some s₁ =>
        have hA₁ : A s₁ := h [e] (List.cons_prefix_cons.2 ⟨rfl, List.nil_prefix⟩) s₁ (by
          rw [run_cons, hs]
          rfl)
        refine ⟨(hstep s e s₁ hI hA hs).1 hA₁, fun s' hs' => ?_⟩
        rw [hs] at hs'
        cases hs'
        refine (ih (hkeep s e _ hI hs) hA₁).2 fun fs hfs t ht => ?_
        refine h (e :: fs) (List.cons_prefix_cons.2 ⟨rfl, hfs⟩) t ?_
        rw [run_cons, hs]
        exact ht

/-- A measure bounds the number of events that make it grow. -/
theorem count_le {Q : σ → ι → Bool} {I : σ → Prop} {f : σ → ℕ}
    (hstep : ∀ s e s', I s → P s e → step s e = some s' →
      I s' ∧ f s + (if Q s e then 1 else 0) ≤ f s')
    (hs : I s) (hP : Along step P s es) (h : run step s es = some s') :
    I s' ∧ f s + count step Q s es ≤ f s' := by
  induction es generalizing s with
  | nil =>
    cases h
    exact ⟨hs, Nat.le_refl _⟩
  | cons e es ih =>
    obtain ⟨t, ht, h⟩ := Option.bind_eq_some_iff.1 h
    obtain ⟨hi, hf⟩ := hstep s e t hs hP.1 ht
    obtain ⟨hi', hf'⟩ := ih hi (hP.2 t ht) h
    refine ⟨hi', ?_⟩
    rw [count, ht]
    calc f s + ((if Q s e then 1 else 0) + count step Q t es)
        = f s + (if Q s e then 1 else 0) + count step Q t es := (Nat.add_assoc ..).symm
      _ ≤ f t + count step Q t es := Nat.add_le_add_right hf _
      _ ≤ f s' := hf'

end Trace
