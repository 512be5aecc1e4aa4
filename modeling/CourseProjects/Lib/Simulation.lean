import CourseProjects.Lib.Trace

/-!
# Simulations

A transition system simulates another one when each of its events is answered by a list of
events of the other one (`labels`), so that the states stay related.

* `run_simulates`: the trace of labels of a trace is one of the other system, and its state
  is related to that of the trace.
-/

namespace Trace

variable {σ ι τ κ : Type*}

/-- The events that answer those of a trace. -/
def labels (step : σ → ι → Option σ) (label : σ → ι → List κ) : σ → List ι → List κ
  | _, [] => []
  | s, e :: es => label s e ++ (step s e).elim [] fun s' => labels step label s' es

variable {step : σ → ι → Option σ} {step' : τ → κ → Option τ} {label : σ → ι → List κ}
  {P : σ → ι → Prop} {R : σ → τ → Prop} {s s' : σ} {t : τ} {es : List ι}

/-- A simulation of the guarded events is one of the guarded traces. -/
theorem run_simulates
    (hstep : ∀ s e s' t, R s t → P s e → step s e = some s' →
      ∃ t', run step' t (label s e) = some t' ∧ R s' t')
    (hR : R s t) (hP : Along step P s es) (h : run step s es = some s') :
    ∃ t', run step' t (labels step label s es) = some t' ∧ R s' t' := by
  induction es generalizing s t with
  | nil =>
    cases h
    exact ⟨t, rfl, hR⟩
  | cons e es ih =>
    obtain ⟨u, hu, h⟩ := Option.bind_eq_some_iff.1 h
    obtain ⟨t₁, ht₁, hR₁⟩ := hstep s e u t hR hP.1 hu
    obtain ⟨t₂, ht₂, hR₂⟩ := ih hR₁ (hP.2 u hu) h
    refine ⟨t₂, ?_, hR₂⟩
    rw [labels, hu, run_append, ht₁]
    exact ht₂

end Trace
