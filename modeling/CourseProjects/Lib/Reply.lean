import Mathlib

/-!
# Systems that answer calls

A system answers each call with a reply and goes on in a next state. It agrees with
another one along a list of calls when the replies are the same and the states stay
related (`replies_eq`): then it is enough that one call agrees.
-/

namespace Reply

variable {σ τ ι ρ : Type*}

/-- The replies to a list of calls, and the state after it. -/
def replies (call : σ → ι → ρ × σ) : σ → List ι → List ρ × σ
  | s, [] => ([], s)
  | s, e :: es => ((call s e).1 :: (replies call (call s e).2 es).1,
      (replies call (call s e).2 es).2)

/-- The guard `P` holds at every call of a list. -/
def Along (call : σ → ι → ρ × σ) (P : σ → ι → Prop) : σ → List ι → Prop
  | _, [] => True
  | s, e :: es => P s e ∧ Along call P (call s e).2 es

instance decidableAlong {call : σ → ι → ρ × σ} {P : σ → ι → Prop} [∀ s e, Decidable (P s e)] :
    ∀ s es, Decidable (Along call P s es)
  | _, [] => inferInstanceAs (Decidable True)
  | s, e :: es =>
    haveI : Decidable (Along call P (call s e).2 es) := decidableAlong _ es
    inferInstanceAs (Decidable (_ ∧ _))

variable {call : σ → ι → ρ × σ} {call' : τ → ι → ρ × τ} {P : σ → ι → Prop} {R : σ → τ → Prop}
  {s : σ} {t : τ}

theorem along_of_forall {Q : ι → Prop} {es : List ι} (h : ∀ e ∈ es, Q e) :
    Along call (fun _ => Q) s es := by
  induction es generalizing s with
  | nil => trivial
  | cons e es ih =>
    exact ⟨h e List.mem_cons_self, ih fun e he => h e (List.mem_cons_of_mem _ he)⟩

/-- Guards that agree. -/
theorem along_congr {Q : σ → ι → Prop} {es : List ι} (h : ∀ s e, P s e ↔ Q s e) :
    Along call P s es ↔ Along call Q s es := by
  induction es generalizing s with
  | nil => exact Iff.rfl
  | cons e es ih => exact and_congr (h s e) ih

/-- Two guards together. -/
theorem Along.and {Q : σ → ι → Prop} {es : List ι} (hP : Along call P s es)
    (hQ : Along call Q s es) : Along call (fun s e => P s e ∧ Q s e) s es := by
  induction es generalizing s with
  | nil => trivial
  | cons e es ih => exact ⟨⟨hP.1, hQ.1⟩, ih hP.2 hQ.2⟩

/-- Two systems agree along a list of calls when they agree at each call. -/
theorem replies_eq
    (hstep : ∀ s t e, R s t → P s e → (call s e).1 = (call' t e).1 ∧ R (call s e).2 (call' t e).2)
    (hR : R s t) {es : List ι} (hP : Along call P s es) :
    (replies call s es).1 = (replies call' t es).1 ∧
      R (replies call s es).2 (replies call' t es).2 := by
  induction es generalizing s t with
  | nil => exact ⟨rfl, hR⟩
  | cons e es ih =>
    obtain ⟨hr, hR'⟩ := hstep s t e hR hP.1
    obtain ⟨hrs, hRs⟩ := ih hR' hP.2
    exact ⟨by rw [replies, replies, hr, hrs], hRs⟩

/-- An invariant kept by each guarded call holds after the calls. -/
theorem replies_inv {I : σ → Prop} (hstep : ∀ s e, I s → P s e → I (call s e).2) (hs : I s)
    {es : List ι} (hP : Along call P s es) : I (replies call s es).2 := by
  induction es generalizing s with
  | nil => exact hs
  | cons e es ih => exact ih (hstep s e hs hP.1) hP.2

/-- Where the guard of a call is what it takes for `P` to hold after it, `P` holds in every state
    that a run reaches exactly when the guard holds at every call. -/
theorem forall_prefix_iff_along {I Q : σ → Prop} (hI : ∀ s, I s → Q s)
    (hstep : ∀ s e, I s → (P s e ↔ Q (call s e).2)) (hkeep : ∀ s e, I s → P s e → I (call s e).2)
    (hs : I s) {es : List ι} :
    (∀ fs, fs <+: es → Q (replies call s fs).2) ↔ Along call P s es := by
  induction es generalizing s with
  | nil => exact iff_of_true (fun fs hfs => by rw [List.prefix_nil.1 hfs]; exact hI s hs) trivial
  | cons e es ih =>
    constructor
    · intro h
      have he : P s e := (hstep s e hs).2 (h [e] (List.prefix_append [e] es))
      refine ⟨he, (ih (hkeep s e hs he)).1 fun fs hfs => ?_⟩
      exact h (e :: fs) ((List.prefix_cons_inj e).2 hfs)
    · rintro ⟨he, hes⟩ fs hfs
      rcases List.prefix_cons_iff.1 hfs with rfl | ⟨fs', rfl, hfs'⟩
      · exact hI s hs
      · exact (ih (hkeep s e hs he)).2 hes fs' hfs'

end Reply
