import CourseProjects.Lib.Transaction

/-!
# What transactions yield

`x.Yields s Q` says that `Q` holds of the value and of the state in which a completed run of `x`
from `s` ends. A transaction that does not complete yields anything.

* `Yields.bind`: from what the first step yields, the rest yields the result;
* `Yields.mono`: what is yielded may be weakened;
* `Avoids.bind`: a transaction avoids an error when each of its steps does.
-/

universe u

namespace Tx

variable {σ ε α β : Type u} {s : σ}

/-- Each completed run of a transaction from a state ends in a value and a state of a kind. -/
def Yields (x : Tx σ ε α) (s : σ) (Q : α → σ → Prop) : Prop :=
  ∀ a s', x.run s = .ok (a, s') → Q a s'

variable {x : Tx σ ε α} {f : α → Tx σ ε β} {P : α → σ → Prop} {Q : β → σ → Prop}

theorem Yields.mono {P' : α → σ → Prop} (h : Yields x s P) (hP : ∀ a t, P a t → P' a t) :
    Yields x s P' := fun a t hx => hP a t (h a t hx)

theorem Yields.and {P' : α → σ → Prop} (h : Yields x s P) (h' : Yields x s P') :
    Yields x s fun a t => P a t ∧ P' a t := fun a t hx => ⟨h a t hx, h' a t hx⟩

/-- The run itself is yielded. -/
theorem yields_run : Yields x s fun a t => x.run s = .ok (a, t) := fun _ _ h => h

theorem Yields.bind (hx : Yields x s P) (hf : ∀ a t, P a t → Yields (f a) t Q) :
    Yields (x >>= f) s Q := by
  intro b s' h
  obtain ⟨a, t, h, h'⟩ := bind_eq_ok.1 h
  exact hf a t (hx a t h) b s' h'

/-- The first step does not matter. -/
theorem yields_bind (hf : ∀ a t, Yields (f a) t Q) : Yields (x >>= f) s Q := by
  intro b s' h
  obtain ⟨a, t, -, h'⟩ := bind_eq_ok.1 h
  exact hf a t b s' h'

theorem yields_pure {a : α} (h : P a s) : Yields (pure a : Tx σ ε α) s P := by
  intro a' s' hx
  cases hx
  exact h

theorem yields_get_bind {f : σ → Tx σ ε β} (h : Yields (f s) s Q) : Yields (get >>= f) s Q := h

theorem yields_modify {f : σ → σ} {P : PUnit → σ → Prop} (h : P ⟨⟩ (f s)) :
    Yields (modify f : Tx σ ε PUnit) s P := by
  intro a s' hx
  cases hx
  exact h

/-- After a check that does not fail. -/
theorem yields_failIf_bind {c : Prop} [Decidable c] {e : ε} {f : PUnit → Tx σ ε β}
    (h : ¬ c → Yields (f ⟨⟩) s Q) : Yields (failIf c e >>= f) s Q := by
  intro b s' hx
  obtain ⟨hc, hx⟩ := failIf_bind_eq_ok.1 hx
  exact h hc b s' hx

/-- After a value that is there. -/
theorem yields_ofOption_bind {e : ε} {o : Option α} (h : ∀ a, o = some a → Yields (f a) s Q) :
    Yields (ofOption e o >>= f) s Q := by
  intro b s' hx
  obtain ⟨a, ho, hx⟩ := ofOption_bind_eq_ok.1 hx
  exact h a ho b s' hx

/-! ### Errors -/

/-- The transaction does not fail with an error from a state. -/
def Avoids (e : ε) (x : Tx σ ε α) (s : σ) : Prop := x.run s ≠ .error e

/-- It does not fail with the error at all. -/
def Never (e : ε) (x : Tx σ ε α) : Prop := ∀ s, Avoids e x s

variable {e e' : ε}

theorem Avoids.bind (hx : Avoids e x s) (hf : ∀ a t, x.run s = .ok (a, t) → Avoids e (f a) t) :
    Avoids e (x >>= f) s := by
  rw [Avoids, StateT.run_bind]
  cases h : x.run s with
  | error e' =>
    intro he
    cases he
    exact hx h
  | ok p => exact hf p.1 p.2 h

theorem avoids_get_bind {f : σ → Tx σ ε β} (h : Avoids e (f s) s) : Avoids e (get >>= f) s := h

theorem Never.bind (hx : Never e x) (hf : ∀ a, Never e (f a)) : Never e (x >>= f) :=
  fun s => (hx s).bind fun a t _ => hf a t

theorem never_pure (a : α) : Never e (pure a : Tx σ ε α) := fun _ h => nomatch h

theorem never_get : Never e (get : Tx σ ε σ) := fun _ h => nomatch h

theorem never_set (t : σ) : Never e (set t : Tx σ ε PUnit) := fun _ h => nomatch h

theorem never_modify (f : σ → σ) : Never e (modify f : Tx σ ε PUnit) := fun _ h => nomatch h

theorem never_throw (h : e' ≠ e) : Never e (throw e' : Tx σ ε α) := by
  intro s he
  cases he
  exact h rfl

theorem never_failIf {c : Prop} [Decidable c] (h : e' ≠ e) :
    Never e (failIf c e' : Tx σ ε PUnit) := by
  unfold failIf
  split
  · exact never_throw h
  · exact never_pure _

/-- A value that is there. -/
theorem avoids_ofOption {o : Option α} (h : o ≠ none) :
    Avoids e (ofOption e' o : Tx σ ε α) s := by
  obtain ⟨a, rfl⟩ := Option.ne_none_iff_exists'.1 h
  exact never_pure a s

end Tx
