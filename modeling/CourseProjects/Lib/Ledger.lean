import CourseProjects.Lib.Transaction

/-!
# Ledgers

A ledger says of two states by how much the books differ: a relation for each amount, which
holds of a state and itself for nothing (`Ledger.zero`), and adds up (`Ledger.add`). A
transaction costs an amount, that may depend on what it returns, when each completed run of
it leads into a state that is related by this amount (`Costs`).

* `Costs.bind`: the costs of the steps add up;
* `Costs.congr`: a cost may be written in another way.
-/

universe u v

/-- A relation for each amount, which adds up. -/
structure Ledger {σ : Type u} {L : Type v} [AddCommGroup L] (R : L → σ → σ → Prop) : Prop where
  zero (s : σ) : R 0 s s
  add {a b : L} {s t v : σ} (h : R a s t) (h' : R b t v) : R (a + b) s v

namespace Tx

variable {σ ε α β : Type u} {L : Type v} {R : L → σ → σ → Prop}

/-- Each completed run of a transaction comes at the cost of what it returns. -/
def Costs (R : L → σ → σ → Prop) (x : Tx σ ε α) (q : α → L) : Prop :=
  ∀ s a s', x.run s = .ok (a, s') → R (q a) s s'

variable {x : Tx σ ε α} {f : α → Tx σ ε β} {q : α → L} {r : β → L}

theorem Costs.congr {q' : α → L} (h : Costs R x q) (hq : ∀ a, q a = q' a) : Costs R x q' :=
  fun s a s' hx => hq a ▸ h s a s' hx

variable [AddCommGroup L]

theorem costs_pure (hR : Ledger R) {a : α} (h : q a = 0) : Costs R (pure a : Tx σ ε α) q := by
  rintro s a' s' hx
  cases hx
  rw [h]
  exact hR.zero s

/-- What is left of the cost after the first step is the cost of the rest. -/
theorem Costs.bind (hR : Ledger R) (hx : Costs R x q)
    (hf : ∀ a, Costs R (f a) fun b => r b - q a) : Costs R (x >>= f) r := by
  intro s b s' h
  obtain ⟨a, t, h, h'⟩ := bind_eq_ok.1 h
  have := hR.add (hx s a t h) (hf a t b s' h')
  rwa [add_sub_cancel] at this

/-- A first step that costs nothing. -/
theorem Costs.seq (hR : Ledger R) (hx : Costs R x 0) (hf : ∀ a, Costs R (f a) r) :
    Costs R (x >>= f) r :=
  hx.bind hR fun a => (hf a).congr fun b => by rw [Pi.zero_apply, sub_zero]

theorem costs_get (hR : Ledger R) : Costs R (get : Tx σ ε σ) 0 := by
  intro s a s' h
  cases h
  exact hR.zero s

theorem costs_failIf (hR : Ledger R) {c : Prop} [Decidable c] {e : ε} :
    Costs R (failIf c e : Tx σ ε PUnit) 0 := by
  intro s a s' h
  obtain ⟨-, h⟩ := failIf_eq_ok.1 h
  cases h
  exact hR.zero s

theorem costs_ofOption (hR : Ledger R) {e : ε} {o : Option α} :
    Costs R (ofOption e o : Tx σ ε α) 0 := by
  intro s a s' h
  obtain ⟨-, rfl⟩ := ofOption_eq_ok.1 h
  exact hR.zero s'

end Tx
