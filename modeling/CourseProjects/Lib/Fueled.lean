import Mathlib

/-!
# Computations with fuel

Interpreters whose recursion is bounded by fuel. A computation (`Comp`) runs on a state, and runs
out of fuel, fails with an error, or returns a value. A failure keeps the state.

* `Returns`: the rules for values;
* `Le`: a computation with more fuel;
* `Same`: two computations that end alike, up to a relation of the values;
* `limit`: what comes of a computation with enough fuel (`eventually_limit`);
* `Traced`: the events of a computation follow a law, also when the fuel runs out.
-/

namespace Fueled

/-- A computation on a state: nothing comes of it when the fuel runs out. -/
abbrev Comp (σ ε : Type) := ExceptT ε (StateT σ Option)

variable {σ ε α β γ δ : Type}

/-- How a computation ends. -/
def outcome (x : Comp σ ε α) (s : σ) : Option (Except ε α × σ) := StateT.run (ExceptT.run x) s

/-- The fuel has run out. -/
def outOfFuel : Comp σ ε α := ExceptT.mk fun _ => none

variable {x x' : Comp σ ε α} {y : Comp σ ε β} {f f' : α → Comp σ ε β} {g : β → Comp σ ε γ}
  {s t u : σ} {a : α} {b : β} {e : ε}

theorem outcome_get : outcome (get : Comp σ ε σ) s = some (.ok s, s) := rfl

theorem outcome_set : outcome (set t : Comp σ ε PUnit) s = some (.ok ⟨⟩, t) := rfl

theorem outcome_bind : outcome (x >>= f) s = (outcome x s).bind fun r =>
    match r.1 with
    | .ok a => outcome (f a) r.2
    | .error e => some (.error e, r.2) := by
  change (outcome x s).bind _ = _
  cases h : outcome x s with
  | none => rfl
  | some r =>
    obtain ⟨r, t⟩ := r
    cases r <;> rfl

/-! ### Values -/

/-- A computation returns a value, and leaves a state. -/
def Returns (x : Comp σ ε α) (s : σ) (a : α) (t : σ) : Prop := outcome x s = some (.ok a, t)

theorem returns_pure : Returns (pure a : Comp σ ε α) s a s := rfl

theorem Returns.outcome_bind (hx : Returns x s a t) :
    outcome (x >>= f) s = outcome (f a) t := by
  rw [Fueled.outcome_bind, show outcome x s = _ from hx]
  rfl

theorem Returns.bind (hx : Returns x s a t) (hf : Returns (f a) t b u) :
    Returns (x >>= f) s b u := hx.outcome_bind.trans hf

theorem Returns.unique {a' : α} {t' : σ} (h : Returns x s a t) (h' : Returns x s a' t') :
    a = a' ∧ t = t' := by
  cases Option.some.inj (h.symm.trans h')
  exact ⟨rfl, rfl⟩

/-! ### More fuel -/

/-- What comes of the one comes of the other. -/
def Le (x x' : Comp σ ε α) : Prop := ∀ s r, outcome x s = some r → outcome x' s = some r

theorem Le.refl (x : Comp σ ε α) : Le x x := fun _ _ h => h

theorem Le.outOfFuel (x : Comp σ ε α) : Le outOfFuel x := fun _ _ h => nomatch h

theorem Le.bind (hx : Le x x') (hf : ∀ a, Le (f a) (f' a)) : Le (x >>= f) (x' >>= f') := by
  intro s r h
  rw [outcome_bind] at h
  obtain ⟨⟨o, t⟩, ho, h⟩ := Option.bind_eq_some_iff.1 h
  rw [outcome_bind, hx s _ ho, Option.bind_some]
  cases o with
  | ok a => exact hf a t r h
  | error e => exact h

theorem Returns.le (h : Returns x s a t) (hx : Le x x') : Returns x' s a t := hx s _ h

/-! ### Computations that end alike -/

/-- Both run out of fuel, or fail alike, or return related values, and leave the same state. -/
inductive Alike (R : α → β → Prop) :
    Option (Except ε α × σ) → Option (Except ε β × σ) → Prop
  | outOfFuel : Alike R none none
  | error (e : ε) (t : σ) : Alike R (some (.error e, t)) (some (.error e, t))
  | ok {a : α} {b : β} (t : σ) : R a b → Alike R (some (.ok a, t)) (some (.ok b, t))

/-- From every state, both computations end alike. -/
def Same (R : α → β → Prop) (x : Comp σ ε α) (y : Comp σ ε β) : Prop :=
  ∀ s, Alike R (outcome x s) (outcome y s)

variable {R : α → β → Prop} {Q : γ → δ → Prop}

theorem same_outOfFuel : Same R (outOfFuel : Comp σ ε α) outOfFuel := fun _ => .outOfFuel

theorem same_pure (h : R a b) : Same R (pure a : Comp σ ε α) (pure b) := fun s => .ok s h

theorem same_throw (e : ε) : Same R (throw e : Comp σ ε α) (throw e) := fun s => .error e s

theorem Same.bind {f : α → Comp σ ε γ} {g : β → Comp σ ε δ} (hx : Same R x y)
    (hf : ∀ a b, R a b → Same Q (f a) (g b)) : Same Q (x >>= f) (y >>= g) := by
  intro s
  have h := hx s
  rw [outcome_bind, outcome_bind]
  generalize outcome x s = o, outcome y s = o' at h ⊢
  cases h with
  | outOfFuel => exact .outOfFuel
  | error e t => exact .error e t
  | ok t h => exact hf _ _ h t

theorem Same.mono {R' : α → β → Prop} (h : Same R x y) (hR : ∀ a b, R a b → R' a b) :
    Same R' x y := by
  intro s
  have h' := h s
  generalize outcome x s = o, outcome y s = o' at h' ⊢
  cases h' with
  | outOfFuel => exact .outOfFuel
  | error e t => exact .error e t
  | ok t h => exact .ok t (hR _ _ h)

theorem same_refl (x : Comp σ ε α) : Same Eq x x := by
  intro s
  rcases outcome x s with _ | ⟨_ | a, t⟩
  · exact .outOfFuel
  · exact .error _ t
  · exact .ok t rfl

theorem Same.trans {y : Comp σ ε β} {z : Comp σ ε γ} {S : γ → β → Prop} {T : α → γ → Prop}
    (hx : Same R x y) (hz : Same S z y) (hT : ∀ a b c, R a b → S c b → T a c) : Same T x z := by
  intro s
  have hx := hx s
  have hz := hz s
  generalize outcome x s = o, outcome y s = o', outcome z s = o'' at hx hz ⊢
  cases hx with
  | outOfFuel =>
    cases hz
    exact .outOfFuel
  | error e t =>
    cases hz
    exact .error e t
  | ok t h =>
    cases hz with
    | ok _ h' => exact .ok t (hT _ _ _ h h')

/-! ### Enough fuel -/

section Limit

variable {x : ℕ → Comp σ ε α} {y : ℕ → Comp σ ε β} {m n : ℕ}

theorem le_of_succ (hx : ∀ n, Le (x n) (x (n + 1))) (h : m ≤ n) : Le (x m) (x n) := by
  induction h with
  | refl => exact .refl _
  | step _ ih => exact fun s r hr => hx _ s r (ih s r hr)

open Classical in
/-- What comes of a computation with enough fuel, if anything does. -/
noncomputable def limit (x : ℕ → Comp σ ε α) (s : σ) : Option (Except ε α × σ) :=
  if h : ∃ n, (outcome (x n) s).isSome then outcome (x (Nat.find h)) s else none

theorem eventually_limit (hx : ∀ n, Le (x n) (x (n + 1))) (s : σ) :
    ∃ n, ∀ m ≥ n, outcome (x m) s = limit x s := by
  classical
  by_cases h : ∃ n, (outcome (x n) s).isSome
  · obtain ⟨r, hr⟩ := Option.isSome_iff_exists.1 (Nat.find_spec h)
    refine ⟨Nat.find h, fun m hm => ?_⟩
    rw [limit, dif_pos h, hr]
    exact le_of_succ hx hm s r hr
  · refine ⟨0, fun m _ => ?_⟩
    rw [limit, dif_neg h, ← Option.not_isSome_iff_eq_none]
    exact fun hm => h ⟨m, hm⟩

theorem alike_limit {R : α → β → Prop} (hx : ∀ n, Le (x n) (x (n + 1)))
    (hy : ∀ n, Le (y n) (y (n + 1))) {i j k : ℕ}
    (h : ∀ n ≥ k, Alike R (outcome (x (n + i)) s) (outcome (y (n + j)) t)) :
    Alike R (limit x s) (limit y t) := by
  obtain ⟨m, hm⟩ := eventually_limit hx s
  obtain ⟨n, hn⟩ := eventually_limit hy t
  have h := h (max k (max m n)) (le_max_left _ _)
  rwa [hm _ (by omega), hn _ (by omega)] at h

end Limit

/-! ### Events -/

section Traced

variable {η : Type}

/-- The events after a value has been returned. -/
def after (r : Option (Except ε α × σ)) (events : α → σ → List η) : List η :=
  match r with
  | some (.ok a, s) => events a s
  | some (.error _, _) => []
  | none => []

/-- Each of the events follows a law, given those before it. -/
def Lawful (law : List η → η → Prop) : List η → List η → Prop
  | _, [] => True
  | before, a :: as => law before a ∧ Lawful law (before ++ [a]) as

theorem lawful_append {law : List η → η → Prop} {before as bs : List η}
    (ha : Lawful law before as) (hb : Lawful law (before ++ as) bs) :
    Lawful law before (as ++ bs) := by
  induction as generalizing before with
  | nil => rwa [List.append_nil] at hb
  | cons a as ih => exact ⟨ha.1, ih ha.2 (by rwa [List.append_assoc])⟩

variable (inv : List η → σ → Prop) (law : List η → η → Prop)

/-- From a state where an invariant holds with the events so far, the events of a computation are
lawful, the invariant holds with them at its end, and the value has a property. -/
def Traced (P : α → Prop) (x : Comp σ ε α) (events : σ → List η) : Prop :=
  ∀ before s, inv before s → Lawful law before (events s) ∧
    ∀ r t, outcome x s = some (r, t) → inv (before ++ events s) t ∧ ∀ a, r = .ok a → P a

variable {inv law} {P : α → Prop} {Q : β → Prop} {events : σ → List η} {more : α → σ → List η}

theorem traced_outOfFuel : Traced inv law P (outOfFuel : Comp σ ε α) fun _ => [] :=
  fun _ _ _ => ⟨trivial, nofun⟩

/-- A computation without events. -/
theorem traced_quiet (h : ∀ before s, inv before s → ∀ r t, outcome x s = some (r, t) →
    inv before t ∧ ∀ a, r = .ok a → P a) : Traced inv law P x fun _ => [] := by
  intro before s hs
  rw [List.append_nil]
  exact ⟨trivial, h before s hs⟩

theorem traced_pure (h : P a) : Traced inv law P (pure a : Comp σ ε α) fun _ => [] := by
  refine traced_quiet fun before s hs r t hr => ?_
  cases hr
  refine ⟨hs, fun b hb => ?_⟩
  cases hb
  exact h

theorem traced_throw (e : ε) : Traced inv law P (throw e : Comp σ ε α) fun _ => [] := by
  refine traced_quiet fun before s hs r t hr => ?_
  cases hr
  exact ⟨hs, nofun⟩

theorem Traced.bind (hx : Traced inv law P x events)
    (hf : ∀ a, P a → Traced inv law Q (f a) (more a)) :
    Traced inv law Q (x >>= f) fun s => events s ++ after (outcome x s) more := by
  intro before s hs
  obtain ⟨hlaw, hend⟩ := hx before s hs
  rw [outcome_bind]
  beta_reduce
  -- The first part runs out of fuel, fails or returns; only then are there more events.
  rcases hr : outcome x s with _ | ⟨_ | a, t⟩
  · rw [after, List.append_nil]
    exact ⟨hlaw, nofun⟩
  · rw [after, List.append_nil]
    refine ⟨hlaw, fun r u hu => ?_⟩
    cases hu
    exact ⟨(hend _ _ hr).1, nofun⟩
  · obtain ⟨ht, ha⟩ := hend _ _ hr
    obtain ⟨hlaw', hend'⟩ := hf a (ha a rfl) _ t ht
    refine ⟨lawful_append hlaw hlaw', fun r u hu => ?_⟩
    rw [after, ← List.append_assoc]
    exact hend' r u hu

theorem after_nil (r : Option (Except ε α × σ)) : after r (fun _ _ => ([] : List η)) = [] := by
  rcases r with _ | ⟨_ | a, t⟩ <;> rfl

/-- The rest of a computation has no events. -/
theorem Traced.bind_quiet (hx : Traced inv law P x events)
    (hf : ∀ a, P a → Traced inv law Q (f a) fun _ => []) :
    Traced inv law Q (x >>= f) events := by
  have h := hx.bind hf
  simp only [after_nil, List.append_nil] at h
  exact h

end Traced

end Fueled
