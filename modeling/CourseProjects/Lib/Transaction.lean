import Mathlib

/-!
# Transactions and their callers

A transaction (`Tx`) computes on a state and either completes or fails with an error; when
it fails there is no new state. A caller (`Caller`) runs transactions one after another:
`commit` keeps what a completed transaction did, and leaves the state as it was when the
transaction fails. So a caller that fails may leave the work of its first transactions.

* `bind_eq_ok`, `failIf_eq_ok`: what the steps of a completed transaction did;
* `forM_range`: a loop with an invariant;
* `Refines.bind`, `Refines.mapM`: transactions on two states that agree;
* `Keeps.bind`, `Keeps.commit`: what every transaction keeps, the caller keeps.
-/

universe u

/-- A computation that completes with a new state, or fails. -/
abbrev Tx (σ ε α : Type u) := StateT σ (Except ε) α

/-- A computation with a state whether it completes or fails. -/
abbrev Caller (σ ε α : Type u) := ExceptT ε (StateM σ) α

namespace Tx

variable {σ ε α β : Type u} {s : σ}

/-- A transaction fails when a condition is met. -/
def failIf (c : Prop) [Decidable c] (e : ε) : Tx σ ε PUnit := if c then throw e else pure ⟨⟩

/-- A value that must be there. -/
def ofOption (e : ε) : Option α → Tx σ ε α
  | none => throw e
  | some a => pure a

/-- A completed transaction is one completed step after the other. -/
theorem bind_eq_ok {x : Tx σ ε α} {f : α → Tx σ ε β} {r : β × σ} :
    (x >>= f).run s = .ok r ↔ ∃ a s', x.run s = .ok (a, s') ∧ (f a).run s' = .ok r := by
  rw [StateT.run_bind]
  cases h : x.run s with
  | error e =>
    constructor
    · intro h
      cases h
    · rintro ⟨_, _, h, _⟩
      cases h
  | ok p =>
    constructor
    · intro h'
      exact ⟨p.1, p.2, rfl, h'⟩
    · rintro ⟨a, s', h, h'⟩
      cases h
      exact h'

/-- What comes after a completed step. -/
theorem run_bind_of_ok {x : Tx σ ε α} {f : α → Tx σ ε β} {a : α} {t : σ}
    (h : x.run s = .ok (a, t)) : (x >>= f).run s = (f a).run t := by
  rw [StateT.run_bind, h]
  rfl

theorem pure_eq_ok {a : α} {r : α × σ} : (pure a : Tx σ ε α).run s = .ok r ↔ r = (a, s) := by
  constructor
  · intro h
    cases h
    rfl
  · rintro rfl
    rfl

theorem get_eq_ok {r : σ × σ} : (get : Tx σ ε σ).run s = .ok r ↔ r = (s, s) := by
  constructor
  · intro h
    cases h
    rfl
  · rintro rfl
    rfl

theorem set_eq_ok {t : σ} {r : PUnit × σ} :
    (set t : Tx σ ε PUnit).run s = .ok r ↔ r = (⟨⟩, t) := by
  constructor
  · intro h
    cases h
    rfl
  · rintro rfl
    rfl

theorem modify_eq_ok {f : σ → σ} {r : PUnit × σ} :
    (modify f : Tx σ ε PUnit).run s = .ok r ↔ r = (⟨⟩, f s) := by
  constructor
  · intro h
    cases h
    rfl
  · rintro rfl
    rfl

theorem failIf_eq_ok {c : Prop} [Decidable c] {e : ε} {r : PUnit × σ} :
    (failIf c e).run s = .ok r ↔ ¬ c ∧ r = (⟨⟩, s) := by
  by_cases h : c
  · rw [failIf, if_pos h]
    constructor
    · intro h
      cases h
    · exact fun h' => absurd h h'.1
  · rw [failIf, if_neg h]
    exact pure_eq_ok.trans (by simp [h])

theorem get_bind (f : σ → Tx σ ε β) : (get >>= f : Tx σ ε β).run s = (f s).run s := rfl

theorem set_bind (t : σ) (f : PUnit → Tx σ ε β) :
    (set t >>= f : Tx σ ε β).run s = (f ⟨⟩).run t := rfl

/-- After a check that does not fail. -/
theorem failIf_bind_eq_ok {c : Prop} [Decidable c] {e : ε} {f : PUnit → Tx σ ε β} {r : β × σ} :
    (failIf c e >>= f).run s = .ok r ↔ ¬ c ∧ (f ⟨⟩).run s = .ok r := by
  rw [bind_eq_ok]
  constructor
  · rintro ⟨_, _, h, h'⟩
    obtain ⟨hc, heq⟩ := failIf_eq_ok.1 h
    cases heq
    exact ⟨hc, h'⟩
  · exact fun ⟨hc, h⟩ => ⟨⟨⟩, s, failIf_eq_ok.2 ⟨hc, rfl⟩, h⟩

theorem ofOption_eq_ok {e : ε} {o : Option α} {r : α × σ} :
    (ofOption e o : Tx σ ε α).run s = .ok r ↔ o = some r.1 ∧ r.2 = s := by
  cases o with
  | none =>
    constructor
    · intro h
      cases h
    · exact fun h => nomatch h.1
  | some a =>
    refine pure_eq_ok.trans ?_
    rw [Prod.ext_iff, Option.some.injEq]
    exact ⟨fun h => ⟨h.1.symm, h.2⟩, fun h => ⟨h.1.symm, h.2⟩⟩

/-- After a value that is there. -/
theorem ofOption_bind_eq_ok {e : ε} {o : Option α} {f : α → Tx σ ε β} {r : β × σ} :
    (ofOption e o >>= f).run s = .ok r ↔ ∃ a, o = some a ∧ (f a).run s = .ok r := by
  cases o with
  | none => exact iff_of_false (fun h => nomatch h) (by simp)
  | some a => simp only [Option.some.injEq, exists_eq_left', ofOption, pure_bind]

theorem ofExcept_eq_ok {x : Except ε α} {r : α × σ} :
    (MonadExcept.ofExcept x : Tx σ ε α).run s = .ok r ↔ x = .ok r.1 ∧ r.2 = s := by
  cases x with
  | error e =>
    constructor
    · intro h
      cases h
    · exact fun h => nomatch h.1
  | ok a =>
    refine pure_eq_ok.trans ?_
    rw [Prod.ext_iff, Except.ok.injEq]
    exact ⟨fun h => ⟨h.1.symm, h.2⟩, fun h => ⟨h.1.symm, h.2⟩⟩

/-- A loop completes when each of its steps completes and keeps its invariant. -/
theorem forM_range {f : ℕ → Tx σ ε PUnit} {I : ℕ → σ → Prop} {n : ℕ}
    (hstep : ∀ i < n, ∀ t, I i t → ∃ t', (f i).run t = .ok (⟨⟩, t') ∧ I (i + 1) t')
    (h : I 0 s) : ∃ t, ((List.range n).forM f).run s = .ok (⟨⟩, t) ∧ I n t := by
  induction n with
  | zero => exact ⟨s, rfl, h⟩
  | succ n ih =>
    obtain ⟨t, ht, hI⟩ := ih fun i hi => hstep i (hi.trans (Nat.lt_succ_self n))
    obtain ⟨t', ht', hI'⟩ := hstep n (Nat.lt_succ_self n) t hI
    refine ⟨t', ?_, hI'⟩
    rw [List.forM_eq_forM, List.range_succ, List.forM_append]
    refine bind_eq_ok.2 ⟨⟨⟩, t, ht, ?_⟩
    rw [List.forM_cons]
    exact bind_eq_ok.2 ⟨⟨⟩, t', ht', rfl⟩

/-! ### Transactions on two states -/

variable {τ : Type u}

/-- Two outcomes agree: the values are the same and the states are related, or the errors are the
    same. -/
inductive Agree (R : σ → τ → Prop) : Except ε (α × σ) → Except ε (α × τ) → Prop
  | ok (a : α) {s : σ} {t : τ} (h : R s t) : Agree R (.ok (a, s)) (.ok (a, t))
  | error (e : ε) : Agree R (.error e) (.error e)

/-- The value of one outcome is that of the other. -/
theorem Agree.of_value {R : σ → τ → Prop} {x : Except ε (α × σ)} {y : Except ε (α × τ)} {a : α}
    (h : Agree R x y) (ha : y.toOption.map Prod.fst = some a) :
    ∃ s t, x = .ok (a, s) ∧ R s t := by
  cases h with
  | ok b hR =>
    cases ha
    exact ⟨_, _, rfl, hR⟩
  | error e => cases ha

/-- On related states, two transactions have outcomes that agree. -/
def Refines (R : σ → τ → Prop) (x : Tx σ ε α) (y : Tx τ ε α) : Prop :=
  ∀ s t, R s t → Agree R (x.run s) (y.run t)

variable {R : σ → τ → Prop}

theorem Refines.pure (a : α) : Refines R (pure a : Tx σ ε α) (pure a : Tx τ ε α) :=
  fun _ _ h => .ok a h

theorem Refines.bind {x : Tx σ ε α} {y : Tx τ ε α} {f : α → Tx σ ε β} {g : α → Tx τ ε β}
    (h : Refines R x y) (hfg : ∀ a, Refines R (f a) (g a)) : Refines R (x >>= f) (y >>= g) := by
  intro s t hR
  have hxy := h s t hR
  rw [StateT.run_bind, StateT.run_bind]
  generalize x.run s = r at hxy
  generalize y.run t = r' at hxy
  cases hxy with
  | ok a h' => exact hfg a _ _ h'
  | error e => exact .error e

/-- What refines one by one, refines one after the other. -/
theorem Refines.mapM {ι : Type u} {f : ι → Tx σ ε α} {g : ι → Tx τ ε α}
    (h : ∀ i, Refines R (f i) (g i)) (is : List ι) : Refines R (is.mapM f) (is.mapM g) := by
  induction is with
  | nil => exact .pure []
  | cons i is ih =>
    rw [List.mapM_cons, List.mapM_cons]
    exact (h i).bind fun a => ih.bind fun as => .pure (a :: as)

end Tx

namespace Caller

variable {σ ε α β : Type u} {s : σ}

/-- What a caller returns, and the state it leaves. -/
def result (x : Caller σ ε α) (s : σ) : Except ε α × σ := x.run.run s

/-- A transaction of its own: what it did stays when it completes. -/
def commit (x : Tx σ ε α) : Caller σ ε α :=
  ExceptT.mk fun s =>
    match x.run s with
    | .ok (a, s') => (.ok a, s')
    | .error e => (.error e, s)

/-- A transaction of its own, whose value is not used. -/
def perform (x : Tx σ ε α) : Caller σ ε PUnit := do
  let _ ← commit x
  pure ⟨⟩

/-- A transaction of its own, when a condition is met. -/
def commitIf (c : Prop) [Decidable c] (x : Tx σ ε PUnit) : Caller σ ε PUnit :=
  if c then commit x else pure ⟨⟩

/-- A caller goes on after a completed step, in the state it left. -/
theorem result_bind (x : Caller σ ε α) (f : α → Caller σ ε β) :
    result (x >>= f) s =
      match result x s with
      | (.ok a, s') => result (f a) s'
      | (.error e, s') => (.error e, s') := by
  change (ExceptT.run (x >>= f)).run s = _
  rw [ExceptT.run_bind]
  change (match (result x s).1 with
    | .ok a => (f a).run
    | .error e => pure (Except.error e)).run (result x s).2 = _
  rcases result x s with ⟨_ | a, s'⟩
  · rfl
  · rfl

theorem result_commit (x : Tx σ ε α) :
    result (commit x) s =
      match x.run s with
      | .ok (a, s') => (.ok a, s')
      | .error e => (.error e, s) := rfl

/-- After a transaction that completes. -/
theorem result_commit_bind_of_ok {x : Tx σ ε α} {f : α → Caller σ ε β} {a : α} {s' : σ}
    (h : x.run s = .ok (a, s')) : result (commit x >>= f) s = result (f a) s' := by
  rw [result_bind, result_commit, h]

/-- After a transaction that does not complete there is nothing more. -/
theorem result_commit_bind_of_fail {x : Tx σ ε α} {f : α → Caller σ ε β}
    (h : ∀ a s', x.run s ≠ .ok (a, s')) : ∃ e, result (commit x >>= f) s = (.error e, s) := by
  rw [result_bind, result_commit]
  cases hx : x.run s with
  | error e => exact ⟨e, rfl⟩
  | ok p => exact absurd hx (h p.1 p.2)

/-- A caller that completes runs completed steps. -/
theorem result_bind_eq_ok {x : Caller σ ε α} {f : α → Caller σ ε β} {b : β} {s' : σ} :
    result (x >>= f) s = (.ok b, s') ↔
      ∃ a t, result x s = (.ok a, t) ∧ result (f a) t = (.ok b, s') := by
  rw [result_bind]
  rcases result x s with ⟨_ | a, t⟩
  · simp
  · constructor
    · exact fun h => ⟨a, t, rfl, h⟩
    · rintro ⟨_, _, h, h'⟩
      cases h
      exact h'

theorem result_commit_eq_ok {x : Tx σ ε α} {a : α} {s' : σ} :
    result (commit x) s = (.ok a, s') ↔ x.run s = .ok (a, s') := by
  rw [result_commit]
  rcases x.run s with _ | ⟨a', t⟩
  · simp
  · simp

theorem result_perform_eq_ok {x : Tx σ ε α} {u : PUnit} {s' : σ} :
    result (perform x) s = (.ok u, s') ↔ ∃ a, x.run s = .ok (a, s') := by
  unfold perform
  rw [result_bind_eq_ok]
  constructor
  · rintro ⟨a, t, hx, ht⟩
    cases ht
    exact ⟨a, result_commit_eq_ok.1 hx⟩
  · rintro ⟨a, hx⟩
    exact ⟨a, s', result_commit_eq_ok.2 hx, rfl⟩

/-- What holds before a transaction of its own, and in the end when the transaction completes. -/
theorem result_commit_bind {P : σ → Prop} {x : Tx σ ε α} {f : α → Caller σ ε β} (hs : P s)
    (hx : ∀ a s', x.run s = .ok (a, s') → P (result (f a) s').2) :
    P (result (commit x >>= f) s).2 := by
  rw [result_bind, result_commit]
  cases h : x.run s with
  | error e => exact hs
  | ok p => exact hx p.1 p.2 h

theorem result_perform {P : σ → Prop} {x : Tx σ ε α} (hs : P s)
    (hx : ∀ a s', x.run s = .ok (a, s') → P s') : P (result (perform x) s).2 :=
  result_commit_bind hs hx

/-- The caller leads from a state into a related one, whether it completes or not. -/
def Keeps (R : σ → σ → Prop) (x : Caller σ ε α) : Prop := ∀ s, R s (result x s).2

variable {R : σ → σ → Prop}

theorem Keeps.pure (hrefl : ∀ s, R s s) (a : α) : Keeps R (pure a : Caller σ ε α) := hrefl

theorem Keeps.bind (htrans : ∀ s t v, R s t → R t v → R s v) {x : Caller σ ε α}
    {f : α → Caller σ ε β} (hx : Keeps R x) (hf : ∀ a, Keeps R (f a)) : Keeps R (x >>= f) := by
  intro s
  have hs := hx s
  rw [result_bind]
  rcases hr : result x s with ⟨_ | a, t⟩
  · rw [hr] at hs
    exact hs
  · rw [hr] at hs
    exact htrans s t _ hs (hf a t)

/-- A transaction that fails changes nothing. -/
theorem Keeps.commit (hrefl : ∀ s, R s s) {x : Tx σ ε α}
    (hx : ∀ s a s', x.run s = .ok (a, s') → R s s') : Keeps R (commit x) := by
  intro s
  rw [result_commit]
  cases h : x.run s with
  | error e => exact hrefl s
  | ok p => exact hx s p.1 p.2 h

end Caller
