import CourseProjects.Mupl.Eval

/-!
# The environment of a global binding

`glet` binds a name in its environment and in those of the closures that are bound there, and in
theirs. It does not look for closures in pairs.

* `envlookup_genv`, `envlookup_genv_of_ne`: what is found in the environment;
* `overrides_iff`: when the binding is found in the environments of all closures that can be
  reached, by the bindings that are followed;
* `glet_overrides_iff`: this for all bindings, and for all but those of the name itself.
-/

namespace Mupl

open Fueled

/-! ### Closures that can be reached -/

/-- A value is bound to a name, perhaps behind other bindings of the name. -/
inductive Bound (y : String) (w : Exp) : Env → Prop
  | here (env : Env) : Bound y w (.cons y w env)
  | there (z : String) (u : Exp) {env : Env} : Bound y w env → Bound y w (.cons z u env)

/-- The environments of the closures that can be reached from a value: through pairs, and through
the bindings of some names. -/
inductive Reaches (follow : String → Prop) : Exp → Env → Prop
  | closure (env : Env) (nameopt : Option String) (formal : String) (body : Exp) :
    Reaches follow (.closure env nameopt formal body) env
  | bound {y : String} {w : Exp} {env cenv : Env} (nameopt : Option String) (formal : String)
    (body : Exp) : follow y → Bound y w env → Reaches follow w cenv →
      Reaches follow (.closure env nameopt formal body) cenv
  | left {v1 : Exp} (v2 : Exp) {cenv : Env} : Reaches follow v1 cenv →
    Reaches follow (.apair v1 v2) cenv
  | right (v1 : Exp) {v2 : Exp} {cenv : Env} : Reaches follow v2 cenv →
    Reaches follow (.apair v1 v2) cenv

/-- In the environments of all closures that can be reached, a name is bound to a value. -/
def Overrides (follow : String → Prop) (x : String) (v : Exp) (env : Env) : Prop :=
  ∀ y w, follow y → Bound y w env → ∀ cenv, Reaches follow w cenv → envlookup x cenv = .ok v

/-- The values other than closures that are bound to other names in an environment, and in the
environments of the closures that are bound there. -/
inductive Kept (follow : String → Prop) (x : String) : Env → Exp → Prop
  | here {y : String} {w : Exp} {env : Env} : follow y → y ≠ x → Bound y w env →
    w.closure? = none → Kept follow x env w
  | inside {y : String} {w : Exp} {env cenv : Env} {nameopt : Option String} {formal : String}
    {body : Exp} : follow y → y ≠ x → Bound y (.closure cenv nameopt formal body) env →
      Kept follow x cenv w → Kept follow x env w

/-- The closures inside pairs have the name bound to the value already. -/
def Sealed (follow : String → Prop) (x : String) (v : Exp) (env : Env) : Prop :=
  ∀ w, Kept follow x env w → ∀ cenv, Reaches follow w cenv → envlookup x cenv = .ok v

/-! ### Lookups -/

/-- What becomes of a value that is bound to another name. -/
def regen (x : String) (v : Exp) : Exp → Exp
  | .closure cenv nameopt formal body => .closure (genv x v cenv) nameopt formal body
  | w => w

variable {follow : String → Prop} {x y : String} {v w : Exp} {env cenv : Env}

theorem genv_cons (h : x ≠ y) :
    genv x v (.cons y w env) = .cons y (regen x v w) (genv x v env) := by
  cases w <;> exact if_neg h

theorem genv_cons_self : genv x v (.cons x w env) = .cons x v (genv x v env) := by
  cases w <;> exact if_pos rfl

theorem genv_nil : genv x v .nil = .cons x v .nil := rfl

theorem envlookup_genv (x : String) (v : Exp) : ∀ env, envlookup x (genv x v env) = .ok v
  | .nil => if_pos rfl
  | .cons y w env => by
    by_cases h : x = y
    · rw [← h, genv_cons_self, envlookup, if_pos rfl]
    · rw [genv_cons h, envlookup, if_neg (Ne.symm h), envlookup_genv x v env]

/-- Another name is found with the value that it had, whose environment is rewritten too. -/
theorem envlookup_genv_of_ne (h : y ≠ x) :
    ∀ env, envlookup y (genv x v env) = (envlookup y env).map (regen x v)
  | .nil => by
    rw [genv_nil, envlookup.eq_2, if_neg h.symm]
    rfl
  | .cons z w env => by
    by_cases hz : x = z
    · rw [← hz, genv_cons_self, envlookup, if_neg h.symm, envlookup, if_neg h.symm,
        envlookup_genv_of_ne h env]
    · rw [genv_cons hz, envlookup, envlookup]
      by_cases hzy : z = y
      · rw [if_pos hzy, if_pos hzy]
        rfl
      · rw [if_neg hzy, if_neg hzy, envlookup_genv_of_ne h env]

theorem bound_nil : ¬Bound y w .nil := nofun

theorem bound_cons {z : String} {u : Exp} :
    Bound y w (.cons z u env) ↔ (y = z ∧ w = u) ∨ Bound y w env := by
  constructor
  · intro h
    cases h with
    | here => exact .inl ⟨rfl, rfl⟩
    | there _ _ h => exact .inr h
  · rintro (⟨rfl, rfl⟩ | h)
    · exact .here env
    · exact .there z u h

/-- What is bound in the environment: the value to the name, and what was bound to others. -/
theorem bound_genv : ∀ env, Bound y w (genv x v env) ↔
    (y = x ∧ w = v) ∨ (y ≠ x ∧ ∃ u, Bound y u env ∧ w = regen x v u)
  | .nil => by simp [genv_nil, bound_cons, bound_nil]
  | .cons z u env => by
    by_cases h : x = z
    · -- An older binding of the name gets the value too.
      subst h
      rw [genv_cons_self, bound_cons, bound_genv env]
      simp only [bound_cons]
      constructor
      · rintro (h | h | ⟨hy, u', hu, rfl⟩)
        · exact .inl h
        · exact .inl h
        · exact .inr ⟨hy, u', .inr hu, rfl⟩
      · rintro (h | ⟨hy, u', ⟨rfl, -⟩ | hu, rfl⟩)
        · exact .inl h
        · exact absurd rfl hy
        · exact .inr (.inr ⟨hy, u', hu, rfl⟩)
    · rw [genv_cons h, bound_cons, bound_genv env]
      simp only [bound_cons]
      constructor
      · rintro (⟨rfl, rfl⟩ | h | ⟨hy, u', hu, rfl⟩)
        · exact .inr ⟨Ne.symm h, u, .inl ⟨rfl, rfl⟩, rfl⟩
        · exact .inl h
        · exact .inr ⟨hy, u', .inr hu, rfl⟩
      · rintro (h | ⟨hy, u', ⟨rfl, rfl⟩ | hu, rfl⟩)
        · exact .inr (.inl h)
        · exact .inl ⟨rfl, rfl⟩
        · exact .inr (.inr ⟨hy, u', hu, rfl⟩)

/-! ### What is reached -/

theorem Bound.sizeOf_lt (h : Bound y w env) : sizeOf w < sizeOf env := by
  induction h with
  | here env =>
    rw [Env.cons.sizeOf_spec]
    omega
  | there z u _ ih =>
    rw [Env.cons.sizeOf_spec]
    omega

theorem bound_of_envlookup : ∀ {env}, envlookup y env = .ok w → Bound y w env
  | .nil, h => nomatch h
  | .cons z u env, h => by
    rw [envlookup] at h
    split at h
    · next hz =>
      cases h
      rw [← hz]
      exact .here env
    · exact .there z u (bound_of_envlookup h)

theorem Reaches.sizeOf_lt (h : Reaches follow w cenv) : sizeOf cenv < sizeOf w := by
  induction h with
  | closure env nameopt formal body =>
    rw [Exp.closure.sizeOf_spec]
    omega
  | bound nameopt formal body _ hb _ ih =>
    have hb := hb.sizeOf_lt
    rw [Exp.closure.sizeOf_spec]
    omega
  | left v2 _ ih =>
    rw [Exp.apair.sizeOf_spec]
    omega
  | right v1 _ ih =>
    rw [Exp.apair.sizeOf_spec]
    omega

/-- No environment that a value holds has a name bound to the value. -/
theorem Reaches.ne_self (h : Reaches follow v cenv) : envlookup x cenv ≠ .ok v := by
  intro hx
  have hv := (bound_of_envlookup hx).sizeOf_lt
  have hc := h.sizeOf_lt
  omega

variable {nameopt : Option String} {formal : String} {body : Exp}

theorem Overrides.inside (h : Overrides follow x v env) (hy : follow y)
    (hb : Bound y (.closure cenv nameopt formal body) env) : Overrides follow x v cenv :=
  fun _ _ hz hw c hc => h y _ hy hb c (.bound nameopt formal body hz hw hc)

theorem regen_of_closure? (h : w.closure? = none) : regen x v w = w := by
  cases w with
  | closure => cases h
  | _ => rfl

theorem Overrides.kept (h : Overrides follow x v (genv x v env)) (hk : Kept follow x env w)
    (hc : Reaches follow w cenv) : envlookup x cenv = .ok v := by
  induction hk with
  | here hy hyx hb hw => exact h _ _ hy (bound_genv _ |>.2 (.inr
      ⟨hyx, _, hb, (regen_of_closure? hw).symm⟩)) cenv hc
  | inside hy hyx hb _ ih =>
    exact ih (h.inside hy (bound_genv _ |>.2 (.inr ⟨hyx, _, hb, rfl⟩))) hc

/-- The induction is on the environment, which is larger than those of the closures in it. -/
theorem overrides_genv (hx : follow x → ∀ cenv, ¬Reaches follow v cenv) (env : Env)
    (h : Sealed follow x v env) : Overrides follow x v (genv x v env) := by
  intro y w hy hb c hc
  rcases (bound_genv env).1 hb with ⟨rfl, rfl⟩ | ⟨hyx, u, hu, rfl⟩
  · -- The value itself is not rewritten.
    exact absurd hc (hx hy c)
  · cases hv : u.closure? with
    | none =>
      -- Nor is what is in a pair.
      rw [regen_of_closure? hv] at hc
      exact h u (.here hy hyx hu hv) c hc
    | some k =>
      cases u with
      | closure cenv nameopt formal body =>
        -- The environment of a closure is rewritten, and so are those in it.
        have ih := overrides_genv hx cenv fun w hw => h w (.inside hy hyx hu hw)
        cases hc with
        | closure => exact envlookup_genv x v cenv
        | bound _ _ _ hz hw hc => exact ih _ _ hz hw c hc
      | _ => cases hv
termination_by sizeOf env
decreasing_by
  have := hu.sizeOf_lt
  rw [Exp.closure.sizeOf_spec] at this
  omega

theorem overrides_iff (env : Env) : Overrides follow x v (genv x v env) ↔
    (follow x → ∀ cenv, ¬Reaches follow v cenv) ∧ Sealed follow x v env := by
  constructor
  · intro h
    refine ⟨fun hx c hc => ?_, fun w hw c hc => h.kept hw hc⟩
    exact hc.ne_self (h x v hx ((bound_genv env).2 (.inl ⟨rfl, rfl⟩)) c hc)
  · rintro ⟨hx, h⟩
    exact overrides_genv hx env h

/-- In the environment of the body of `glet` the name is bound to the value, and each other name to
what it was, rewritten alike. The environments of all closures that can be reached have the name
bound to the value if and only if those have it already that are reached through pairs, and the
value holds no closure; and of those that are not reached through the name, the former alone. -/
theorem glet_overrides_iff (x : String) (v : Exp) (env : Env) :
    (envlookup x (genv x v env) = .ok v ∧
      ∀ y, y ≠ x → envlookup y (genv x v env) = (envlookup y env).map (regen x v)) ∧
    (Overrides (fun _ => True) x v (genv x v env) ↔
      (∀ cenv, ¬Reaches (fun _ => True) v cenv) ∧ Sealed (fun _ => True) x v env) ∧
    (Overrides (· ≠ x) x v (genv x v env) ↔ Sealed (· ≠ x) x v env) := by
  refine ⟨⟨envlookup_genv x v env, fun y hy => envlookup_genv_of_ne hy env⟩, ?_, ?_⟩
  · rw [overrides_iff, forall_const]
  · rw [overrides_iff, and_iff_right fun hx => absurd rfl hx]

/-- A function that is bound to `p` has `x` for its body, and one in a pair has not. -/
theorem glet_pair :
    (outcome (evalUnderEnv 5 (.mlet "p" (.func none "y" (.var "x"))
      (.glet "x" (.int 1) (.call (.var "p") .aunit))) .nil) .empty).map (·.1.toOption) =
        some (some (.int 1)) ∧
    (outcome (evalUnderEnv 6 (.mlet "p" (.apair (.func none "y" (.var "x")) .aunit)
      (.glet "x" (.int 1) (.call (.fst (.var "p")) .aunit))) .nil) .empty).map (·.1.toOption) =
        some none ∧
    ¬Overrides (fun _ => True) "x" (.int 1) (genv "x" (.int 1)
      (.cons "p" (.apair (.closure .nil none "y" (.var "x")) .aunit) .nil)) := by
  refine ⟨rfl, rfl, fun h => ?_⟩
  have hx := h "p" (.apair (.closure .nil none "y" (.var "x")) .aunit) trivial (.here _) .nil
    (.left _ (.closure _ _ _ _))
  cases hx

end Mupl
