import CourseProjects.Mupl.Glet

/-!
# What an expression mentions

The names and the objects of arrays that an expression mentions, also in the environments of its
closures (`Exp.Only`), and what the environments mention that an evaluation builds.

* `Env.Only.genv`, `only_bodyEnv`: the environments of `glet` and of the body of a function;
* `plain_of_mlistRef`, `plain_of_toMupllist`: values that come from arrays mention nothing.
-/

namespace Mupl

section Only

variable (name : String → Prop) (object : ℕ → Prop)

mutual

/-- All names that an expression mentions, and all objects of arrays, are such. The environments
of closures may bind any names. -/
def Exp.Only : Exp → Prop
  | .var string => name string
  | .int _ => True
  | .add e1 e2 => e1.Only ∧ e2.Only
  | .ifgreater e1 e2 e3 e4 => e1.Only ∧ e2.Only ∧ e3.Only ∧ e4.Only
  | .func nameopt formal body => (∀ str ∈ nameopt, name str) ∧ name formal ∧ body.Only
  | .call funexp actual => funexp.Only ∧ actual.Only
  | .mlet var e body => name var ∧ e.Only ∧ body.Only
  | .apair e1 e2 => e1.Only ∧ e2.Only
  | .fst e => e.Only
  | .snd e => e.Only
  | .aunit => True
  | .isaunit e => e.Only
  | .glet var e body => name var ∧ e.Only ∧ body.Only
  | .numArray _ => True
  | .numArrayAt e1 _ => e1.Only
  | .numArraySet e1 _ e3 => e1.Only ∧ e3.Only
  | .numArrayToList e => e.Only
  | .closure env nameopt formal body =>
    env.Only ∧ (∀ str ∈ nameopt, name str) ∧ name formal ∧ body.Only
  | .mpair loc => object loc

/-- This for all values of an environment. -/
def Env.Only : Env → Prop
  | .nil => True
  | .cons _ val env => val.Only ∧ env.Only

end

end Only

variable {name : String → Prop} {object : ℕ → Prop} {v clsr arg : Exp} {x str : String}
  {c : Closure}

theorem Env.Only.envlookup : ∀ {env : Env}, env.Only name object → envlookup str env = .ok v →
    v.Only name object
  | .nil, _, h => nomatch h
  | .cons y val env, henv, h => by
    rw [Env.Only] at henv
    rw [Mupl.envlookup] at h
    split at h
    · cases h
      exact henv.1
    · exact henv.2.envlookup h

theorem Env.Only.genv (hv : v.Only name object) : ∀ {env : Env}, env.Only name object →
    (genv x v env).Only name object
  | .nil, _ => ⟨hv, trivial⟩
  | .cons y val env, henv => by
    rw [Env.Only] at henv
    by_cases hx : x = y
    · rw [← hx, genv_cons_self]
      exact ⟨hv, henv.2.genv hv⟩
    have hval : (regen x v val).Only name object := by
      cases val with
      | closure cenv nameopt formal body =>
        have hc := henv.1
        rw [Exp.Only] at hc
        exact ⟨hc.1.genv hv, hc.2⟩
      | _ => exact henv.1
    rw [genv_cons hx]
    exact ⟨hval, henv.2.genv hv⟩

theorem only_bodyEnv (henv : c.env.Only name object) (hclsr : clsr.Only name object)
    (harg : arg.Only name object) : (c.bodyEnv clsr arg).Only name object := by
  obtain ⟨env, nameopt, formal, body⟩ := c
  cases nameopt with
  | none => exact ⟨harg, henv⟩
  | some name => exact ⟨hclsr, harg, henv⟩

/-! ### Values from arrays -/

/-- The values that mention nothing: integers, the unit and pairs of such. -/
inductive Plain : Exp → Prop
  | int (num : ℤ) : Plain (.int num)
  | aunit : Plain .aunit
  | apair {v1 v2 : Exp} : Plain v1 → Plain v2 → Plain (.apair v1 v2)

theorem Plain.only (h : Plain v) : v.Only name object := by
  induction h with
  | int num => trivial
  | aunit => trivial
  | apair _ _ ih1 ih2 => exact ⟨ih1, ih2⟩

variable {h : Heap}

theorem plain_of_mlistRef : ∀ {mlst : Option ℕ} {pos : ℕ}, h.mlistRef mlst pos = .ok v → Plain v
  | none, _, hv => by
    rw [Heap.mlistRef] at hv
    cases hv
  | some l, 0, hv => by
    rw [Heap.mlistRef, Heap.mcar] at hv
    split at hv
    · cases hv
      exact .int _
    · cases hv
  | some l, pos + 1, hv => by
    rw [Heap.mlistRef] at hv
    cases hl : h.mcdr l with
    | error err =>
      rw [hl] at hv
      cases hv
    | ok rest =>
      rw [hl] at hv
      exact plain_of_mlistRef hv

/-- By induction on the place, as a pair leads to an older one. -/
theorem plain_of_toMupllist (l : ℕ) {v : Exp} (hv : h.toMupllist l = .ok v) : Plain v := by
  induction l using Nat.strong_induction_on generalizing v with
  | _ l ih =>
    rw [Heap.toMupllist] at hv
    split at hv
    · next p hp =>
      split at hv
      · cases hv
        exact .apair (.int _) .aunit
      · next l' hl' =>
        cases hr : h.toMupllist l' with
        | error err =>
          rw [hr] at hv
          cases hv
        | ok rest =>
          rw [hr] at hv
          cases hv
          exact .apair (.int _) (ih l' (h.older l p hp l' hl') hr)
    · cases hv

end Mupl
