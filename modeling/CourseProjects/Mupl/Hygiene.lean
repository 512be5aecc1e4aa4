import CourseProjects.Mupl.Map
import CourseProjects.Mupl.Mentions

/-!
# Names that are not mentioned

Bindings of names that an expression does not mention change nothing of what comes of it, but for
the environments of the closures in its value. So the names that `ifeq` binds are not seen by its
branches.

* `strip_genv`, `strip_bodyEnv`: the environments that are built, without the bindings;
* `evalUnderEnv_strip`: an evaluation in an environment without the bindings;
* `ifeq_hygienic`: `ifeq` and its branch, up to the bindings.
-/

namespace Mupl

open Fueled MonadExcept

section Strip

variable (names : List String)

/-- An expression mentions none of the names, though environments of closures may bind them. -/
abbrev Exp.Avoids (e : Exp) : Prop := e.Only (· ∉ names) fun _ => True

/-- No value of an environment mentions the names. -/
abbrev Env.Avoids (env : Env) : Prop := env.Only (· ∉ names) fun _ => True

mutual

/-- An expression without the bindings of the names in the environments of closures. -/
def Exp.strip : Exp → Exp
  | .var string => .var string
  | .int num => .int num
  | .add e1 e2 => .add e1.strip e2.strip
  | .ifgreater e1 e2 e3 e4 => .ifgreater e1.strip e2.strip e3.strip e4.strip
  | .func nameopt formal body => .func nameopt formal body.strip
  | .call funexp actual => .call funexp.strip actual.strip
  | .mlet var e body => .mlet var e.strip body.strip
  | .apair e1 e2 => .apair e1.strip e2.strip
  | .fst e => .fst e.strip
  | .snd e => .snd e.strip
  | .aunit => .aunit
  | .isaunit e => .isaunit e.strip
  | .glet var e body => .glet var e.strip body.strip
  | .numArray size => .numArray size
  | .numArrayAt e1 idx => .numArrayAt e1.strip idx
  | .numArraySet e1 idx e3 => .numArraySet e1.strip idx e3.strip
  | .numArrayToList e => .numArrayToList e.strip
  | .closure env nameopt formal body => .closure env.strip nameopt formal body.strip
  | .mpair loc => .mpair loc

/-- An environment without the bindings of the names, in it and in those of closures. -/
def Env.strip : Env → Env
  | .nil => .nil
  | .cons name val env => if name ∈ names then env.strip else .cons name val.strip env.strip

end

def Closure.strip (c : Closure) : Closure :=
  ⟨c.env.strip names, c.nameopt, c.formal, c.body.strip names⟩

end Strip

variable {names : List String} {e v w : Exp} {env : Env} {x str : String} {n : ℕ}

/-! ### Values -/

theorem int?_strip (v : Exp) : (v.strip names).int? = v.int? := by cases v <;> rfl

theorem isAunit_strip (v : Exp) : (v.strip names).isAunit = v.isAunit := by cases v <;> rfl

theorem mpair?_strip (v : Exp) : (v.strip names).mpair? = v.mpair? := by cases v <;> rfl

theorem apair?_strip (v : Exp) : (v.strip names).apair? =
    v.apair?.map fun p => (p.1.strip names, p.2.strip names) := by cases v <;> rfl

theorem closure?_strip (v : Exp) : (v.strip names).closure? =
    v.closure?.map (Closure.strip names) := by cases v <;> rfl

/-! ### Environments -/

theorem envlookup_strip (h : str ∉ names) : ∀ env,
    envlookup str (env.strip names) = (envlookup str env).map (Exp.strip names)
  | .nil => rfl
  | .cons name val env => by
    by_cases hn : name ∈ names
    · have hne : name ≠ str := fun heq => h (heq ▸ hn)
      rw [Env.strip, if_pos hn, envlookup, if_neg hne, envlookup_strip h env]
    · rw [Env.strip, if_neg hn, envlookup, envlookup]
      by_cases heq : name = str
      · rw [if_pos heq, if_pos heq]
        rfl
      · rw [if_neg heq, if_neg heq, envlookup_strip h env]

theorem strip_cons (h : x ∉ names) :
    (Env.cons x v env).strip names = .cons x (v.strip names) (env.strip names) := by
  rw [Env.strip, if_neg h]

theorem strip_cons_mem (h : x ∈ names) : (Env.cons x v env).strip names = env.strip names := by
  rw [Env.strip, if_pos h]

theorem strip_genv (h : x ∉ names) (v : Exp) : ∀ env : Env,
    (genv x v env).strip names = genv x (v.strip names) (env.strip names)
  | .nil => strip_cons h
  | .cons name val env => by
    have ih := strip_genv h v env
    by_cases hx : x = name
    · rw [← hx, genv_cons_self, strip_cons h, strip_cons h, genv_cons_self, ih]
    have hval : (regen x v val).strip names = regen x (v.strip names) (val.strip names) := by
      cases val with
      | closure cenv nameopt formal body =>
        change Exp.closure ((genv x v cenv).strip names) _ _ _ = _
        rw [strip_genv h v cenv]
        rfl
      | _ => rfl
    -- A hidden binding is rewritten too, but not seen.
    by_cases hn : name ∈ names
    · rw [genv_cons hx, strip_cons_mem hn, strip_cons_mem hn, ih]
    · rw [genv_cons hx, strip_cons hn, strip_cons hn, genv_cons hx, hval, ih]

theorem strip_bodyEnv (c : Closure) (clsr arg : Exp)
    (hname : ∀ name ∈ c.nameopt, name ∉ names) (hformal : c.formal ∉ names) :
    (c.bodyEnv clsr arg).strip names =
      (c.strip names).bodyEnv (clsr.strip names) (arg.strip names) := by
  obtain ⟨env, nameopt, formal, body⟩ := c
  cases nameopt with
  | none => exact strip_cons hformal
  | some name =>
    change (Env.cons name clsr (.cons formal arg env)).strip names = _
    rw [strip_cons (hname name rfl), strip_cons hformal]
    rfl

/-- A value that mentions none of the names, and the value without their bindings. -/
def Stripped (names : List String) (v w : Exp) : Prop := v.Avoids names ∧ w = v.strip names

theorem stripped_int (i : ℤ) : Stripped names (.int i) (.int i) := ⟨trivial, rfl⟩

theorem stripped_aunit : Stripped names .aunit .aunit := ⟨trivial, rfl⟩

theorem same_ofExcept {r : Except Error Exp} (h : ∀ v, r = .ok v → v.Avoids names) :
    Same (Stripped names) (ofExcept r : Eval Exp) (ofExcept (r.map (Exp.strip names))) := by
  cases r with
  | error err => exact same_throw err
  | ok v => exact same_pure ⟨h v rfl, rfl⟩

/-! ### Arrays

What they hold has no bindings. -/

theorem same_ofExcept_self {r : Except Error Exp} (h : ∀ v, r = .ok v → Stripped names v v) :
    Same (Stripped names) (ofExcept r : Eval Exp) (ofExcept r) := by
  cases r with
  | error err => exact same_throw err
  | ok v => exact same_pure (h v rfl)

theorem Plain.stripped (h : Plain v) : Stripped names v v := by
  refine ⟨h.only, ?_⟩
  induction h with
  | int num => rfl
  | aunit => rfl
  | apair _ _ ih1 ih2 => rw [Exp.strip, ← ih1, ← ih2]

theorem makeArray_stripped (size : ℕ) :
    Same (Stripped names) (makeArray size) (makeArray size) := by
  refine (same_refl get).bind ?_
  rintro h _ rfl
  refine (same_refl (set _)).bind ?_
  rintro ⟨⟩ _ -
  split
  · exact same_pure ⟨trivial, rfl⟩
  · exact same_throw _

theorem arrayAt_stripped (arr : ℕ) (idx : ℤ) :
    Same (Stripped names) (arrayAt arr idx) (arrayAt arr idx) := by
  refine (same_refl get).bind ?_
  rintro h _ rfl
  refine (same_refl (ofExcept _)).bind ?_
  rintro length _ rfl
  split
  · exact same_ofExcept_self fun v hv => (plain_of_mlistRef hv).stripped
  · exact same_throw _

/-! ### Evaluations -/

theorem evalUnderEnv_strip (n : ℕ) (e : Exp) (env : Env) (he : e.Avoids names)
    (henv : env.Avoids names) : Same (Stripped names) (evalUnderEnv n e env)
      (evalUnderEnv n (e.strip names) (env.strip names)) := by
  induction n generalizing e env with
  | zero => exact same_outOfFuel
  | succ n ih =>
    rw [evalUnderEnv.eq_def, evalUnderEnv.eq_def]
    cases e with
    | var string =>
      rw [Exp.Avoids, Exp.Only] at he
      change Same _ (ofExcept (envlookup string env)) (ofExcept (envlookup string _))
      rw [envlookup_strip he]
      exact same_ofExcept fun v => henv.envlookup
    | int num => exact same_pure (stripped_int num)
    | add e1 e2 =>
      rw [Exp.Avoids, Exp.Only] at he
      refine (ih e1 env he.1 henv).bind fun v1 w1 h1 => ?_
      refine (ih e2 env he.2 henv).bind fun v2 w2 h2 => ?_
      rw [h1.2, h2.2, int?_strip, int?_strip]
      split
      · exact same_pure (stripped_int _)
      · exact same_throw _
    | ifgreater e1 e2 e3 e4 =>
      rw [Exp.Avoids, Exp.Only] at he
      obtain ⟨he1, he2, he3, he4⟩ := he
      refine (ih e1 env he1 henv).bind fun v1 w1 h1 => ?_
      refine (ih e2 env he2 henv).bind fun v2 w2 h2 => ?_
      rw [h1.2, h2.2, int?_strip, int?_strip]
      split
      · split
        · exact ih e3 env he3 henv
        · exact ih e4 env he4 henv
      · exact same_throw _
    | func nameopt formal body =>
      rw [Exp.Avoids, Exp.Only] at he
      exact same_pure ⟨⟨henv, he⟩, rfl⟩
    | call funexp actual =>
      rw [Exp.Avoids, Exp.Only] at he
      refine (ih _ env he.1 henv).bind fun f f' hf => (ih _ env he.2 henv).bind fun a a' ha => ?_
      rw [hf.2, ha.2, closure?_strip]
      cases f with
      | closure cenv nameopt formal body =>
        -- The body is evaluated in the environment of the closure, and that is stripped alike.
        have hc := hf.1
        rw [Exp.Avoids, Exp.Only] at hc
        obtain ⟨hcenv, hname, hformal, hbody⟩ := hc
        have hbodyEnv := strip_bodyEnv ⟨cenv, nameopt, formal, body⟩
          (.closure cenv nameopt formal body) a hname hformal
        change Same _ (evalUnderEnv n body _) (evalUnderEnv n (body.strip names)
          ((Closure.strip names ⟨cenv, nameopt, formal, body⟩).bodyEnv _ _))
        rw [← hbodyEnv]
        exact ih body _ hbody (only_bodyEnv hcenv hf.1 ha.1)
      | _ => exact same_throw _
    | mlet var e body =>
      rw [Exp.Avoids, Exp.Only] at he
      refine (ih e env he.2.1 henv).bind fun v w h => ?_
      rw [h.2, ← strip_cons he.1]
      exact ih body _ he.2.2 ⟨h.1, henv⟩
    | apair e1 e2 =>
      rw [Exp.Avoids, Exp.Only] at he
      refine (ih e1 env he.1 henv).bind fun v1 w1 h1 => ?_
      refine (ih e2 env he.2 henv).bind fun v2 w2 h2 => ?_
      exact same_pure ⟨⟨h1.1, h2.1⟩, by rw [h1.2, h2.2, Exp.strip]⟩
    | fst e =>
      rw [Exp.Avoids, Exp.Only] at he
      refine (ih e env he henv).bind fun v w h => ?_
      rw [h.2, apair?_strip]
      cases v with
      | apair v1 v2 =>
        have hv := h.1
        rw [Exp.Avoids, Exp.Only] at hv
        exact same_pure ⟨hv.1, rfl⟩
      | _ => exact same_throw _
    | snd e =>
      rw [Exp.Avoids, Exp.Only] at he
      refine (ih e env he henv).bind fun v w h => ?_
      rw [h.2, apair?_strip]
      cases v with
      | apair v1 v2 =>
        have hv := h.1
        rw [Exp.Avoids, Exp.Only] at hv
        exact same_pure ⟨hv.2, rfl⟩
      | _ => exact same_throw _
    | aunit => exact same_pure stripped_aunit
    | isaunit e =>
      rw [Exp.Avoids, Exp.Only] at he
      refine (ih e env he henv).bind fun v w h => ?_
      rw [h.2, isAunit_strip]
      split
      · exact same_pure (stripped_int 1)
      · exact same_pure (stripped_int 0)
    | glet var e body =>
      rw [Exp.Avoids, Exp.Only] at he
      refine (ih e env he.2.1 henv).bind fun v w h => ?_
      rw [h.2, ← strip_genv he.1]
      exact ih body _ he.2.2 (henv.genv h.1)
    | numArray size =>
      change Same _ (if size > 0 then _ else _) (if size > 0 then _ else _)
      split
      · exact makeArray_stripped _
      · exact same_pure stripped_aunit
    | numArrayAt e1 idx =>
      rw [Exp.Avoids, Exp.Only] at he
      refine (ih e1 env he henv).bind fun v w h => ?_
      rw [h.2, mpair?_strip]
      split
      · exact same_throw _
      · exact arrayAt_stripped _ idx
    | numArraySet e1 idx e3 =>
      rw [Exp.Avoids, Exp.Only] at he
      refine (ih e1 env he.1 henv).bind fun v1 w1 h1 => ?_
      refine (ih e3 env he.2 henv).bind fun v2 w2 h2 => ?_
      rw [h1.2, h2.2, int?_strip, mpair?_strip]
      split
      · exact same_throw _
      · split
        · exact same_throw _
        · refine (same_refl (arraySet _ idx _)).bind fun _ _ _ => ?_
          exact same_pure ⟨h2.1, rfl⟩
    | numArrayToList e =>
      rw [Exp.Avoids, Exp.Only] at he
      refine (ih e env he henv).bind fun v w h => ?_
      rw [h.2, mpair?_strip]
      split
      · exact same_throw _
      · refine (same_refl get).bind ?_
        rintro h _ rfl
        exact same_ofExcept_self fun v hv => (plain_of_toMupllist _ hv).stripped
    | closure cenv nameopt formal body => exact same_pure ⟨he, rfl⟩
    | mpair loc => exact same_throw _

/-! ### `ifeq` -/

/-- The same but for the bindings of some names in the environments of closures. -/
def UpTo (names : List String) (v w : Exp) : Prop := v.strip names = w.strip names

theorem upTo_evalUnderEnv {env' : Env} (he : e.Avoids names) (henv : env.Avoids names)
    (henv' : env'.Avoids names) (h : env.strip names = env'.strip names) :
    Same (UpTo names) (evalUnderEnv n e env) (evalUnderEnv n e env') := by
  have h' := evalUnderEnv_strip n e env' he henv'
  rw [← h] at h'
  exact (evalUnderEnv_strip n e env he henv).trans h' fun v w v' hv hv' => hv.2.symm.trans hv'.2

variable {e1 e2 e3 e4 : Exp} {s t u : Heap} {a b : ℤ}

/-- The environment of the branches. -/
def ifeqEnv (a b : ℤ) (env : Env) : Env := .cons "_y" (.int b) (.cons "_x" (.int a) env)

theorem eq_int_of_strip (h : v.strip names = .int a) : v = .int a := by
  cases v with
  | int num => exact h
  | _ => cases h

theorem returns_int_of_strip {env' : Env} (he : e.Avoids names) (henv : env.Avoids names)
    (henv' : env'.Avoids names) (h : env.strip names = env'.strip names)
    (hr : Returns (evalUnderEnv n e env') s (.int a) t) :
    Returns (evalUnderEnv n e env) s (.int a) t := by
  have hsame := upTo_evalUnderEnv (n := n) he henv henv' h s
  rw [show outcome (evalUnderEnv n e env') s = _ from hr] at hsame
  rw [Returns]
  generalize outcome (evalUnderEnv n e env) s = o at hsame ⊢
  cases hsame with
  | ok _ hv => rw [eq_int_of_strip hv]

/-- With integers for both, a branch is evaluated where they are bound. -/
theorem ifeq_outcome (h1 : Returns (evalUnderEnv (n + 4) e1 env) s (.int a) t)
    (h2 : Returns (evalUnderEnv (n + 3) e2 (.cons "_x" (.int a) env)) t (.int b) u) :
    outcome (evalUnderEnv (n + 5) (ifeq e1 e2 e3 e4) env) s =
      outcome (if a > b then evalUnderEnv (n + 2) e4 (ifeqEnv a b env)
        else evalUnderEnv (n + 1) (if b > a then e4 else e3) (ifeqEnv a b env)) u := by
  have hx : ∀ n, Returns (evalUnderEnv (n + 1) (.var "_x") (ifeqEnv a b env)) u (.int a) u :=
    fun n => rfl
  have hy : ∀ n, Returns (evalUnderEnv (n + 1) (.var "_y") (ifeqEnv a b env)) u (.int b) u :=
    fun n => rfl
  rw [ifeq, mletStar, evalUnderEnv]
  refine h1.outcome_bind.trans ?_
  rw [mletStar, evalUnderEnv]
  refine h2.outcome_bind.trans ((outcome_ifgreater (hx _) (hy _)).trans ?_)
  by_cases hab : a > b
  · rw [if_pos hab, if_pos hab, ifeqEnv]
  · rw [if_neg hab, if_neg hab]
    exact outcome_ifgreater (hy n) (hx n)

/-- If `e1` and `e2` evaluate to integers then what comes of `ifeq` is what comes of `e3` or of
`e4`, as they are equal or not, up to the bindings of the names: neither ends, or both end in the
same error, or both return a value; and both leave the same arrays. -/
theorem ifeq_hygienic (he2 : e2.Avoids ["_x", "_y"]) (he3 : e3.Avoids ["_x", "_y"])
    (he4 : e4.Avoids ["_x", "_y"]) (henv : env.Avoids ["_x", "_y"])
    (h1 : Yields e1 env s (.int a) t) (h2 : Yields e2 env t (.int b) u) :
    Alike (UpTo ["_x", "_y"]) (result (ifeq e1 e2 e3 e4) env s)
      (result (if a = b then e3 else e4) env u) := by
  obtain ⟨k, h1⟩ := h1
  obtain ⟨m, h2⟩ := h2
  have hx : (Env.cons "_x" (.int a) env).Avoids ["_x", "_y"] := ⟨trivial, henv⟩
  have hy : (ifeqEnv a b env).Avoids ["_x", "_y"] := ⟨trivial, hx⟩
  have hstrip : (Env.cons "_x" (.int a) env).strip ["_x", "_y"] = env.strip ["_x", "_y"] :=
    strip_cons_mem List.mem_cons_self
  have hstrip' : (ifeqEnv a b env).strip ["_x", "_y"] = env.strip ["_x", "_y"] :=
    (strip_cons_mem (by decide)).trans hstrip
  have hbranch : ∀ n {e : Exp}, e.Avoids ["_x", "_y"] → Alike (UpTo ["_x", "_y"])
      (outcome (evalUnderEnv n e (ifeqEnv a b env)) u) (outcome (evalUnderEnv n e env) u) :=
    fun n e he => upTo_evalUnderEnv he hy henv hstrip' u
  have hifeq : ∀ n ≥ max k m, outcome (evalUnderEnv (n + 5) (ifeq e1 e2 e3 e4) env) s = _ :=
    fun n hn => ifeq_outcome (returns_mono h1 (by omega))
      (returns_int_of_strip he2 hx henv hstrip (returns_mono h2 (by omega)))
  have hmono : ∀ e env n, Le (evalUnderEnv n e env) (evalUnderEnv (n + 1) e env) :=
    fun e env n => evalUnderEnv_succ n e env
  -- The branch takes one or two levels less of fuel than `ifeq`, as the comparisons come out.
  rcases lt_trichotomy a b with hab | hab | hab
  · rw [if_neg hab.ne]
    refine alike_limit (i := 5) (j := 1) (k := max k m) (hmono _ _) (hmono _ _) fun n hn => ?_
    rw [hifeq n hn, if_neg hab.asymm, if_pos hab]
    exact hbranch _ he4
  · rw [if_pos hab]
    refine alike_limit (i := 5) (j := 1) (k := max k m) (hmono _ _) (hmono _ _) fun n hn => ?_
    rw [hifeq n hn, if_neg hab.not_gt, if_neg hab.not_lt]
    exact hbranch _ he3
  · rw [if_neg hab.ne']
    refine alike_limit (i := 5) (j := 2) (k := max k m) (hmono _ _) (hmono _ _) fun n hn => ?_
    rw [hifeq n hn, if_pos hab]
    exact hbranch _ he4

/-- A function that is made in the branch. -/
theorem ifeq_hygienic_func :
    Alike (UpTo ["_x", "_y"])
      (result (ifeq (.int 1) (.int 1) (.func none "z" (.var "z")) .aunit) .nil .empty)
      (result (.func none "z" (.var "z")) .nil .empty) := by
  have hz : "z" ∉ ["_x", "_y"] := by decide
  have he2 : (Exp.int 1).Avoids ["_x", "_y"] := trivial
  have he3 : (Exp.func none "z" (.var "z")).Avoids ["_x", "_y"] := ⟨nofun, hz, hz⟩
  have he4 : Exp.aunit.Avoids ["_x", "_y"] := trivial
  have henv : Env.nil.Avoids ["_x", "_y"] := trivial
  have h1 : Yields (.int 1) .nil .empty (.int 1) .empty := yields_int
  exact ifeq_hygienic he2 he3 he4 henv h1 h1

end Mupl
