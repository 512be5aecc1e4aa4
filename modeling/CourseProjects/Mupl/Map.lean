import CourseProjects.Mupl.Eval

/-!
# Mapping a function over a list

The functions `mupl-map` and `mupl-mapAddN`, which are programs of MUPL.

* `muplMap_yields`: `mupl-map` applied to a function yields the list of what it yields for the
  elements, in order;
* `map_correct`: this for lists that are written as values, and for the numbers of `mupl-mapAddN`.
-/

namespace Mupl

open Fueled

/-- With enough fuel an expression evaluates to a value. -/
def Yields (e : Exp) (env : Env) (h : Heap) (v : Exp) (h' : Heap) : Prop :=
  ∃ n, Returns (evalUnderEnv n e env) h v h'

variable {e e1 e2 e3 e4 f a clsr arg v w v1 v2 : Exp} {env env' : Env} {s t u x : Heap}
  {c : Closure} {str : String} {nameopt : Option String} {formal : String} {body : Exp}
  {num n1 n2 : ℤ} {vs ws : List Exp}

/-! ### The values of expressions -/

theorem yields_var (h : envlookup str env = .ok v) : Yields (.var str) env s v s := by
  refine ⟨1, ?_⟩
  rw [evalUnderEnv, h]
  exact returns_pure

theorem yields_int : Yields (.int num) env s (.int num) s := ⟨1, returns_pure⟩

theorem yields_aunit : Yields .aunit env s .aunit s := ⟨1, returns_pure⟩

theorem yields_closure :
    Yields (.closure env' nameopt formal body) env s (.closure env' nameopt formal body) s :=
  ⟨1, returns_pure⟩

theorem yields_func :
    Yields (.func nameopt formal body) env s (.closure env nameopt formal body) s :=
  ⟨1, returns_pure⟩

theorem Yields.apair (h1 : Yields e1 env s v1 t) (h2 : Yields e2 env t v2 u) :
    Yields (.apair e1 e2) env s (.apair v1 v2) u := by
  obtain ⟨m, h1⟩ := h1
  obtain ⟨n, h2⟩ := h2
  refine ⟨max m n + 1, ?_⟩
  rw [evalUnderEnv]
  exact (returns_mono h1 (le_max_left m n)).bind
    ((returns_mono h2 (le_max_right m n)).bind returns_pure)

theorem Yields.fst (h : Yields e env s (.apair v1 v2) t) : Yields (.fst e) env s v1 t := by
  obtain ⟨n, h⟩ := h
  refine ⟨n + 1, ?_⟩
  rw [evalUnderEnv]
  exact h.bind returns_pure

theorem Yields.snd (h : Yields e env s (.apair v1 v2) t) : Yields (.snd e) env s v2 t := by
  obtain ⟨n, h⟩ := h
  refine ⟨n + 1, ?_⟩
  rw [evalUnderEnv]
  exact h.bind returns_pure

theorem Yields.isaunit (h : Yields e env s v t) :
    Yields (.isaunit e) env s (.int (if v.isAunit then 1 else 0)) t := by
  obtain ⟨n, h⟩ := h
  refine ⟨n + 1, ?_⟩
  rw [evalUnderEnv]
  refine h.bind ?_
  split <;> exact returns_pure

theorem Yields.add (h1 : Yields e1 env s (.int n1) t) (h2 : Yields e2 env t (.int n2) u) :
    Yields (.add e1 e2) env s (.int (n1 + n2)) u := by
  obtain ⟨m, h1⟩ := h1
  obtain ⟨n, h2⟩ := h2
  refine ⟨max m n + 1, ?_⟩
  rw [evalUnderEnv]
  exact (returns_mono h1 (le_max_left m n)).bind
    ((returns_mono h2 (le_max_right m n)).bind returns_pure)

theorem outcome_ifgreater {n : ℕ} (h1 : Returns (evalUnderEnv n e1 env) s (.int n1) t)
    (h2 : Returns (evalUnderEnv n e2 env) t (.int n2) u) :
    outcome (evalUnderEnv (n + 1) (.ifgreater e1 e2 e3 e4) env) s =
      outcome (evalUnderEnv n (if n1 > n2 then e3 else e4) env) u := by
  rw [evalUnderEnv]
  refine h1.outcome_bind.trans (h2.outcome_bind.trans ?_)
  change outcome (if n1 > n2 then _ else _) u = _
  split <;> rfl

theorem Yields.ifgreater (h1 : Yields e1 env s (.int n1) t) (h2 : Yields e2 env t (.int n2) u)
    (h3 : Yields (if n1 > n2 then e3 else e4) env u v x) :
    Yields (.ifgreater e1 e2 e3 e4) env s v x := by
  obtain ⟨l, h1⟩ := h1
  obtain ⟨m, h2⟩ := h2
  obtain ⟨n, h3⟩ := h3
  have h1 := returns_mono (n := max l (max m n)) h1 (by omega)
  have h2 := returns_mono (n := max l (max m n)) h2 (by omega)
  exact ⟨_, (outcome_ifgreater h1 h2).trans (returns_mono h3 (by omega))⟩

theorem Yields.call (hf : Yields f env s clsr t) (ha : Yields a env t arg u)
    (hc : clsr.closure? = some c) (hb : Yields c.body (c.bodyEnv clsr arg) u v x) :
    Yields (.call f a) env s v x := by
  obtain ⟨l, hf⟩ := hf
  obtain ⟨m, ha⟩ := ha
  obtain ⟨n, hb⟩ := hb
  refine ⟨max l (max m n) + 1, ?_⟩
  rw [evalUnderEnv]
  refine (returns_mono hf (by omega)).bind ((returns_mono ha (by omega)).bind ?_)
  rw [hc]
  exact returns_mono hb (by omega)

/-- The unit has one branch, and everything else the other. -/
theorem Yields.ifaunit (h : Yields e1 env s v t)
    (h' : Yields (if v.isAunit then e2 else e3) env t w u) :
    Yields (ifaunit e1 e2 e3) env s w u := by
  refine h.isaunit.ifgreater yields_int ?_
  cases hv : v.isAunit with
  | true =>
    rw [hv, if_pos rfl] at h'
    exact h'
  | false =>
    rw [hv, if_neg Bool.false_ne_true] at h'
    exact h'

/-! ### The map -/

/-- A function yields values for arguments, one after the other. -/
inductive Maps (clsr : Exp) (c : Closure) : List Exp → List Exp → Heap → Heap → Prop
  | nil (h : Heap) : Maps clsr c [] [] h h
  | cons {v w : Exp} {vs ws : List Exp} {s t u : Heap} :
    Yields c.body (c.bodyEnv clsr v) s w t → Maps clsr c vs ws t u →
      Maps clsr c (v :: vs) (w :: ws) s u

/-- The body of `mupl-map-gen`. -/
def genBody : Exp :=
  ifaunit (.var "lst") .aunit
    (.apair (.call (.var "fn") (.fst (.var "lst")))
      (.call (.var "mupl-map-gen") (.snd (.var "lst"))))

/-- What `mupl-map` yields for a function: the environment has the function as `fn`. -/
def genClosure (clsr : Exp) (env : Env) : Closure where
  env := .cons "mupl-map" (.closure env (some "mupl-map") "fn"
    (.func (some "mupl-map-gen") "lst" genBody)) (.cons "fn" clsr env)
  nameopt := some "mupl-map-gen"
  formal := "lst"
  body := genBody

/-- `mupl-map-gen` yields the list of values. -/
theorem gen_yields {gen : Exp} (hc : clsr.closure? = some c) (hgen : gen.closure? = some
    (genClosure clsr env)) (h : Maps clsr c vs ws s t) :
    Yields genBody ((genClosure clsr env).bodyEnv gen (muplList vs)) s (muplList ws) t := by
  have hlst : ∀ s, Yields (.var "lst") ((genClosure clsr env).bodyEnv gen (muplList vs)) s
      (muplList vs) s := fun s => yields_var rfl
  -- Each call binds `mupl-map-gen` to itself anew, in the same environment but for `lst`.
  induction h with
  | nil h => exact (hlst h).ifaunit yields_aunit
  | @cons v w vs ws s t u hw _ ih =>
    have hfn : Yields (.var "fn") ((genClosure clsr env).bodyEnv gen (muplList (v :: vs))) s
        clsr s := yields_var rfl
    have hself : Yields (.var "mupl-map-gen") ((genClosure clsr env).bodyEnv gen
        (muplList (v :: vs))) t gen t := yields_var rfl
    refine (hlst s).ifaunit (Yields.apair (hfn.call (hlst s).fst hc hw) ?_)
    exact hself.call (hlst t).snd hgen (ih fun s => yields_var rfl)

/-- `mupl-map` applied to a function, and to an expression that evaluates to a list, yields the
list of what the function yields for its elements. -/
theorem muplMap_yields (hf : Yields f env s clsr t) (hc : clsr.closure? = some c)
    (ha : Yields a env t (muplList vs) u) (h : Maps clsr c vs ws u x) :
    Yields (.call (.call muplMap f) a) env s (muplList ws) x := by
  have hgen : Yields (.call muplMap f) env s
      (.closure (genClosure clsr env).env (some "mupl-map-gen") "lst" genBody) t :=
    yields_func.call hf rfl yields_func
  exact hgen.call ha rfl (gen_yields hc rfl h)

/-- The values that can be written in a program: integers, closures, the unit and pairs. (An object
of an array is not an expression.) -/
inductive Value : Exp → Prop
  | int (num : ℤ) : Value (.int num)
  | closure (env : Env) (nameopt : Option String) (formal : String) (body : Exp) :
    Value (.closure env nameopt formal body)
  | aunit : Value .aunit
  | apair {v1 v2 : Exp} : Value v1 → Value v2 → Value (.apair v1 v2)

theorem Value.yields (h : Value v) : Yields v env s v s := by
  induction h with
  | int num => exact yields_int
  | closure env nameopt formal body => exact yields_closure
  | aunit => exact yields_aunit
  | apair _ _ ih1 ih2 => exact ih1.apair ih2

theorem value_muplList (h : ∀ v ∈ vs, Value v) : Value (muplList vs) := by
  induction vs with
  | nil => exact .aunit
  | cons v vs ih =>
    exact .apair (h v List.mem_cons_self) (ih fun v hv => h v (List.mem_cons_of_mem _ hv))

/-- The function that `mupl-mapAddN` maps. -/
def addClosure (k : ℤ) (env : Env) : Closure where
  env := .cons "mupl-mapAddN" (.closure env (some "mupl-mapAddN") "I"
    (.call muplMap (.func none "x" (.add (.var "x") (.var "I"))))) (.cons "I" (.int k) env)
  nameopt := none
  formal := "x"
  body := .add (.var "x") (.var "I")

theorem maps_add (k : ℤ) (nums : List ℤ) :
    Maps clsr (addClosure k env) (nums.map .int) (nums.map fun i => .int (i + k)) s s := by
  induction nums with
  | nil => exact .nil s
  | cons i nums ih =>
    exact .cons (Yields.add (yields_var rfl) (yields_var rfl)) ih

/-- `mupl-map` applied to a closure and a list yields the list of what the closure yields for the
values, in order, also when the list comes of an evaluation; and `mupl-mapAddN` adds its integer to
each of a list. -/
theorem map_correct {f : Exp} (hf : f.closure? = some c) (h : Maps f c vs ws s t) :
    ((∀ v ∈ vs, Value v) →
      Yields (.call (.call muplMap f) (muplList vs)) env s (muplList ws) t) ∧
    (∀ lst s₀, Yields lst env s₀ (muplList vs) s →
      Yields (.call (.call muplMap f) lst) env s₀ (muplList ws) t) ∧
    ∀ (k : ℤ) (nums : List ℤ), Yields (.call (.call muplMapAddN (.int k))
      (muplList (nums.map .int))) env s (muplList (nums.map fun i => .int (i + k))) s := by
  have hself : ∀ s, Yields f env s f s := by
    intro s
    cases f with
    | closure => exact yields_closure
    | _ => cases hf
  refine ⟨fun hvs => ?_, fun lst s₀ hlst => ?_, fun k nums => ?_⟩
  · exact muplMap_yields (hself s) hf (value_muplList hvs).yields h
  · exact muplMap_yields (hself s₀) hf hlst h
  · have hnums : ∀ v ∈ nums.map Exp.int, Value v := by
      intro v hv
      obtain ⟨i, -, rfl⟩ := List.mem_map.1 hv
      exact .int i
    have hmap : Yields (.call muplMapAddN (.int k)) env s (.closure (genClosure (.closure
        (addClosure k env).env none "x" (addClosure k env).body) (addClosure k env).env).env
          (some "mupl-map-gen") "lst" genBody) s :=
      yields_func.call yields_int rfl (yields_func.call yields_func rfl yields_func)
    exact hmap.call (value_muplList hnums).yields rfl (gen_yields rfl rfl (maps_add k nums))

/-- The successor of two numbers. -/
theorem map_correct_succ :
    Yields (.call (.call muplMap (.closure .nil none "x" (.add (.var "x") (.int 1))))
      (muplList [.int 5, .int 7])) .nil .empty (muplList [.int 6, .int 8]) .empty := by
  refine (map_correct (c := ⟨.nil, none, "x", .add (.var "x") (.int 1)⟩) rfl ?_).1 ?_
  · exact .cons (.add (yields_var (v := .int 5) rfl) yields_int)
      (.cons (.add (yields_var (v := .int 7) rfl) yields_int) (.nil _))
  · intro v hv
    rcases List.mem_cons.1 hv with rfl | hv
    · exact .int 5
    · rw [List.mem_singleton.1 hv]
      exact .int 7

end Mupl
