import CourseProjects.Mupl.Chain
import CourseProjects.Mupl.Mentions

/-!
# Arrays

The accesses to an array in an evaluation, through whatever variables and closures, follow the law
of a bounded mutable array.

* `accesses`: the accesses to arrays in an evaluation, in order, each with what comes of it;
* `evalUnderEnv_traced`: the accesses to an array follow the law, and it holds what they say at the
  end of the evaluation;
* `array_law`: this for a new array, and any evaluations after it.
-/

namespace Mupl

open Fueled MonadExcept

/-! ### Accesses -/

/-- A `num-array-at`, or a `num-array-set` of a value, on an array at an index, and what comes of
it. -/
structure Access where
  loc : ℕ
  idx : ℤ
  stored : Option Exp
  result : Option (Except Error Exp × Heap)

/-- The rest of `num-array-at`, when `e1` has been evaluated. -/
def numArrayAt (arr : Exp) (idx : ℤ) : Eval Exp :=
  match arr.mpair? with
  | none => throw (.error "MUPL num-array-at e1 applied to non-num-array" [])
  | some loc => arrayAt loc idx

/-- The rest of `num-array-set`, when `e1` and `e3` have been evaluated. -/
def numArraySet (arr : Exp) (idx : ℤ) (v : Exp) : Eval Exp :=
  match v.int? with
  | none => throw (.error "MUPL num-array-set e3 applied to non-int" [])
  | some num =>
    match arr.mpair? with
    | none => throw (.error "MUPL num-array-set e1 applied to non-num-array" [])
    | some loc => do
      arraySet loc idx num
      pure v

theorem evalUnderEnv_numArrayAt (n : ℕ) (e1 : Exp) (idx : ℤ) (env : Env) :
    evalUnderEnv (n + 1) (.numArrayAt e1 idx) env =
      evalUnderEnv n e1 env >>= fun arr => numArrayAt arr idx := rfl

theorem evalUnderEnv_numArraySet (n : ℕ) (e1 : Exp) (idx : ℤ) (e3 : Exp) (env : Env) :
    evalUnderEnv (n + 1) (.numArraySet e1 idx e3) env =
      evalUnderEnv n e1 env >>= fun arr => evalUnderEnv n e3 env >>= fun v =>
        numArraySet arr idx v := rfl

def accessAt (arr : Exp) (idx : ℤ) (h : Heap) : List Access :=
  match arr.mpair? with
  | none => []
  | some loc => [⟨loc, idx, none, outcome (numArrayAt arr idx) h⟩]

def accessSet (arr : Exp) (idx : ℤ) (v : Exp) (h : Heap) : List Access :=
  match arr.mpair? with
  | none => []
  | some loc => [⟨loc, idx, some v, outcome (numArraySet arr idx v) h⟩]

/-- The accesses to arrays in an evaluation, up to where the fuel runs out. -/
def accesses : ℕ → Exp → Env → Heap → List Access
  | 0, _, _, _ => []
  | n + 1, e, env, h =>
    match e with
    | .var _ => []
    | .int _ => []
    | .add e1 e2 =>
      accesses n e1 env h ++ after (outcome (evalUnderEnv n e1 env) h) fun _ h =>
        accesses n e2 env h
    | .ifgreater e1 e2 e3 e4 =>
      accesses n e1 env h ++ after (outcome (evalUnderEnv n e1 env) h) fun v1 h =>
        accesses n e2 env h ++ after (outcome (evalUnderEnv n e2 env) h) fun v2 h =>
          match v1.int?, v2.int? with
          | some n1, some n2 => if n1 > n2 then accesses n e3 env h else accesses n e4 env h
          | _, _ => []
    | .closure _ _ _ _ => []
    | .func _ _ _ => []
    | .call funexp actual =>
      accesses n funexp env h ++ after (outcome (evalUnderEnv n funexp env) h) fun clsr h =>
        accesses n actual env h ++ after (outcome (evalUnderEnv n actual env) h) fun arg h =>
          match clsr.closure? with
          | some c => accesses n c.body (c.bodyEnv clsr arg) h
          | none => []
    | .mlet var e body =>
      accesses n e env h ++ after (outcome (evalUnderEnv n e env) h) fun v h =>
        accesses n body (.cons var v env) h
    | .glet var e body =>
      accesses n e env h ++ after (outcome (evalUnderEnv n e env) h) fun v h =>
        accesses n body (genv var v env) h
    | .apair e1 e2 =>
      accesses n e1 env h ++ after (outcome (evalUnderEnv n e1 env) h) fun _ h =>
        accesses n e2 env h
    | .fst e => accesses n e env h
    | .snd e => accesses n e env h
    | .aunit => []
    | .isaunit e => accesses n e env h
    | .numArray _ => []
    | .numArrayAt e1 idx =>
      accesses n e1 env h ++ after (outcome (evalUnderEnv n e1 env) h) fun arr h =>
        accessAt arr idx h
    | .numArraySet e1 idx e3 =>
      accesses n e1 env h ++ after (outcome (evalUnderEnv n e1 env) h) fun arr h =>
        accesses n e3 env h ++ after (outcome (evalUnderEnv n e3 env) h) fun v h =>
          accessSet arr idx v h
    | .numArrayToList e =>
      accesses n e env h
    | .mpair _ => []

/-- Evaluations one after the other, also after one that has failed: the accesses, and the arrays at
the end, unless the fuel runs out. -/
def session : List (ℕ × Exp × Env) → Heap → List Access × Option Heap
  | [], h => ([], some h)
  | (n, e, env) :: rest, h =>
    match outcome (evalUnderEnv n e env) h with
    | none => (accesses n e env h, none)
    | some (_, h') =>
      (accesses n e env h ++ (session rest h').1, (session rest h').2)

/-! ### The law -/

section Law

variable (l n : ℕ)

/-- What an access stores in an array at an index. -/
def storedAt (i : ℤ) (a : Access) : Option ℤ :=
  if a.loc = l ∧ a.idx = i then a.stored.bind Exp.int? else none

/-- The last integer that has been stored in an array at an index, or zero. -/
def lastStored (as : List Access) (i : ℤ) : ℤ := (as.filterMap (storedAt l i)).getLast?.getD 0

/-- An array of a length, with its elements. -/
structure IsArray (h : Heap) (c : ℤ → ℤ) : Prop where
  length : h.arrayLength l = .ok n
  elements : ∀ i < n, h.mlistRef (some l) i = .ok (.int (c i))

/-- The reply to an access to an array of a length. -/
def reply (c : ℤ → ℤ) (idx : ℤ) : Option Exp → Except Error Exp
  | none =>
    if 0 ≤ idx ∧ idx < n then .ok (.int (c idx))
    else .error (.error "MUPL num-array access out of bound" [])
  | some v =>
    match v.int? with
    | none => .error (.error "MUPL num-array-set e3 applied to non-int" [])
    | some num =>
      if 0 ≤ idx ∧ idx < n then .ok (.int num)
      else .error (.error "MUPL num-array access out of bound" [])

/-- An access to the array is replied to by what has been stored before it, and leaves an array of
the same length, with what has been stored. -/
def Access.Obeys (before : List Access) (a : Access) : Prop :=
  a.loc = l → ∃ h, a.result = some (reply n (lastStored l before) a.idx a.stored, h) ∧
    IsArray l n h (lastStored l (before ++ [a]))

end Law

variable {base m n l : ℕ} {c : ℤ → ℤ} {h h' : Heap} {as before : List Access} {a : Access}
  {arr v : Exp} {idx i num : ℤ} {loc : ℕ}

theorem lastStored_append (as : List Access) (a : Access) (i : ℤ) :
    lastStored l (as ++ [a]) i = (storedAt l i a).getD (lastStored l as i) := by
  rw [lastStored, List.filterMap_append, List.filterMap_cons, List.filterMap_nil]
  cases h : storedAt l i a with
  | none =>
    simp only [List.append_nil]
    rfl
  | some num => simp

/-- An access that stores nothing in the array. -/
theorem lastStored_of_none (h : ∀ i, storedAt l i a = none) :
    lastStored l (as ++ [a]) = lastStored l as := by
  funext i
  rw [lastStored_append, h, Option.getD_none]

theorem lastStored_update (r : Option (Except Error Exp × Heap)) :
    lastStored l (as ++ [⟨l, idx, some (.int num), r⟩]) =
      Function.update (lastStored l as) idx num := by
  funext i
  rw [lastStored_append, storedAt]
  by_cases hi : idx = i
  · rw [if_pos ⟨rfl, hi⟩, ← hi, Function.update_self]
    rfl
  · rw [if_neg fun h => hi h.2, Function.update_of_ne (Ne.symm hi), Option.getD_none]

theorem Chain.congr {c' : ℤ → ℤ} (hc : Chain base m c h)
    (hcc : ∀ i : ℤ, 0 ≤ i → i < (m + 1 : ℕ) → c i = c' i) : Chain base m c' h := by
  refine ⟨fun j hj => ?_, hc.apart⟩
  rw [hc.chain j hj, hcc _ (by omega) (by omega)]

theorem Chain.isArray (hc : Chain base m c h) : IsArray (base + m) (m + 1) h c := by
  refine ⟨hc.arrayLength le_rfl, fun i hi => ?_⟩
  rw [hc.mlistRef (by omega) le_rfl, sub_self, zero_add]

/-! ### What accesses do -/

theorem outcome_arrayAt (loc : ℕ) (idx : ℤ) (h : Heap) : outcome (arrayAt loc idx) h =
    some ((h.arrayLength loc).bind fun length =>
      if 0 ≤ idx ∧ idx < length then h.mlistRef (some loc) idx.toNat
      else .error (.error "MUPL num-array access out of bound" []), h) := by
  rw [arrayAt, outcome_bind, outcome_get]
  change outcome (ofExcept (h.arrayLength loc) >>= _) h = _
  cases h.arrayLength loc with
  | error err => rfl
  | ok length =>
    change outcome (if 0 ≤ idx ∧ idx < length then _ else _) h =
      some (if 0 ≤ idx ∧ idx < length then _ else _, h)
    split
    · cases h.mlistRef (some loc) idx.toNat <;> rfl
    · rfl

/-- Nothing of the array changes, or it is stored in. -/
theorem outcome_arraySet (loc : ℕ) (idx num : ℤ) (h : Heap) :
    outcome (arraySet loc idx num) h = some (
      match h.arrayLength loc with
      | .error err => (.error err, h)
      | .ok length =>
        if 0 ≤ idx ∧ idx < length then
          match h.setArrayVal num (some loc) idx.toNat with
          | .error err => (.error err, h)
          | .ok h' => (.ok ⟨⟩, h')
        else (.error (.error "MUPL num-array access out of bound" []), h)) := by
  rw [arraySet, outcome_bind, outcome_get]
  change outcome (ofExcept (h.arrayLength loc) >>= _) h = _
  cases h.arrayLength loc with
  | error err => rfl
  | ok length =>
    change outcome (if 0 ≤ idx ∧ idx < length then _ else _) h =
      some (if 0 ≤ idx ∧ idx < length then _ else _)
    split
    · cases h.setArrayVal num (some loc) idx.toNat <;> rfl
    · rfl

/-! ### The law is followed -/

variable (base m) in
/-- An expression, or a value, with no pointer to the middle of the chain. -/
abbrev Exp.Outside (e : Exp) : Prop :=
  e.Only (fun _ => True) fun loc => loc < base ∨ base + m ≤ loc

variable (base m) in
/-- An environment without such pointers. -/
abbrev Env.Outside (env : Env) : Prop :=
  env.Only (fun _ => True) fun loc => loc < base ∨ base + m ≤ loc

variable (base m) in
/-- The chain holds what has been stored. -/
def Stores (before : List Access) (h : Heap) : Prop :=
  Chain base m (lastStored (base + m) before) h

variable (base m) in
/-- The accesses of an evaluation follow the law of the array. -/
abbrev Follows (x : Eval Exp) (events : Heap → List Access) : Prop :=
  Traced (Stores base m) (Access.Obeys (base + m) (m + 1)) (Exp.Outside base m) x events

/-- A computation that is one access. -/
theorem follows_access {x : Eval Exp} {stored : Option Exp}
    (hx : ∀ before h, Stores base m before h → ∃ r h', outcome x h = some (r, h') ∧
      (∀ v, r = .ok v → v.Outside base m) ∧
      (loc = base + m → r = reply (m + 1) (lastStored (base + m) before) idx stored) ∧
      Stores base m (before ++ [⟨loc, idx, stored, outcome x h⟩]) h') :
    Follows base m x fun h => [⟨loc, idx, stored, outcome x h⟩] := by
  intro before h hs
  obtain ⟨r, h', hr, hv, hreply, hs'⟩ := hx before h hs
  refine ⟨⟨fun hloc => ⟨h', ?_, hs'.isArray⟩, trivial⟩, fun r' t hr' => ?_⟩
  · rw [hr, hreply hloc]
  · cases hr.symm.trans hr'
    exact ⟨hs', hv⟩

theorem Stores.of_none (hs : Stores base m before h) (hnone : ∀ i, storedAt (base + m) i a = none) :
    Stores base m (before ++ [a]) h := by
  rw [Stores, lastStored_of_none hnone]
  exact hs

theorem follows_at (harr : arr.Outside base m) :
    Follows base m (numArrayAt arr idx) (accessAt arr idx) := by
  cases arr with
  | mpair loc =>
    refine follows_access fun before h hs => ⟨_, h, outcome_arrayAt loc idx h, fun v hv => ?_,
      fun hloc => ?_, hs.of_none fun i => ite_self _⟩
    · cases hlen : h.arrayLength loc with
      | error err =>
        rw [hlen] at hv
        cases hv
      | ok length =>
        rw [hlen] at hv
        change (if 0 ≤ idx ∧ idx < length then _ else _) = _ at hv
        split at hv
        · exact (plain_of_mlistRef hv).only
        · cases hv
    · rw [hloc, hs.arrayLength le_rfl]
      change (if 0 ≤ idx ∧ idx < (m + 1 : ℕ) then _ else _) =
        if 0 ≤ idx ∧ idx < (m + 1 : ℕ) then _ else _
      by_cases hidx : 0 ≤ idx ∧ idx < (m + 1 : ℕ)
      · rw [if_pos hidx, if_pos hidx, hs.mlistRef (by omega) le_rfl, sub_self, zero_add,
          Int.toNat_of_nonneg hidx.1]
      · rw [if_neg hidx, if_neg hidx]
  | _ => exact traced_throw _

/-- A value that is not an integer is not stored. -/
theorem follows_set_error (hv : v.int? = none) :
    Follows base m (numArraySet arr idx v) (accessSet arr idx v) := by
  have hset : numArraySet arr idx v =
      throw (.error "MUPL num-array-set e3 applied to non-int" []) := by
    rw [numArraySet, hv]
  cases arr with
  | mpair loc =>
    refine follows_access fun before h hs => ?_
    have hout : outcome (numArraySet (.mpair loc) idx v) h = some (.error _, h) :=
      congrArg (outcome · h) hset
    refine ⟨.error _, h, hout, nofun, fun hloc => ?_, hs.of_none fun i => ?_⟩
    · rw [reply, hv]
    · rw [storedAt, Option.bind_some, hv, ite_self]
  | _ =>
    rw [hset]
    exact traced_throw _

theorem outcome_set_int (loc : ℕ) (idx num : ℤ) (h : Heap) :
    outcome (numArraySet (.mpair loc) idx (.int num)) h = some (
      match h.arrayLength loc with
      | .error err => (.error err, h)
      | .ok length =>
        if 0 ≤ idx ∧ idx < length then
          match h.setArrayVal num (some loc) idx.toNat with
          | .error err => (.error err, h)
          | .ok h' => (.ok (.int num), h')
        else (.error (.error "MUPL num-array access out of bound" []), h)) := by
  change outcome (arraySet loc idx num >>= _) h = _
  rw [outcome_bind, outcome_arraySet]
  cases h.arrayLength loc with
  | error err => rfl
  | ok length =>
    by_cases hidx : 0 ≤ idx ∧ idx < length
    · simp only [if_pos hidx]
      cases h.setArrayVal num (some loc) idx.toNat <;> rfl
    · simp only [if_neg hidx]
      rfl

/-- The array is written, or the index is out of bounds. -/
theorem follows_set_self (num : ℤ) :
    Follows base m (numArraySet (.mpair (base + m)) idx (.int num))
      (accessSet (.mpair (base + m)) idx (.int num)) := by
  refine follows_access fun before h hs => ?_
  have hset := outcome_set_int (base + m) idx num h
  rw [hs.arrayLength le_rfl] at hset
  by_cases hidx : 0 ≤ idx ∧ idx < (m + 1 : ℕ)
  · -- In bounds, the walk along the chain writes the element.
    obtain ⟨h', hs', hc'⟩ := hs.setArrayVal (i := idx.toNat) num (by omega) le_rfl
    simp only [if_pos hidx, hs'] at hset
    refine ⟨.ok (.int num), h', hset, fun v hv => ?_, fun _ => (if_pos hidx).symm, ?_⟩
    · cases hv
      trivial
    · rw [Stores, lastStored_update]
      rwa [sub_self, zero_add, Int.toNat_of_nonneg hidx.1] at hc'
  · -- What is recorded as stored out of bounds is not an element.
    have hset := hset.trans (congrArg some (if_neg hidx))
    refine ⟨.error _, h, hset, nofun, fun _ => (if_neg hidx).symm, ?_⟩
    rw [Stores, lastStored_update]
    refine hs.congr fun i hi hi' => (Function.update_of_ne ?_ _ _).symm
    rintro rfl
    exact hidx ⟨hi, hi'⟩

/-- Another array is written. -/
theorem follows_set_apart (hloc : loc < base ∨ base + m < loc) (num : ℤ) :
    Follows base m (numArraySet (.mpair loc) idx (.int num))
      (accessSet (.mpair loc) idx (.int num)) := by
  refine follows_access fun before h hs => ?_
  have hset := outcome_set_int loc idx num h
  have hne : loc ≠ base + m := by omega
  have hnone : ∀ i r, storedAt (base + m) i ⟨loc, idx, some (.int num), r⟩ = none :=
    fun i r => if_neg fun h => hne h.1
  cases hlen : h.arrayLength loc with
  | error err =>
    rw [hlen] at hset
    exact ⟨.error _, h, hset, nofun, fun h => absurd h hne, hs.of_none fun i => hnone i _⟩
  | ok length =>
    rw [hlen] at hset
    by_cases hidx : 0 ≤ idx ∧ idx < length
    · simp only [if_pos hidx] at hset
      cases hs' : h.setArrayVal num (some loc) idx.toNat with
      | error err =>
        rw [hs'] at hset
        exact ⟨.error _, h, hset, nofun, fun h => absurd h hne, hs.of_none fun i => hnone i _⟩
      | ok h' =>
        rw [hs'] at hset
        refine ⟨.ok (.int num), h', hset, fun v hv => ?_, fun h => absurd h hne, ?_⟩
        · cases hv
          trivial
        · -- The walk begins outside of the chain, and no pair outside leads into it.
          have hs' : Stores base m before h' := hs.setArrayVal_apart hloc hs'
          exact hs'.of_none fun i => hnone i _
    · simp only [if_neg hidx] at hset
      exact ⟨.error _, h, hset, nofun, fun h => absurd h hne, hs.of_none fun i => hnone i _⟩

theorem follows_set (harr : arr.Outside base m) :
    Follows base m (numArraySet arr idx v) (accessSet arr idx v) := by
  cases hv : v.int? with
  | none => exact follows_set_error hv
  | some num =>
    cases v with
    | int num =>
      cases arr with
      | mpair loc =>
        have hloc : loc < base ∨ base + m ≤ loc := harr
        by_cases heq : loc = base + m
        · rw [heq]
          exact follows_set_self num
        · exact follows_set_apart (by omega) num
      | _ => exact traced_throw _
    | _ => cases hv

/-- What fails, or returns without a change of the arrays, has no accesses. -/
theorem follows_ofExcept {r : Heap → Except Error Exp} {x : Eval Exp}
    (hx : ∀ h, outcome x h = some (r h, h)) (hr : ∀ h v, r h = .ok v → v.Outside base m) :
    Follows base m x fun _ => [] := by
  refine traced_quiet fun before h hs r' t ht => ?_
  rw [hx] at ht
  cases ht
  exact ⟨hs, hr h⟩

theorem outcome_makeArray (size : ℕ) (h : Heap) : outcome (makeArray size) h = some (
    match (h.makeArrayObject size).2 with
    | some loc => .ok (.mpair loc)
    | none => .error .contract, (h.makeArrayObject size).1) := by
  rw [makeArray, outcome_bind, outcome_get, Option.bind_some]
  dsimp only
  rw [outcome_bind, outcome_set, Option.bind_some]
  cases (h.makeArrayObject size).2 <;> rfl

theorem makeArray_follows (size : ℕ) : Follows base m (makeArray size) fun _ => [] := by
  refine traced_quiet fun before h hs r t hr => ?_
  obtain ⟨hs', hloc⟩ := hs.makeArrayObject size
  rw [outcome_makeArray] at hr
  cases hm : (h.makeArrayObject size).2 with
  | none =>
    rw [hm] at hr
    cases hr
    exact ⟨hs', nofun⟩
  | some loc =>
    rw [hm] at hr
    cases hr
    refine ⟨hs', fun v hv => ?_⟩
    cases hv
    exact .inr (hloc loc hm).le

/-- By induction on the fuel. -/
theorem evalUnderEnv_traced (n : ℕ) (e : Exp) (env : Env) (he : e.Outside base m)
    (henv : env.Outside base m) : Follows base m (evalUnderEnv n e env) (accesses n e env) := by
  induction n generalizing e env with
  | zero => exact traced_outOfFuel
  | succ n ih =>
    rw [evalUnderEnv.eq_def]
    cases e with
    | var string =>
      refine follows_ofExcept (r := fun _ => envlookup string env) (fun h => ?_) fun _ v =>
        henv.envlookup
      change outcome (ofExcept (envlookup string env)) h = some (envlookup string env, h)
      cases envlookup string env <;> rfl
    | int num => exact traced_pure he
    | add e1 e2 =>
      rw [Exp.Outside, Exp.Only] at he
      refine (ih e1 env he.1 henv).bind fun v1 h1 => ?_
      refine (ih e2 env he.2 henv).bind_quiet fun v2 h2 => ?_
      split
      · exact traced_pure trivial
      · exact traced_throw _
    | ifgreater e1 e2 e3 e4 =>
      rw [Exp.Outside, Exp.Only] at he
      obtain ⟨he1, he2, he3, he4⟩ := he
      refine (ih e1 env he1 henv).bind fun v1 h1 => (ih e2 env he2 henv).bind fun v2 h2 => ?_
      cases v1 with
      | int n1 =>
        cases v2 with
        | int n2 =>
          change Follows base m (if n1 > n2 then _ else _) fun h => if n1 > n2 then _ else _
          by_cases h : n1 > n2
          · simp only [if_pos h]
            exact ih e3 env he3 henv
          · simp only [if_neg h]
            exact ih e4 env he4 henv
        | _ => exact traced_throw _
      | _ => exact traced_throw _
    | func nameopt formal body =>
      rw [Exp.Outside, Exp.Only] at he
      exact traced_pure ⟨henv, he⟩
    | call funexp actual =>
      -- The accesses of the function, of the argument and of the body follow each other.
      rw [Exp.Outside, Exp.Only] at he
      refine (ih _ env he.1 henv).bind fun clsr hclsr => ?_
      refine (ih _ env he.2 henv).bind fun arg harg => ?_
      cases clsr with
      | closure cenv nameopt formal body =>
        have hc := hclsr
        rw [Exp.Outside, Exp.Only] at hc
        exact ih body _ hc.2.2.2 (only_bodyEnv hc.1 hclsr harg)
      | _ => exact traced_throw _
    | mlet var e body =>
      rw [Exp.Outside, Exp.Only] at he
      exact (ih e env he.2.1 henv).bind fun v hv => ih body _ he.2.2 ⟨hv, henv⟩
    | apair e1 e2 =>
      rw [Exp.Outside, Exp.Only] at he
      refine (ih e1 env he.1 henv).bind fun v1 h1 => ?_
      refine (ih e2 env he.2 henv).bind_quiet fun v2 h2 => ?_
      exact traced_pure ⟨h1, h2⟩
    | fst e =>
      rw [Exp.Outside, Exp.Only] at he
      refine (ih e env he henv).bind_quiet fun v hv => ?_
      cases v with
      | apair v1 v2 =>
        rw [Exp.Outside, Exp.Only] at hv
        exact traced_pure hv.1
      | _ => exact traced_throw _
    | snd e =>
      rw [Exp.Outside, Exp.Only] at he
      refine (ih e env he henv).bind_quiet fun v hv => ?_
      cases v with
      | apair v1 v2 =>
        rw [Exp.Outside, Exp.Only] at hv
        exact traced_pure hv.2
      | _ => exact traced_throw _
    | aunit => exact traced_pure trivial
    | isaunit e =>
      rw [Exp.Outside, Exp.Only] at he
      refine (ih e env he henv).bind_quiet fun v hv => ?_
      split
      · exact traced_pure trivial
      · exact traced_pure trivial
    | glet var e body =>
      rw [Exp.Outside, Exp.Only] at he
      exact (ih e env he.2.1 henv).bind fun v hv => ih body _ he.2.2 (henv.genv hv)
    | numArray size =>
      change Follows base m (if size > 0 then _ else _) fun _ => []
      split
      · exact makeArray_follows _
      · exact traced_pure trivial
    | numArrayAt e1 idx =>
      rw [Exp.Outside, Exp.Only] at he
      exact (ih e1 env he henv).bind fun arr harr => follows_at harr
    | numArraySet e1 idx e3 =>
      rw [Exp.Outside, Exp.Only] at he
      exact (ih e1 env he.1 henv).bind fun arr harr =>
        (ih e3 env he.2 henv).bind fun v hv => follows_set harr
    | numArrayToList e =>
      rw [Exp.Outside, Exp.Only] at he
      refine (ih e env he henv).bind_quiet fun v hv => ?_
      cases v with
      | mpair loc =>
        refine follows_ofExcept (r := fun h => h.toMupllist loc) (fun h => ?_) fun h v hv =>
          (plain_of_toMupllist loc hv).only
        change outcome (ofExcept (h.toMupllist loc)) h = some (h.toMupllist loc, h)
        cases h.toMupllist loc <;> rfl
      | _ => exact traced_throw _
    | closure cenv nameopt formal body => exact traced_pure he
    | mpair loc => exact traced_throw _

theorem session_traced {runs : List (ℕ × Exp × Env)}
    (hruns : ∀ r ∈ runs, r.2.1.Outside base m ∧ r.2.2.Outside base m)
    (hs : Stores base m before h) :
    Lawful (Access.Obeys (base + m) (m + 1)) before (session runs h).1 ∧
      ∀ h' ∈ (session runs h).2, Stores base m (before ++ (session runs h).1) h' := by
  induction runs generalizing before h with
  | nil =>
    refine ⟨trivial, fun h' hh => ?_⟩
    cases hh
    rwa [session, List.append_nil]
  | cons r runs ih =>
    obtain ⟨n, e, env⟩ := r
    have he := hruns _ List.mem_cons_self
    obtain ⟨hlaw, hend⟩ := evalUnderEnv_traced n e env he.1 he.2 before h hs
    rw [session]
    rcases hr : outcome (evalUnderEnv n e env) h with _ | ⟨r, t⟩
    · exact ⟨hlaw, nofun⟩
    · obtain ⟨hlaw', hend'⟩ := ih (fun r hr => hruns r (List.mem_cons_of_mem _ hr)) (hend r t hr).1
      refine ⟨lawful_append hlaw hlaw', ?_⟩
      rw [← List.append_assoc]
      exact hend'

/-- A new array lies at the end of the heap, and its first element last. -/
theorem returns_numArray {k m : ℕ} {env₀ : Env} {h₀ h₁ : Heap}
    (hnew : Returns (evalUnderEnv (k + 1) (.numArray (m + 1 : ℕ)) env₀) h₀ (.mpair l) h₁) :
    l = h₀.next + m ∧ h₁ = (h₀.makeArrayObject (m + 1)).1 := by
  have hpos : ((m + 1 : ℕ) : ℤ) > 0 := by omega
  have hloc := (makeArrayObject_pairs h₀ (m + 1)).2
  rw [Returns, evalUnderEnv, if_pos hpos, outcome_makeArray, Int.toNat_natCast] at hnew
  cases hm : (h₀.makeArrayObject (m + 1)).2 with
  | none =>
    rw [hm] at hloc
    cases hloc
  | some loc =>
    rw [hm] at hloc hnew
    cases hnew
    exact ⟨Option.some.inj hloc, rfl⟩

/-- After `num-array` has made an array of a length, the accesses to it, in any evaluations one
after the other with no pointer into its middle, follow the law of a bounded array, and it holds
what has been stored at the end. (No value that is returned has such a pointer.) -/
theorem array_law {k : ℕ} (hn : 1 ≤ n) (env₀ : Env) (h₀ h₁ : Heap)
    (hnew : Returns (evalUnderEnv (k + 1) (.numArray n) env₀) h₀ (.mpair l) h₁)
    (runs : List (ℕ × Exp × Env))
    (hruns : ∀ r ∈ runs, r.2.1.Only (fun _ => True) (fun loc => loc + n ≤ l ∨ l ≤ loc) ∧
      r.2.2.Only (fun _ => True) (fun loc => loc + n ≤ l ∨ l ≤ loc)) :
    IsArray l n h₁ (fun _ => 0) ∧
    Lawful (Access.Obeys l n) [] (session runs h₁).1 ∧
      ∀ h ∈ (session runs h₁).2, IsArray l n h (lastStored l (session runs h₁).1) := by
  obtain ⟨m, rfl⟩ := Nat.exists_eq_add_of_le' hn
  obtain ⟨rfl, rfl⟩ := returns_numArray hnew
  have hout : (fun loc => loc + (m + 1) ≤ h₀.next + m ∨ h₀.next + m ≤ loc) =
      fun loc => loc < h₀.next ∨ h₀.next + m ≤ loc := by
    funext loc
    exact propext (by omega)
  rw [hout] at hruns
  have hs : Stores h₀.next m [] (h₀.makeArrayObject (m + 1)).1 := chain_makeArrayObject h₀ m
  obtain ⟨hlaw, hend⟩ := session_traced hruns hs
  exact ⟨hs.isArray, hlaw, fun h hh => (hend h hh).isArray⟩

/-- An element of an array that a function shares is stored, and read outside of it. -/
theorem array_law_shared :
    Lawful (Access.Obeys 1 2) [] (session [(9, .mlet "f" (.func none "x" (.numArraySet (.var "a") 1
      (.var "x"))) (.add (.call (.var "f") (.int 42)) (.numArrayAt (.var "a") 1)),
        .cons "a" (.mpair 1) .nil)] (Heap.empty.makeArrayObject 2).1).1 := by
  have hnew : Returns (evalUnderEnv 1 (.numArray 2) .nil) .empty (.mpair 1)
      (Heap.empty.makeArrayObject 2).1 := rfl
  refine (array_law one_le_two .nil .empty _ hnew _ fun r hr => ?_).2.1
  rw [List.mem_singleton.1 hr]
  exact ⟨⟨trivial, ⟨nofun, trivial, trivial, trivial⟩, ⟨trivial, trivial⟩, trivial⟩,
    .inr le_rfl, trivial⟩

end Mupl
