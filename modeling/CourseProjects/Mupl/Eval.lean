import CourseProjects.Lib.Fueled
import CourseProjects.Mupl.Syntax

/-!
# The interpreter

`eval-under-env` of `MUPL.rkt`, with fuel for its recursion, and the functions that build
expressions.

* `evalUnderEnv_mono`: more fuel changes nothing that has come of an evaluation;
* `result`: what comes of an evaluation with enough fuel.
-/

namespace Mupl

open Fueled MonadExcept

/-- An evaluation. -/
abbrev Eval := Comp Heap Error

/-- Lookup of a variable. -/
def envlookup (str : String) : Env → Except Error Exp
  | .nil => .error (.error "unbound variable during evaluation" [str])
  | .cons name val env => if name = str then .ok val else envlookup str env

/-- The environment for the body of `glet`. -/
def genv (var : String) (val : Exp) : Env → Env
  | .nil => .cons var val .nil
  | .cons name v env =>
    if var = name then .cons var val (genv var val env)
    else match v with
      | .closure cenv nameopt formal body =>
        .cons name (.closure (genv var val cenv) nameopt formal body) (genv var val env)
      | _ => .cons name v (genv var val env)
termination_by structural env => env

/-- The environment for the body of a function. -/
def Closure.bodyEnv (c : Closure) (clsr arg : Exp) : Env :=
  let env := .cons c.formal arg c.env
  match c.nameopt with
  | some name => .cons name clsr env
  | none => env

/-- Access to an array at an index. -/
def arrayAt (arr : ℕ) (idx : ℤ) : Eval Exp := do
  let h ← get
  let length ← ofExcept (h.arrayLength arr)
  if 0 ≤ idx ∧ idx < length then ofExcept (h.mlistRef (some arr) idx.toNat)
  else throw (.error "MUPL num-array access out of bound" [])

/-- An `int` is stored in an array at an index. -/
def arraySet (arr : ℕ) (idx num : ℤ) : Eval Unit := do
  let h ← get
  let length ← ofExcept (h.arrayLength arr)
  if 0 ≤ idx ∧ idx < length then do
    let h' ← ofExcept (h.setArrayVal num (some arr) idx.toNat)
    set h'
  else throw (.error "MUPL num-array access out of bound" [])

/-- A new array. -/
def makeArray (size : ℕ) : Eval Exp := do
  let h ← get
  let made := h.makeArrayObject size
  set made.1
  match made.2 with
  | some loc => pure (.mpair loc)
  | none => throw .contract

def evalUnderEnv : ℕ → Exp → Env → Eval Exp
  | 0, _, _ => outOfFuel
  | n + 1, e, env =>
    match e with
    | .var string => ofExcept (envlookup string env)
    | .int num => pure (.int num)
    | .add e1 e2 => do
      let v1 ← evalUnderEnv n e1 env
      let v2 ← evalUnderEnv n e2 env
      match v1.int?, v2.int? with
      | some n1, some n2 => pure (.int (n1 + n2))
      | _, _ => throw (.error "MUPL addition applied to non-number" [])
    | .ifgreater e1 e2 e3 e4 => do
      let v1 ← evalUnderEnv n e1 env
      let v2 ← evalUnderEnv n e2 env
      match v1.int?, v2.int? with
      | some n1, some n2 => if n1 > n2 then evalUnderEnv n e3 env else evalUnderEnv n e4 env
      | _, _ => throw (.error "MUPL comparison applied to non-number" [])
    | .closure env' nameopt formal body => pure (.closure env' nameopt formal body)
    | .func nameopt formal body => pure (.closure env nameopt formal body)
    | .call funexp actual => do
      let clsr ← evalUnderEnv n funexp env
      let arg ← evalUnderEnv n actual env
      match clsr.closure? with
      | some c => evalUnderEnv n c.body (c.bodyEnv clsr arg)
      | none => throw (.error "MUPL call applied to non-function" [])
    | .mlet var e body => do
      let v ← evalUnderEnv n e env
      evalUnderEnv n body (.cons var v env)
    | .glet var e body => do
      let val ← evalUnderEnv n e env
      evalUnderEnv n body (genv var val env)
    | .apair e1 e2 => do
      let v1 ← evalUnderEnv n e1 env
      let v2 ← evalUnderEnv n e2 env
      pure (.apair v1 v2)
    | .fst e => do
      let v ← evalUnderEnv n e env
      match v.apair? with
      | some p => pure p.1
      | none => throw (.error "MUPL fst applied to non-apair" [])
    | .snd e => do
      let v ← evalUnderEnv n e env
      match v.apair? with
      | some p => pure p.2
      | none => throw (.error "MUPL fst applied to non-apair" [])
    | .aunit => pure .aunit
    | .isaunit e => do
      let v ← evalUnderEnv n e env
      pure (if v.isAunit then .int 1 else .int 0)
    | .numArray size => if size > 0 then makeArray size.toNat else pure .aunit
    | .numArrayAt e1 idx => do
      let arr ← evalUnderEnv n e1 env
      match arr.mpair? with
      | none => throw (.error "MUPL num-array-at e1 applied to non-num-array" [])
      | some loc => arrayAt loc idx
    | .numArraySet e1 idx e3 => do
      let arr ← evalUnderEnv n e1 env
      let v ← evalUnderEnv n e3 env
      match v.int? with
      | none => throw (.error "MUPL num-array-set e3 applied to non-int" [])
      | some num =>
        match arr.mpair? with
        | none => throw (.error "MUPL num-array-set e1 applied to non-num-array" [])
        | some loc => do
          arraySet loc idx num
          pure v
    | .numArrayToList e => do
      let arr ← evalUnderEnv n e env
      match arr.mpair? with
      | none => throw (.error "MUPL num-array-to-list applied to non-num-array" [])
      | some loc => do
        let h ← get
        ofExcept (h.toMupllist loc)
    | .mpair loc => throw (.badExpression loc)

/-! ### Expressions that are built -/

def ifaunit (e1 e2 e3 : Exp) : Exp := .ifgreater (.isaunit e1) (.int 0) e2 e3

/-- The function `mlet*`. -/
def mletStar (lstlst : List (String × Exp)) (e2 : Exp) : Exp :=
  match lstlst with
  | [] => e2
  | p :: lstlst => .mlet p.1 p.2 (mletStar lstlst e2)

def ifeq (e1 e2 e3 e4 : Exp) : Exp :=
  mletStar [("_x", e1), ("_y", e2)]
    (.ifgreater (.var "_x") (.var "_y") e4 (.ifgreater (.var "_y") (.var "_x") e4 e3))

def muplMap : Exp :=
  .func "mupl-map" "fn"
    (.func "mupl-map-gen" "lst"
      (ifaunit (.var "lst") .aunit
        (.apair (.call (.var "fn") (.fst (.var "lst")))
          (.call (.var "mupl-map-gen") (.snd (.var "lst"))))))

def muplMapAddN : Exp :=
  .func "mupl-mapAddN" "I" (.call muplMap (.func none "x" (.add (.var "x") (.var "I"))))

/-- A list of MUPL. -/
def muplList : List Exp → Exp
  | [] => .aunit
  | v :: vs => .apair v (muplList vs)

/-! ### Fuel -/

variable {e e1 e2 e3 e4 : Exp} {env : Env} {m n : ℕ}

theorem evalUnderEnv_succ (n : ℕ) (e : Exp) (env : Env) :
    Le (evalUnderEnv n e env) (evalUnderEnv (n + 1) e env) := by
  induction n generalizing e env with
  | zero => exact .outOfFuel _
  | succ n ih =>
    rw [evalUnderEnv.eq_def (n + 1 + 1), evalUnderEnv.eq_def (n + 1)]
    cases e with
    | add e1 e2 => exact .bind (ih _ _) fun v1 => .bind (ih _ _) fun v2 => .refl _
    | ifgreater e1 e2 e3 e4 =>
      refine .bind (ih _ _) fun v1 => .bind (ih _ _) fun v2 => ?_
      split
      · split
        · exact ih _ _
        · exact ih _ _
      · exact .refl _
    | call funexp actual =>
      refine .bind (ih _ _) fun clsr => .bind (ih _ _) fun arg => ?_
      split
      · exact ih _ _
      · exact .refl _
    | mlet var e body => exact .bind (ih _ _) fun v => ih _ _
    | glet var e body => exact .bind (ih _ _) fun v => ih _ _
    | apair e1 e2 => exact .bind (ih _ _) fun v1 => .bind (ih _ _) fun v2 => .refl _
    | fst e => exact .bind (ih _ _) fun v => .refl _
    | snd e => exact .bind (ih _ _) fun v => .refl _
    | isaunit e => exact .bind (ih _ _) fun v => .refl _
    | numArrayAt e1 idx => exact .bind (ih _ _) fun v => .refl _
    | numArraySet e1 idx e3 => exact .bind (ih _ _) fun v1 => .bind (ih _ _) fun v2 => .refl _
    | numArrayToList e => exact .bind (ih _ _) fun v => .refl _
    | _ => exact .refl _

theorem evalUnderEnv_mono (h : m ≤ n) : Le (evalUnderEnv m e env) (evalUnderEnv n e env) :=
  le_of_succ (fun n => evalUnderEnv_succ n e env) h

/-- A value stays with more fuel. -/
theorem returns_mono {v : Exp} {s t : Heap} (h : Returns (evalUnderEnv m e env) s v t)
    (hmn : m ≤ n) : Returns (evalUnderEnv n e env) s v t := h.le (evalUnderEnv_mono hmn)

/-- What comes of an evaluation with enough fuel, if it ends. -/
noncomputable def result (e : Exp) (env : Env) (s : Heap) : Option (Except Error Exp × Heap) :=
  limit (fun n => evalUnderEnv n e env) s

end Mupl
