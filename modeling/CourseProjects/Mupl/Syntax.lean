import Mathlib

/-!
# MUPL

The expressions of `MUPL.rkt`. Values are expressions too: integers, closures, pairs of values, the
unit and, as the only ones that are not written in programs, the objects of arrays, which are lists
of mutable pairs on a heap (`Heap`).
-/

namespace Mupl

mutual

/-- An expression or a value. -/
inductive Exp
  | var (string : String)
  | int (num : ℤ)
  | add (e1 e2 : Exp)
  | ifgreater (e1 e2 e3 e4 : Exp)
  | func (nameopt : Option String) (formal : String) (body : Exp)
  | call (funexp actual : Exp)
  | mlet (var : String) (e body : Exp)
  | apair (e1 e2 : Exp)
  | fst (e : Exp)
  | snd (e : Exp)
  | aunit
  | isaunit (e : Exp)
  | glet (var : String) (e body : Exp)
  | numArray (size : ℤ)
  | numArrayAt (e1 : Exp) (e2 : ℤ)
  | numArraySet (e1 : Exp) (e2 : ℤ) (e3 : Exp)
  | numArrayToList (e : Exp)
  | closure (env : Env) (nameopt : Option String) (formal : String) (body : Exp)
  | mpair (loc : ℕ)
  deriving DecidableEq

/-- An environment, with the innermost binding first. -/
inductive Env
  | nil
  | cons (name : String) (val : Exp) (env : Env)
  deriving DecidableEq

end

/-- A function with its environment. -/
structure Closure where
  env : Env
  nameopt : Option String
  formal : String
  body : Exp

namespace Exp

def int? : Exp → Option ℤ
  | int num => some num
  | _ => none

def apair? : Exp → Option (Exp × Exp)
  | apair e1 e2 => some (e1, e2)
  | _ => none

def isAunit : Exp → Bool
  | aunit => true
  | _ => false

def closure? : Exp → Option Closure
  | closure env nameopt formal body => some ⟨env, nameopt, formal, body⟩
  | _ => none

def mpair? : Exp → Option ℕ
  | mpair loc => some loc
  | _ => none

end Exp

/-- What ends an evaluation: a call of `error`, with its arguments, or an operation of Racket that
is applied to what it does not take. -/
inductive Error
  | error (string : String) (v : List String)
  | badExpression (loc : ℕ)
  | contract
  deriving DecidableEq

/-! ### Mutable pairs -/

/-- A mutable pair. Its first part is an `int`, as nothing else is ever stored. -/
structure MPair where
  mcar : ℤ
  mcdr : Option ℕ
  deriving DecidableEq

/-- The mutable pairs. The second part of each, unless it is null, has been made before it. -/
structure Heap where
  pairs : List MPair
  older : ∀ (l : ℕ) (p : MPair), pairs[l]? = some p → ∀ l' ∈ p.mcdr, l' < l

namespace Heap

variable (h : Heap)

def empty : Heap := ⟨[], fun _ _ h => nomatch h⟩

/-- The place of the next pair. -/
def next : ℕ := h.pairs.length

/-- A new pair, at the place `next`. -/
def mcons (num : ℤ) (rest : Option (Fin h.next)) : Heap where
  pairs := h.pairs ++ [⟨num, rest.map Fin.val⟩]
  older l p hp l' hl' := by
    rcases lt_or_ge l h.pairs.length with hl | hl
    · rw [List.getElem?_append_left hl] at hp
      exact h.older l p hp l' hl'
    · rw [List.getElem?_append_right hl, List.getElem?_singleton] at hp
      split at hp
      · cases hp
        obtain ⟨i, -, rfl⟩ := Option.mem_map.1 hl'
        exact i.2.trans_le hl
      · cases hp

def mcar (l : ℕ) : Except Error Exp :=
  match h.pairs[l]? with
  | some p => .ok (.int p.mcar)
  | none => .error .contract

def mcdr (l : ℕ) : Except Error (Option ℕ) :=
  match h.pairs[l]? with
  | some p => .ok p.mcdr
  | none => .error .contract

/-- `set-mcar!`. -/
def setMcar (l : ℕ) (num : ℤ) : Except Error Heap :=
  match hp : h.pairs[l]? with
  | some p => .ok {
      pairs := h.pairs.set l { p with mcar := num }
      older := fun k q hq l' hl' => by
        rw [List.getElem?_set] at hq
        split at hq
        · next hlk =>
          subst hlk
          split at hq
          · cases hq
            exact h.older l p hp l' hl'
          · cases hq
        · exact h.older k q hq l' hl' }
  | none => .error .contract

/-- The length of a list, which is not empty. -/
def arrayLength (l : ℕ) : Except Error ℤ :=
  match hp : h.pairs[l]? with
  | some p =>
    match hm : p.mcdr with
    | none => .ok 1
    | some l' => (arrayLength l').map fun length => 1 + length
  | none => .error .contract
termination_by l
decreasing_by exact h.older l p hp l' hm

/-- A new list of zeros. -/
def makeArrayObject (h : Heap) : ℕ → (h' : Heap) × Option (Fin h'.next)
  | 0 => ⟨h, none⟩
  | length + 1 =>
    let ⟨h, rest⟩ := makeArrayObject h length
    ⟨h.mcons 0 rest, some ⟨h.next, by simp [next, mcons]⟩⟩

def setArrayVal (h : Heap) (val : ℤ) : Option ℕ → ℕ → Except Error Heap
  | none, _ => .error .contract
  | some array, 0 => h.setMcar array val
  | some array, index + 1 => (h.mcdr array).bind fun rest => setArrayVal h val rest index

def mlistRef (h : Heap) : Option ℕ → ℕ → Except Error Exp
  | none, _ => .error (.error "mlist-ref: index too large for mlist" [])
  | some mlst, 0 => h.mcar mlst
  | some mlst, pos + 1 => (h.mcdr mlst).bind fun rest => mlistRef h rest pos

/-- `mlist->list` and `racketlist->mupllist`, of a list that is not empty. -/
def toMupllist (l : ℕ) : Except Error Exp :=
  match hp : h.pairs[l]? with
  | some p =>
    match hm : p.mcdr with
    | none => .ok (.apair (.int p.mcar) .aunit)
    | some l' => (toMupllist l').map fun rest => .apair (.int p.mcar) rest
  | none => .error .contract
termination_by l
decreasing_by exact h.older l p hp l' hm

end Heap

end Mupl
