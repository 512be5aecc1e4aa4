import Mathlib

/-!
# Formulas

The formulas of `sol2.sml` and their evaluation (`eval`), which reads an implication as the
conjunction of its negated left side and its right side.

* `eval_iff`: on which formulas the slip does not show (`Shows`);
* `eval_classical_iff`: when the value of a formula is its truth value, and stays so when
  implications are replaced by disjunctions.
-/

namespace Sml

/-- Expressions over the integers. -/
inductive Expr
  | num (i : ℤ)
  | plus (e3 e4 : Expr)
  | minus (e3 e4 : Expr)

inductive Formula
  | true
  | false
  | not (e1 : Formula)
  | andalso (e1 e2 : Formula)
  | orelse (e1 e2 : Formula)
  | imply (e1 e2 : Formula)
  | less (e1 e2 : Expr)

def ex : Expr → ℤ
  | .plus e3 e4 => ex e3 + ex e4
  | .minus e3 e4 => ex e3 - ex e4
  | .num i => i

def eval : Formula → Bool
  | .true => true
  | .false => false
  | .not e1 => !eval e1
  | .andalso e1 e2 => eval e1 && eval e2
  | .orelse e1 e2 => eval e1 || eval e2
  | .imply e1 e2 => !eval e1 && eval e2
  | .less e1 e2 => if ex e1 < ex e2 then true else false

/-! ### The standard meaning -/

/-- The truth value of a formula. -/
def Holds : Formula → Prop
  | .true => True
  | .false => False
  | .not e1 => ¬Holds e1
  | .andalso e1 e2 => Holds e1 ∧ Holds e2
  | .orelse e1 e2 => Holds e1 ∨ Holds e2
  | .imply e1 e2 => Holds e1 → Holds e2
  | .less e1 e2 => ex e1 < ex e2

/-- An implication somewhere in a formula is replaced by a disjunction. -/
inductive Unfolds : Formula → Formula → Prop
  | imply (a b : Formula) : Unfolds (.imply a b) (.orelse (.not a) b)
  | not {a a' : Formula} : Unfolds a a' → Unfolds (.not a) (.not a')
  | andalso_left {a a' : Formula} (b : Formula) :
    Unfolds a a' → Unfolds (.andalso a b) (.andalso a' b)
  | andalso_right (a : Formula) {b b' : Formula} :
    Unfolds b b' → Unfolds (.andalso a b) (.andalso a b')
  | orelse_left {a a' : Formula} (b : Formula) :
    Unfolds a a' → Unfolds (.orelse a b) (.orelse a' b)
  | orelse_right (a : Formula) {b b' : Formula} :
    Unfolds b b' → Unfolds (.orelse a b) (.orelse a b')
  | imply_left {a a' : Formula} (b : Formula) :
    Unfolds a a' → Unfolds (.imply a b) (.imply a' b)
  | imply_right (a : Formula) {b b' : Formula} :
    Unfolds b b' → Unfolds (.imply a b) (.imply a b')

variable {f g : Formula}

theorem holds_unfolds (h : Unfolds f g) : Holds g ↔ Holds f := by
  induction h with
  | imply a b => exact imp_iff_not_or.symm
  | not _ ih => exact not_congr ih
  | andalso_left b _ ih => exact and_congr_left fun _ => ih
  | andalso_right a _ ih => exact and_congr_right fun _ => ih
  | orelse_left b _ ih => exact or_congr_left ih
  | orelse_right a _ ih => exact or_congr_right ih
  | imply_left b _ ih => exact imp_congr_left ih
  | imply_right a _ ih => exact imp_congr_right fun _ => ih

/-! ### Where the slip shows -/

/-- The slip shows at the root of a formula. At an implication it shows when both sides have the
same truth value, and the other connectives hand it on unless their other side hides it. -/
def Shows : Formula → Prop
  | .true => False
  | .false => False
  | .not a => Shows a
  | .andalso a b =>
    (Shows a ∧ ¬Shows b ∧ Holds b) ∨ (¬Shows a ∧ Shows b ∧ Holds a) ∨
      (Shows a ∧ Shows b ∧ (Holds a ↔ Holds b))
  | .orelse a b =>
    (Shows a ∧ ¬Shows b ∧ ¬Holds b) ∨ (¬Shows a ∧ Shows b ∧ ¬Holds a) ∨
      (Shows a ∧ Shows b ∧ (Holds a ↔ Holds b))
  | .imply a b =>
    (¬Shows a ∧ ¬Shows b ∧ (Holds a ↔ Holds b)) ∨ (Shows a ∧ ¬Shows b ∧ ¬Holds a) ∨
      (¬Shows a ∧ Shows b ∧ Holds b) ∨ (Shows a ∧ Shows b)
  | .less _ _ => False

/-- The value of a formula is its truth value, or the opposite where the slip shows. -/
theorem eval_eq_true (f : Formula) : eval f = true ↔ (Holds f ↔ ¬Shows f) := by
  induction f with
  | true => simp [eval, Holds, Shows]
  | false => simp [eval, Holds, Shows]
  | not a ih =>
    rw [eval, Bool.not_eq_true', ← Bool.not_eq_true, ih, Holds, Shows]
    by_cases ha : Holds a <;> simp [ha]
  | andalso a b iha ihb =>
    rw [eval, Bool.and_eq_true, iha, ihb, Holds, Shows]
    by_cases ha : Holds a <;> by_cases hb : Holds b <;> by_cases hs : Shows a <;>
      by_cases ht : Shows b <;> simp [ha, hb, hs, ht]
  | orelse a b iha ihb =>
    rw [eval, Bool.or_eq_true, iha, ihb, Holds, Shows]
    by_cases ha : Holds a <;> by_cases hb : Holds b <;> by_cases hs : Shows a <;>
      by_cases ht : Shows b <;> simp [ha, hb, hs, ht]
  | imply a b iha ihb =>
    rw [eval, Bool.and_eq_true, Bool.not_eq_true', ← Bool.not_eq_true, iha, ihb, Holds, Shows]
    by_cases ha : Holds a <;> by_cases hb : Holds b <;> by_cases hs : Shows a <;>
      by_cases ht : Shows b <;> simp [ha, hb, hs, ht]
  | less e1 e2 => simp [eval, Holds, Shows]

/-- The value of a formula is its truth value if and only if the slip does not show. -/
theorem eval_iff (f : Formula) : (eval f = true ↔ Holds f) ↔ ¬Shows f := by
  rw [eval_eq_true]
  by_cases h : Holds f <;> simp [h]

/-- When the sides of every implication differ in their truth value, the slip never shows. -/
def Split : Formula → Prop
  | .not a => Split a
  | .andalso a b => Split a ∧ Split b
  | .orelse a b => Split a ∧ Split b
  | .imply a b => Split a ∧ Split b ∧ ¬(Holds a ↔ Holds b)
  | _ => True

/-- The value of a formula is its truth value, also after an implication is replaced, if and only
if the slip does not show. -/
theorem eval_classical_iff (f : Formula) :
    ((eval f = true ↔ Holds f) ∧ ∀ g, Unfolds f g → eval g = eval f) ↔
      ¬Shows f ∧ ∀ g, Unfolds f g → ¬Shows g := by
  rw [eval_iff]
  refine and_congr_right fun hf => forall₂_congr fun g hg => ?_
  rw [← eval_iff, holds_unfolds hg, ← (eval_iff f).2 hf, Bool.eq_iff_iff]

/-- The implication of `FALSE` from `FALSE`. -/
theorem eval_imply_false :
    ¬(eval (.imply .false .false) = true ↔ Holds (.imply .false .false)) := by
  rw [eval_iff, not_not, Shows]
  simp [Shows]

end Sml
