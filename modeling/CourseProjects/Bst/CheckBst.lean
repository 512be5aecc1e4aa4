import CourseProjects.Lib.BinaryTree

/-!
# Search trees in lists

`check_bst` of `bst.rkt`, on trees of numbers written as lists `(now left right)`, with `()` for the
empty tree. It compares every node with its children only: it answers `#t` for the trees whose
children are all on their side (`check_bst_ofTree`), which need not be search trees.
-/

namespace Bst

variable {α : Type}

/-- A number, the empty list or a pair. -/
inductive Datum (α : Type)
  | num (x : α)
  | null
  | cons (car cdr : Datum α)

namespace Datum

/-- The list `(now left right)` of a tree. -/
def ofTree : BinaryTree α → Datum α
  | .nil => null
  | .node now left right => cons (num now) (cons (ofTree left) (cons (ofTree right) null))

end Datum

/-- The exception of a function applied to a value of another kind. -/
inductive Exn
  | contract

/-- A comparison of numbers. -/
def compare (r : α → α → Bool) : Datum α → Datum α → Except Exn Bool
  | .num x, .num y => pure (r x y)
  | _, _ => throw .contract

def car : Datum α → Except Exn (Datum α)
  | .cons x _ => pure x
  | _ => throw .contract

def isNull : Datum α → Bool
  | .null => true
  | _ => false

/-- What the functions `left` and `right` answer about a child, whose own check answers `checked`. -/
def side (cmp : Datum α → Datum α → Except Exn Bool) (now tree : Datum α)
    (checked : Except Exn Bool) : Except Exn Bool :=
  if isNull tree then pure true else do
    if ← cmp (← car tree) now then checked else pure false

section Check

variable [Preorder α] [DecidableLT α]

def lt : Datum α → Datum α → Except Exn Bool := compare fun x y => x < y

def gt : Datum α → Datum α → Except Exn Bool := compare fun x y => y < x

def left : Datum α → Datum α → Except Exn Bool → Except Exn Bool := side lt

def right : Datum α → Datum α → Except Exn Bool → Except Exn Bool := side gt

def check_bst : Datum α → Except Exn Bool
  | .null => pure true
  | .cons now (.cons lt (.cons rt _)) => do
    if ← left now lt (check_bst lt) then right now rt (check_bst rt) else pure false
  | _ => throw .contract

omit [DecidableLT α] in
/-- A child is on its side and passes its check, or the answer about it is `#f`. -/
theorem side_ofTree (cmp : Datum α → Datum α → Except Exn Bool) {P : α → Prop} [DecidablePred P]
    {now : α} (hcmp : ∀ x, cmp (.num x) (.num now) = .ok (decide (P x))) {t : BinaryTree α}
    {b : Bool} (hb : b = true ↔ t.ChildrenOrdered) :
    ∃ b', side cmp (.num now) (.ofTree t) (.ok b) = .ok b' ∧
      (b' = true ↔ (∀ x ∈ t.root?, P x) ∧ t.ChildrenOrdered) := by
  rcases t with _ | ⟨x, l, r⟩
  · exact ⟨true, rfl, by simp [BinaryTree.root?, BinaryTree.ChildrenOrdered]⟩
  · have hb' : (decide (P x) && b) = true ↔
        (∀ y ∈ (BinaryTree.node x l r).root?, P y) ∧ (BinaryTree.node x l r).ChildrenOrdered := by
      rw [Bool.and_eq_true, decide_eq_true_iff, hb]
      simp [BinaryTree.root?]
    refine ⟨decide (P x) && b, ?_, hb'⟩
    change (cmp (.num x) (.num now) >>= fun c => if c then .ok b else pure false) = _
    rw [hcmp]
    rcases decide (P x) with _ | _ <;> rfl

/-- On a tree, the check answers whether every child is on its side of the node above. -/
theorem check_bst_ofTree (t : BinaryTree α) :
    ∃ b, check_bst (.ofTree t) = .ok b ∧ (b = true ↔ t.ChildrenOrdered) := by
  induction t with
  | nil => exact ⟨true, rfl, iff_of_true rfl trivial⟩
  | node now l r hl hr =>
    obtain ⟨bl, hl, hbl⟩ := hl
    obtain ⟨br, hr, hbr⟩ := hr
    obtain ⟨b₁, h₁, hb₁⟩ := side_ofTree lt (P := (· < now)) (fun x => rfl) hbl
    obtain ⟨b₂, h₂, hb₂⟩ := side_ofTree gt (P := (now < ·)) (fun x => rfl) hbr
    refine ⟨b₁ && b₂, ?_, ?_⟩
    · rw [Datum.ofTree, check_bst, hl, hr, left, right, h₁, h₂]
      rcases b₁ with _ | _ <;> rfl
    · rw [Bool.and_eq_true, hb₁, hb₂, and_assoc, BinaryTree.ChildrenOrdered]

theorem check_bst_eq_true_iff {t : BinaryTree α} :
    check_bst (.ofTree t) = .ok true ↔ t.ChildrenOrdered := by
  obtain ⟨b, h, hb⟩ := check_bst_ofTree t
  rw [h, Except.ok.injEq, hb]

/-- The check tells search trees from others exactly for the trees with a child on the wrong side of
    the node above and those with no line of children that, after a turn, ends on the wrong side. -/
theorem check_bst_sound_iff (t : BinaryTree α) :
    (check_bst (.ofTree t) = .ok true ↔ t.inorder.SortedLT) ↔
      (t.ChildrenOrdered → t.InnerOrdered) := by
  rw [check_bst_eq_true_iff, BinaryTree.sortedLT_inorder_iff, iff_self_and]

/-- `(5 (3 () (7 () ())) ())` -/
def unsorted : BinaryTree ℤ := .node 5 (.node 3 .nil (.node 7 .nil .nil)) .nil

theorem check_bst_of_unsorted :
    check_bst (.ofTree unsorted) = .ok true ∧ ¬unsorted.inorder.SortedLT :=
  ⟨rfl, by decide⟩

end Check

end Bst
