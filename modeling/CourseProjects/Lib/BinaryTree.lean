import Mathlib

/-!
# Binary trees in order

The values of a binary tree *in order* (`inorder`), and three readings of a search tree: its values
increase in order; at every node, the values on the left are smaller and those on the right larger
(`Searchable`); every child is on its side of the node above (`ChildrenOrdered`) and so is the end of
every line of right children below the left child, and of left children below the right child
(`InnerOrdered`).

The order need not be total.
-/

namespace BinaryTree

variable {α : Type}

def inorder : BinaryTree α → List α
  | nil => []
  | node v l r => l.inorder ++ v :: r.inorder

def root? : BinaryTree α → Option α
  | nil => none
  | node v _ _ => some v

/-- The end of the line of left children. -/
def leftmost? : BinaryTree α → Option α
  | nil => none
  | node v l _ => some (l.leftmost?.getD v)

/-- The end of the line of right children. -/
def rightmost? : BinaryTree α → Option α
  | nil => none
  | node v _ r => some (r.rightmost?.getD v)

theorem head?_inorder (t : BinaryTree α) : t.inorder.head? = t.leftmost? := by
  induction t with
  | nil => rfl
  | node v l r hl _ =>
    rw [inorder, List.head?_append, List.head?_cons, hl, leftmost?]
    rcases l.leftmost? with _ | x <;> rfl

theorem getLast?_inorder (t : BinaryTree α) : t.inorder.getLast? = t.rightmost? := by
  induction t with
  | nil => rfl
  | node v l r _ hr =>
    rw [inorder, List.getLast?_append, List.getLast?_cons, hr, rightmost?]
    rfl

theorem mem_inorder_of_root? {t : BinaryTree α} {x : α} (h : x ∈ t.root?) : x ∈ t.inorder := by
  rcases t with _ | ⟨w, l, r⟩
  · exact absurd h (Option.not_mem_none x)
  · obtain rfl : w = x := by simpa [root?] using h
    simp [inorder]

theorem mem_inorder_of_rightmost? {t : BinaryTree α} {x : α} (h : x ∈ t.rightmost?) :
    x ∈ t.inorder :=
  List.mem_of_getLast? (t.getLast?_inorder.trans h)

theorem mem_inorder_of_leftmost? {t : BinaryTree α} {x : α} (h : x ∈ t.leftmost?) :
    x ∈ t.inorder :=
  List.mem_of_head? (t.head?_inorder.trans h)

theorem inorder_right_subset (t : BinaryTree α) : t.right.inorder ⊆ t.inorder := by
  rcases t with _ | ⟨v, l, r⟩ <;> simp [inorder]

theorem inorder_left_subset (t : BinaryTree α) : t.left.inorder ⊆ t.inorder := by
  rcases t with _ | ⟨v, l, r⟩ <;> simp [inorder]

/-- The end of a line of right children is the node itself or lies to its right. -/
theorem mem_rightmost? {t : BinaryTree α} {x : α} (h : x ∈ t.rightmost?) :
    x ∈ t.root? ∨ x ∈ t.right.rightmost? := by
  rcases t with _ | ⟨w, l, r⟩
  · exact absurd h (Option.not_mem_none x)
  · change some (r.rightmost?.getD w) = some x at h
    rcases hr : r.rightmost? with _ | y
    · exact .inl (by simpa [root?, hr] using h)
    · exact .inr (by simpa [hr] using h)

theorem mem_leftmost? {t : BinaryTree α} {x : α} (h : x ∈ t.leftmost?) :
    x ∈ t.root? ∨ x ∈ t.left.leftmost? := by
  rcases t with _ | ⟨w, l, r⟩
  · exact absurd h (Option.not_mem_none x)
  · change some (l.leftmost?.getD w) = some x at h
    rcases hl : l.leftmost? with _ | y
    · exact .inl (by simpa [root?, hl] using h)
    · exact .inr (by simpa [hl] using h)

section Order

variable [Preorder α]

/-- Every value in a left subtree is smaller, and every value in a right subtree larger, than the
    value of the node above. -/
def Searchable : BinaryTree α → Prop
  | nil => True
  | node v l r => (∀ x ∈ l.inorder, x < v) ∧ (∀ x ∈ r.inorder, v < x) ∧ l.Searchable ∧ r.Searchable

/-- Every left child is smaller, and every right child larger, than the node above. -/
def ChildrenOrdered : BinaryTree α → Prop
  | nil => True
  | node v l r => (∀ x ∈ l.root?, x < v) ∧ l.ChildrenOrdered ∧ (∀ x ∈ r.root?, v < x) ∧
      r.ChildrenOrdered

/-- The right children of a left child end below the node above the two, and the left children of a
    right child above it. -/
def InnerOrdered : BinaryTree α → Prop
  | nil => True
  | node v l r => (∀ x ∈ l.right.rightmost?, x < v) ∧ (∀ x ∈ r.left.leftmost?, v < x) ∧
      l.InnerOrdered ∧ r.InnerOrdered

theorem sortedLT_inorder_iff_searchable (t : BinaryTree α) :
    t.inorder.SortedLT ↔ t.Searchable := by
  rw [List.sortedLT_iff_pairwise]
  induction t with
  | nil => exact iff_of_true List.Pairwise.nil trivial
  | node v l r hl hr =>
    rw [inorder, List.pairwise_append, List.pairwise_cons, hl, hr, Searchable]
    constructor
    · rintro ⟨hsl, ⟨hv, hsr⟩, h⟩
      exact ⟨fun x hx => h x hx v (List.mem_cons_self ..), hv, hsl, hsr⟩
    · rintro ⟨hlt, hv, hsl, hsr⟩
      refine ⟨hsl, ⟨hv, hsr⟩, fun x hx y hy => ?_⟩
      rcases List.mem_cons.1 hy with rfl | hy
      · exact hlt x hx
      · exact (hlt x hx).trans (hv y hy)

/-- The values of a tree increase in order when each subtree's do and its node lies between the last
    of the left subtree and the first of the right one. -/
theorem sortedLT_inorder_node {v : α} {l r : BinaryTree α} :
    (node v l r).inorder.SortedLT ↔ l.inorder.SortedLT ∧ r.inorder.SortedLT ∧
      (∀ x ∈ l.rightmost?, x < v) ∧ ∀ x ∈ r.leftmost?, v < x := by
  rw [List.sortedLT_iff_isChain, List.sortedLT_iff_isChain, List.sortedLT_iff_isChain, inorder,
    List.isChain_append, List.isChain_cons, getLast?_inorder, head?_inorder]
  constructor
  · rintro ⟨hl, ⟨hv, hr⟩, h⟩
    exact ⟨hl, hr, fun x hx => h x hx v rfl, hv⟩
  · rintro ⟨hl, hr, hlt, hv⟩
    refine ⟨hl, ⟨hv, hr⟩, fun x hx y hy => ?_⟩
    obtain rfl : v = y := by simpa using hy
    exact hlt x hx

theorem Searchable.childrenOrdered {t : BinaryTree α} (h : t.Searchable) : t.ChildrenOrdered := by
  induction t with
  | nil => trivial
  | node v l r hl hr =>
    obtain ⟨hlt, hgt, hsl, hsr⟩ := h
    exact ⟨fun x hx => hlt x (mem_inorder_of_root? hx), hl hsl,
      fun x hx => hgt x (mem_inorder_of_root? hx), hr hsr⟩

theorem Searchable.innerOrdered {t : BinaryTree α} (h : t.Searchable) : t.InnerOrdered := by
  induction t with
  | nil => trivial
  | node v l r hl hr =>
    obtain ⟨hlt, hgt, hsl, hsr⟩ := h
    exact ⟨fun x hx => hlt x (l.inorder_right_subset (mem_inorder_of_rightmost? hx)),
      fun x hx => hgt x (r.inorder_left_subset (mem_inorder_of_leftmost? hx)), hl hsl, hr hsr⟩

/-- Of a search tree, the nodes and the ends of the lines below their children are all there is to
    check. -/
theorem sortedLT_inorder_iff (t : BinaryTree α) :
    t.inorder.SortedLT ↔ t.ChildrenOrdered ∧ t.InnerOrdered := by
  constructor
  · intro h
    have hs := t.sortedLT_inorder_iff_searchable.1 h
    exact ⟨hs.childrenOrdered, hs.innerOrdered⟩
  · rintro ⟨hc, hi⟩
    induction t with
    | nil => exact List.Pairwise.nil.sortedLT
    | node v l r hl hr =>
      obtain ⟨hlt, hcl, hgt, hcr⟩ := hc
      obtain ⟨hlt', hgt', hil, hir⟩ := hi
      exact sortedLT_inorder_node.2 ⟨hl hcl hil, hr hcr hir,
        fun x hx => (mem_rightmost? hx).elim (hlt x) (hlt' x),
        fun x hx => (mem_leftmost? hx).elim (hgt x) (hgt' x)⟩

end Order

end BinaryTree
