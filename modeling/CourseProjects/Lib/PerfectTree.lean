import Mathlib

/-!
# Perfect multiway trees

Trees whose tips all lie at the same depth, as B-trees and B+ trees are: a tree
of height `0` is a *tip*, a labelled datum, and a tree of height `h + 1` an
*inner node*, a label, a leftmost child of height `h`, and further ones, each
after a separator. The height is an index of the type, so there is no tree with
tips at two depths.

A *context* is a tree with a hole, seen from the hole: the frames of the inner
nodes on the path up to the root. Filling it (`Ctx.plug`) splits every
statement about the tree into one about the context and one about what fills
the hole:

* its tips are those before the hole, those of the filling and those after it
  (`tips_plug`);
* its labels are those of the filling and those of the context
  (`labels_plug`);
* a property holding at every node (`Everywhere`) holds in the context and in
  the filling (`everywhere_plug`).

An insertion leaves two trees for one hole, with a separator between them;
`insertUp` puts them into the context, splitting the inner nodes on the path
that get too big. A hole next to a sibling is one of two holes that follow each
other (`Frame.exists_pair`).
-/

namespace PerfectTree

variable {κ ν lam τ σ : Type}

/-- A tip: a labelled datum. -/
structure Tip (ν lam : Type) where
  label : ν
  data : lam

/-- An inner node, with children in `τ`: the leftmost one, and the others after
    their separators. -/
structure Inner (κ ν τ : Type) where
  label : ν
  first : τ
  rest : List (κ × τ)

namespace Inner

/-- The children, from left to right. -/
def children (n : Inner κ ν τ) : List τ := n.first :: n.rest.map Prod.snd

/-- The node with its children replaced. -/
def map (f : τ → σ) (n : Inner κ ν τ) : Inner κ ν σ :=
  ⟨n.label, f n.first, n.rest.map fun e => (e.1, f e.2)⟩

@[simp] theorem label_map (f : τ → σ) (n : Inner κ ν τ) : (n.map f).label = n.label := rfl

@[simp] theorem first_map (f : τ → σ) (n : Inner κ ν τ) : (n.map f).first = f n.first := rfl

@[simp] theorem rest_map (f : τ → σ) (n : Inner κ ν τ) :
    (n.map f).rest = n.rest.map fun e => (e.1, f e.2) := rfl

@[simp] theorem children_map (f : τ → σ) (n : Inner κ ν τ) :
    (n.map f).children = n.children.map f := by
  simp [children]

/-- The node with the children of another one after its own. -/
def append (m : Inner κ ν τ) (k : κ) (n : Inner κ ν τ) : Inner κ ν τ :=
  ⟨m.label, m.first, m.rest ++ (k, n.first) :: n.rest⟩

@[simp] theorem children_append (m : Inner κ ν τ) (k : κ) (n : Inner κ ν τ) :
    (m.append k n).children = m.children ++ n.children := by
  simp [append, children]

theorem map_append (f : τ → σ) (m : Inner κ ν τ) (k : κ) (n : Inner κ ν τ) :
    (m.append k n).map f = (m.map f).append k (n.map f) := by
  simp [append, map]

end Inner

/-- The trees of height `h`. -/
@[reducible] def Perfect (κ ν lam : Type) : ℕ → Type
  | 0 => Tip ν lam
  | h + 1 => Inner κ ν (Perfect κ ν lam h)

/-- The label of the root. -/
def label : {h : ℕ} → Perfect κ ν lam h → ν
  | 0, l => Tip.label l
  | _ + 1, n => Inner.label n

/-- All labels, the root first. -/
def labels : {h : ℕ} → Perfect κ ν lam h → List ν
  | 0, l => [Tip.label l]
  | _ + 1, n => Inner.label n :: (Inner.children n).flatMap labels

/-- The tips, from left to right. -/
def tips : {h : ℕ} → Perfect κ ν lam h → List (Tip ν lam)
  | 0, l => [l]
  | _ + 1, n => (Inner.children n).flatMap tips

theorem label_mem_labels : {h : ℕ} → (t : Perfect κ ν lam h) → label t ∈ labels t
  | 0, _ => List.mem_singleton_self _
  | _ + 1, _ => List.mem_cons_self

/-! ### Frames -/

/-- An inner node with a hole for one of its children: for the leftmost one, or
    for a later one, after a separator. -/
inductive Frame (κ ν τ : Type)
  | first (label : ν) (after : List (κ × τ))
  | later (label : ν) (leftmost : τ) (before : List (κ × τ)) (key : κ) (after : List (κ × τ))

namespace Frame

def label : Frame κ ν τ → ν
  | first l _ => l
  | later l _ _ _ _ => l

/-- The children before the hole. -/
def left : Frame κ ν τ → List τ
  | first _ _ => []
  | later _ c b _ _ => c :: b.map Prod.snd

/-- The entries after the hole. -/
def after : Frame κ ν τ → List (κ × τ)
  | first _ a => a
  | later _ _ _ _ a => a

/-- The children after the hole. -/
def right (f : Frame κ ν τ) : List τ := f.after.map Prod.snd

/-- The node, with the hole filled. -/
def fill : Frame κ ν τ → τ → Inner κ ν τ
  | first l a, t => ⟨l, t, a⟩
  | later l c b k a, t => ⟨l, c, b ++ (k, t) :: a⟩

/-- The index, among the entries, of the one after the hole. -/
def index : Frame κ ν τ → ℕ
  | first _ _ => 0
  | later _ _ b _ _ => b.length + 1

/-- The frame with one more entry, right after the hole. -/
def insertAfter : Frame κ ν τ → κ → τ → Frame κ ν τ
  | first l a, k, t => first l ((k, t) :: a)
  | later l c b k₀ a, k, t => later l c b k₀ ((k, t) :: a)

/-- The frame with its children replaced. -/
def map (g : τ → σ) : Frame κ ν τ → Frame κ ν σ
  | first l a => first l (a.map fun e => (e.1, g e.2))
  | later l c b k a => later l (g c) (b.map fun e => (e.1, g e.2)) k (a.map fun e => (e.1, g e.2))

@[simp] theorem label_fill (f : Frame κ ν τ) (t : τ) : (f.fill t).label = f.label := by
  cases f <;> rfl

theorem children_fill (f : Frame κ ν τ) (t : τ) : (f.fill t).children = f.left ++ t :: f.right := by
  cases f <;> simp [fill, Inner.children, left, right, after]

theorem map_fill (g : τ → σ) (f : Frame κ ν τ) (t : τ) :
    (f.fill t).map g = (f.map g).fill (g t) := by
  cases f <;> simp [fill, map, Inner.map]

@[simp] theorem label_map (g : τ → σ) (f : Frame κ ν τ) : (f.map g).label = f.label := by
  cases f <;> rfl

@[simp] theorem left_map (g : τ → σ) (f : Frame κ ν τ) : (f.map g).left = f.left.map g := by
  cases f <;> simp [left, map]

@[simp] theorem right_map (g : τ → σ) (f : Frame κ ν τ) : (f.map g).right = f.right.map g := by
  cases f <;> simp [right, after, map]

@[simp] theorem index_map (g : τ → σ) (f : Frame κ ν τ) : (f.map g).index = f.index := by
  cases f <;> simp [index, map]

@[simp] theorem label_insertAfter (f : Frame κ ν τ) (k : κ) (t : τ) :
    (f.insertAfter k t).label = f.label := by
  cases f <;> rfl

@[simp] theorem left_insertAfter (f : Frame κ ν τ) (k : κ) (t : τ) :
    (f.insertAfter k t).left = f.left := by
  cases f <;> rfl

@[simp] theorem right_insertAfter (f : Frame κ ν τ) (k : κ) (t : τ) :
    (f.insertAfter k t).right = t :: f.right := by
  cases f <;> rfl

theorem map_insertAfter (g : τ → σ) (f : Frame κ ν τ) (k : κ) (t : τ) :
    (f.insertAfter k t).map g = (f.map g).insertAfter k (g t) := by
  cases f <;> rfl

theorem first_fill_insertAfter (f : Frame κ ν τ) (k : κ) (t u : τ) :
    ((f.insertAfter k u).fill t).first = (f.fill t).first := by
  cases f <;> rfl

/-- Adding an entry after the hole inserts it into the entries of the node. -/
theorem rest_fill_insertAfter (f : Frame κ ν τ) (k : κ) (t u : τ) :
    ((f.insertAfter k u).fill t).rest = (f.fill t).rest.insertIdx f.index (k, u) := by
  cases f with
  | first l a => simp [insertAfter, fill, index]
  | later l c b k₀ a =>
    induction b with
    | nil => simp [insertAfter, fill, index]
    | cons e b ih => simpa [insertAfter, fill, index] using ih

theorem index_le (f : Frame κ ν τ) (t : τ) : f.index ≤ (f.fill t).rest.length := by
  cases f <;> simp [index, fill]

/-- The entries of the node up to that of the hole, if the hole has one. -/
def before : Frame κ ν τ → τ → List (κ × τ)
  | first _ _, _ => []
  | later _ _ b k _, t => b ++ [(k, t)]

@[simp] theorem length_before (f : Frame κ ν τ) (t : τ) : (f.before t).length = f.index := by
  cases f <;> simp [before, index]

theorem rest_fill (f : Frame κ ν τ) (t : τ) : (f.fill t).rest = f.before t ++ f.after := by
  cases f <;> simp [before, fill, after]

theorem rest_fill_insertAfter_eq (f : Frame κ ν τ) (k : κ) (t u : τ) :
    ((f.insertAfter k u).fill t).rest = f.before t ++ (k, u) :: f.after := by
  cases f <;> simp [before, fill, insertAfter, after]

theorem before_map (g : τ → σ) (f : Frame κ ν τ) (t : τ) :
    (f.map g).before (g t) = (f.before t).map fun e => (e.1, g e.2) := by
  cases f <;> simp [before, map]

/-- The frame with its hole after the child `t` put in the hole, and the
    separator `k`. -/
def following : Frame κ ν τ → τ → κ → Frame κ ν τ
  | first l a, t, k => later l t [] k a
  | later l c b k₀ a, t, k => later l c (b ++ [(k₀, t)]) k a

theorem fill_following (f : Frame κ ν τ) (t : τ) (k : κ) (u : τ) :
    (f.following t k).fill u = (f.insertAfter k u).fill t := by
  cases f <;> simp [following, fill, insertAfter]

@[simp] theorem label_following (f : Frame κ ν τ) (t : τ) (k : κ) :
    (f.following t k).label = f.label := by
  cases f <;> rfl

@[simp] theorem left_following (f : Frame κ ν τ) (t : τ) (k : κ) :
    (f.following t k).left = f.left ++ [t] := by
  cases f <;> simp [following, left]

@[simp] theorem right_following (f : Frame κ ν τ) (t : τ) (k : κ) :
    (f.following t k).right = f.right := by
  cases f <;> rfl

/-- The sibling next to the hole: the one before it, or else the one after. -/
def sibling (f : Frame κ ν τ) : Option τ := f.left.getLast?.or f.right.head?

@[simp] theorem sibling_following (f : Frame κ ν τ) (t : τ) (k : κ) :
    (f.following t k).sibling = some t := by
  simp [sibling]

/-- A hole with a sibling is one of two children that follow each other. -/
theorem exists_pair (f : Frame κ ν τ) (hf : f.left ++ f.right ≠ []) (t : τ) :
    ∃ (g : Frame κ ν τ) (a : τ) (k : κ) (b u : τ), f.sibling = some u ∧ f.label = g.label ∧
      f.fill t = (g.insertAfter k b).fill a ∧ (f.left ++ f.right).Perm (u :: (g.left ++ g.right)) ∧
      ((∃ l es, g = first l es) ∧ t = a ∧ u = b ∨ t = b ∧ u = a) := by
  cases f with
  | first l es =>
    cases es with
    | nil => exact absurd rfl hf
    | cons e es =>
      exact ⟨first l es, t, e.1, e.2, e.2, rfl, rfl, rfl, .refl _, .inl ⟨⟨l, es, rfl⟩, rfl, rfl⟩⟩
  | later l c b k es =>
    -- The child before the hole is the last of those in `b`, or else `c`.
    obtain ⟨g, u, hg⟩ : ∃ (g : Frame κ ν τ) (u : τ), later l c b k es = g.following u k := by
      induction b using List.reverseRecOn with
      | nil => exact ⟨first l es, c, rfl⟩
      | append_singleton b e => exact ⟨later l c b e.1 es, e.2, rfl⟩
    rw [hg]
    refine ⟨g, u, k, t, u, sibling_following g u k, label_following g u k, fill_following g u k t, ?_,
      .inr ⟨rfl, rfl⟩⟩
    rw [left_following, right_following, List.append_assoc]
    exact List.perm_middle

end Frame

/-- Every child of a node is the filling of a frame. -/
theorem Inner.exists_frame (n : Inner κ ν τ) {i : ℕ} (h : i ≤ n.rest.length) :
    ∃ (f : Frame κ ν τ) (t : τ), f.fill t = n ∧ f.index = i := by
  cases i with
  | zero => exact ⟨.first n.label n.rest, n.first, rfl, rfl⟩
  | succ i =>
    have hi : i < n.rest.length := h
    refine ⟨.later n.label n.first (n.rest.take i) n.rest[i].1 (n.rest.drop (i + 1)),
      n.rest[i].2, ?_, by simp [Frame.index, Nat.le_of_lt hi]⟩
    rw [Frame.fill, ← List.drop_eq_getElem_cons hi, List.take_append_drop]

/-! ### Contexts -/

/-- A tree of height `H` with a hole for one of height `h`, from the hole up. -/
inductive Ctx (κ ν lam : Type) : ℕ → ℕ → Type
  | root {h : ℕ} : Ctx κ ν lam h h
  | up {h H : ℕ} (f : Frame κ ν (Perfect κ ν lam h)) (c : Ctx κ ν lam (h + 1) H) : Ctx κ ν lam h H

namespace Ctx

/-- The tree, with the hole filled. -/
def plug : {h H : ℕ} → Ctx κ ν lam h H → Perfect κ ν lam h → Perfect κ ν lam H
  | _, _, root, t => t
  | _, _, up f c, t => plug c (f.fill t)

/-- The label of the node above the hole. -/
def parent : {h H : ℕ} → Ctx κ ν lam h H → Option ν
  | _, _, root => none
  | _, _, up f _ => some f.label

/-- The tips before and after the hole. -/
def pre : {h H : ℕ} → Ctx κ ν lam h H → List (Tip ν lam)
  | _, _, root => []
  | _, _, up f c => pre c ++ f.left.flatMap tips

def post : {h H : ℕ} → Ctx κ ν lam h H → List (Tip ν lam)
  | _, _, root => []
  | _, _, up f c => f.right.flatMap tips ++ post c

/-- All labels around the hole. -/
def labels : {h H : ℕ} → Ctx κ ν lam h H → List ν
  | _, _, root => []
  | _, _, up f c =>
    f.label :: (f.left.flatMap PerfectTree.labels ++ f.right.flatMap PerfectTree.labels ++ labels c)

end Ctx

/-- A hole is no higher than the tree. -/
theorem Ctx.le {h H : ℕ} (c : Ctx κ ν lam h H) : h ≤ H := by
  induction c with
  | root => exact Nat.le_refl _
  | up f c ih => exact Nat.le_of_succ_le ih

theorem tips_plug {h H : ℕ} (c : Ctx κ ν lam h H) (t : Perfect κ ν lam h) :
    tips (c.plug t) = c.pre ++ tips t ++ c.post := by
  induction c with
  | root => simp [Ctx.plug, Ctx.pre, Ctx.post]
  | up f c ih =>
    have := Frame.children_fill f t
    rw [Ctx.plug, ih, tips, this]
    simp [Ctx.pre, Ctx.post]

theorem labels_plug {h H : ℕ} (c : Ctx κ ν lam h H) (t : Perfect κ ν lam h) :
    (labels (c.plug t)).Perm (labels t ++ c.labels) := by
  induction c with
  | root => simp [Ctx.plug, Ctx.labels]
  | up f c ih =>
    refine (ih (f.fill t)).trans ?_
    rw [labels, Frame.label_fill, Frame.children_fill, Ctx.labels]
    simp only [List.flatMap_append, List.flatMap_cons, List.cons_append]
    refine (List.Perm.cons _ ?_).trans List.perm_middle.symm
    simp only [← List.append_assoc]
    exact ((List.perm_append_comm).append_right _).append_right _

theorem label_mem_labels_plug {h H : ℕ} (c : Ctx κ ν lam h H) (t : Perfect κ ν lam h) :
    label t ∈ labels (c.plug t) :=
  (labels_plug c t).mem_iff.2 (List.mem_append_left _ (label_mem_labels t))

/-- The label of the root is that of the filling, or stands above the hole. -/
theorem label_plug {h H : ℕ} (c : Ctx κ ν lam h H) {t u : Perfect κ ν lam h}
    (htu : label t = label u) : label (c.plug t) = label (c.plug u) := by
  induction c with
  | root => exact htu
  | up f c ih =>
    refine ih (t := f.fill t) (u := f.fill u) ?_
    rw [label, label, Frame.label_fill, Frame.label_fill]

/-- The root of a tree with a hole below it stands above the hole. -/
theorem label_plug_up {h H : ℕ} (f : Frame κ ν (Perfect κ ν lam h)) (c : Ctx κ ν lam (h + 1) H)
    (t : Perfect κ ν lam h) : label (c.plug (f.fill t)) ∈ (Ctx.up f c).labels := by
  have hmem : ∀ {h H : ℕ} (c : Ctx κ ν lam h H) (t : Perfect κ ν lam h),
      label (c.plug t) ∈ label t :: c.labels := by
    intro h H c t
    induction c with
    | root => exact List.mem_cons_self
    | up f c ih =>
      rcases List.mem_cons.1 (ih (f.fill t)) with heq | hc
      · rw [label, Frame.label_fill] at heq
        exact List.mem_cons_of_mem _ (heq ▸ List.mem_cons_self)
      · exact List.mem_cons_of_mem _ (List.mem_cons_of_mem _ (List.mem_append_right _ hc))
  rcases List.mem_cons.1 (hmem c (f.fill t)) with heq | hc
  · rw [label, Frame.label_fill] at heq
    exact heq ▸ List.mem_cons_self
  · exact List.mem_cons_of_mem _ (List.mem_append_right _ hc)

/-- The labels with one more child after the hole. -/
theorem labels_fill_insertAfter [DecidableEq ν] {h H : ℕ} (f : Frame κ ν (Perfect κ ν lam h))
    (c : Ctx κ ν lam (h + 1) H) (t : Perfect κ ν lam h) (k : κ) (u : Perfect κ ν lam h) :
    (labels (h := h + 1) ((f.insertAfter k u).fill t) ++ c.labels).Perm
      (labels t ++ (labels u ++ (Ctx.up f c).labels)) := by
  rw [labels, Frame.label_fill, Frame.children_fill, Ctx.labels, List.perm_iff_count]
  intro a
  simp only [Frame.left_insertAfter, Frame.right_insertAfter, Frame.label_insertAfter,
    List.flatMap_append, List.flatMap_cons, List.count_append, List.count_cons]
  omega

/-- The labels of the halves of a split node. -/
theorem labels_split [DecidableEq ν] {h : ℕ} {n : Inner κ ν (Perfect κ ν lam h)} {cut : ℕ} {k' : κ}
    {m : Perfect κ ν lam h} {r : List (κ × Perfect κ ν lam h)}
    (hd : n.rest.drop cut = (k', m) :: r) (s : ν) :
    (labels (h := h + 1) (⟨n.label, n.first, n.rest.take cut⟩ : Inner κ ν _) ++
      labels (h := h + 1) (⟨s, m, r⟩ : Inner κ ν _)).Perm (s :: labels (h := h + 1) n) := by
  have hr : n.rest = n.rest.take cut ++ (k', m) :: r := by rw [← hd, List.take_append_drop]
  simp only [labels, Inner.children]
  conv_rhs => rw [hr]
  rw [List.perm_iff_count]
  intro a
  simp only [List.map_append, List.map_cons, List.flatMap_append, List.flatMap_cons,
    List.count_append, List.count_cons]
  omega

/-- In a tree without repeated labels, two children sharing a label are the same. -/
theorem children_eq_of_mem_labels {h : ℕ} {n : Inner κ ν (Perfect κ ν lam h)}
    (hn : (labels (h := h + 1) n).Nodup) {t u : Perfect κ ν lam h} (ht : t ∈ n.children)
    (hu : u ∈ n.children) {a : ν} (hat : a ∈ labels t) (hau : a ∈ labels u) : t = u := by
  by_contra hne
  have hpw := (List.nodup_flatMap.1 (List.nodup_cons.1 hn).2).2
  have : Std.Symm (Function.onFun List.Disjoint fun t : Perfect κ ν lam h => labels t) :=
    ⟨fun _ _ hd _ ha hb => hd hb ha⟩
  exact hpw.forall ht hu hne hat hau

/-! ### Properties of all nodes -/

section Everywhere

variable (L : Option ν → Tip ν lam → Prop) (N : Option ν → Inner κ ν ν → Prop)

/-- `L` holds at every tip and `N` at every inner node, each given the label of
    the node above, if any; `N` sees the labels of the children. -/
def Everywhere : {h : ℕ} → Option ν → Perfect κ ν lam h → Prop
  | 0, par, l => L par l
  | _ + 1, par, n =>
    N par (Inner.map label n) ∧ ∀ t ∈ Inner.children n, Everywhere (some (Inner.label n)) t

/-- `Everywhere` around a hole filled with a tree of label `a`. -/
def Ctx.Everywhere : {h H : ℕ} → Ctx κ ν lam h H → ν → Prop
  | _, _, .root, _ => True
  | _, _, .up f c, a =>
    N c.parent ((f.map label).fill a) ∧
      (∀ t ∈ f.left ++ f.right, PerfectTree.Everywhere L N (some f.label) t) ∧
      Ctx.Everywhere c f.label

variable {L N}

theorem everywhere_succ {h : ℕ} {par : Option ν} {n : Inner κ ν (Perfect κ ν lam h)} :
    Everywhere L N (h := h + 1) par n ↔
      N par (n.map label) ∧ ∀ t ∈ n.children, Everywhere L N (some n.label) t := Iff.rfl

theorem everywhere_plug {h H : ℕ} (c : Ctx κ ν lam h H) (t : Perfect κ ν lam h) :
    Everywhere L N none (c.plug t) ↔
      c.Everywhere L N (label t) ∧ Everywhere L N c.parent t := by
  induction c with
  | root => simp [Ctx.plug, Ctx.Everywhere, Ctx.parent]
  | up f c ih =>
    rw [Ctx.plug, ih, everywhere_succ, Frame.children_fill, Frame.map_fill]
    have hl : label (h := _ + 1) (f.fill t) = f.label := Frame.label_fill f t
    rw [hl, Frame.label_fill, Ctx.Everywhere, Ctx.parent]
    -- The filling stands among the children of the node it completes.
    simp only [List.mem_append, List.mem_cons]
    constructor
    · rintro ⟨hc, hn, ht⟩
      exact ⟨⟨hn, fun u hu => ht u (hu.imp_right .inr), hc⟩, ht t (.inr (.inl rfl))⟩
    · rintro ⟨⟨hn, hs, hc⟩, ht⟩
      refine ⟨hc, hn, fun u hu => ?_⟩
      rcases hu with hu | rfl | hu
      exacts [hs u (.inl hu), ht, hs u (.inr hu)]

/-- A weaker property, as far as the labels of the tree see it. -/
theorem Everywhere.imp {L' : Option ν → Tip ν lam → Prop} {N' : Option ν → Inner κ ν ν → Prop}
    {h : ℕ} {par : Option ν} {t : Perfect κ ν lam h} (H : Everywhere L N par t)
    (hL : ∀ par l, l.label ∈ labels t → L par l → L' par l)
    (hN : ∀ par n, n.label ∈ labels t → N par n → N' par n) : Everywhere L' N' par t := by
  induction h generalizing par with
  | zero => exact hL _ _ (List.mem_singleton_self _) H
  | succ h ih =>
    refine ⟨hN _ _ List.mem_cons_self H.1, fun u hu => ih (H.2 u hu) ?_ ?_⟩
    · exact fun par l hl => hL par l (List.mem_cons_of_mem _ (List.mem_flatMap.2 ⟨u, hu, hl⟩))
    · exact fun par n hl => hN par n (List.mem_cons_of_mem _ (List.mem_flatMap.2 ⟨u, hu, hl⟩))

theorem Ctx.Everywhere.imp {L' : Option ν → Tip ν lam → Prop}
    {N' : Option ν → Inner κ ν ν → Prop} {h H : ℕ} {c : Ctx κ ν lam h H} {a : ν}
    (hc : c.Everywhere L N a)
    (hL : ∀ par l, l.label ∈ c.labels → L par l → L' par l)
    (hN : ∀ par n, n.label ∈ c.labels → N par n → N' par n) : c.Everywhere L' N' a := by
  induction c generalizing a with
  | root => trivial
  | up f c ih =>
    obtain ⟨hn, hs, hc⟩ := hc
    have hsub : ∀ t ∈ f.left ++ f.right, ∀ b ∈ PerfectTree.labels t, b ∈ (Ctx.up f c).labels := by
      intro t ht b hb
      refine List.mem_cons_of_mem _ (List.mem_append_left _ ?_)
      rw [← List.flatMap_append]
      exact List.mem_flatMap.2 ⟨t, ht, hb⟩
    refine ⟨hN _ _ ?_ hn, fun t ht => (hs t ht).imp ?_ ?_, ih hc ?_ ?_⟩
    · rw [Frame.label_fill, Frame.label_map]
      exact List.mem_cons_self
    · exact fun par l hl => hL par l (hsub t ht _ hl)
    · exact fun par n hl => hN par n (hsub t ht _ hl)
    · exact fun par l hl => hL par l (List.mem_cons_of_mem _ (List.mem_append_right _ hl))
    · exact fun par n hl => hN par n (List.mem_cons_of_mem _ (List.mem_append_right _ hl))

end Everywhere

/-! ### Insertion -/

/-- Puts the trees `t` and `u`, with the separator `k` between them, in the
    hole of the context. A node with more than `max` entries is split after
    `cut` of them, the next separator going up, to the right half of label `s`;
    the root of a tree grown by a level gets the label `s`. Further new labels
    are `next s`, and so on. -/
def insertUp (max cut : ℕ) (next : ν → ν) : {h H : ℕ} → Ctx κ ν lam h H →
    Perfect κ ν lam h → κ → Perfect κ ν lam h → ν → Σ H', Perfect κ ν lam H'
  | h, _, .root, t, k, u, s => ⟨h + 1, (⟨s, t, [(k, u)]⟩ : Inner κ ν (Perfect κ ν lam h))⟩
  | h, H, .up f c, t, k, u, s =>
    let n := (f.insertAfter k u).fill t
    if n.rest.length ≤ max then ⟨H, c.plug n⟩
    else match n.rest.drop cut with
      | [] => ⟨H, c.plug n⟩
      | (k', m) :: r =>
        insertUp max cut next c (⟨n.label, n.first, n.rest.take cut⟩ : Inner κ ν (Perfect κ ν lam h))
          k' (⟨s, m, r⟩ : Inner κ ν (Perfect κ ν lam h)) (next s)

section insertUp

variable {max cut : ℕ} {next : ν → ν}

/-- At the root, the tree grows by a level. -/
theorem insertUp_root {h : ℕ} {t u : Perfect κ ν lam h} {k : κ} {s : ν} :
    insertUp max cut next .root t k u s =
      ⟨h + 1, (⟨s, t, [(k, u)]⟩ : Inner κ ν (Perfect κ ν lam h))⟩ := rfl

/-- A node that does not get too big takes the new entry. -/
theorem insertUp_fits {h H : ℕ} {f : Frame κ ν (Perfect κ ν lam h)} {c : Ctx κ ν lam (h + 1) H}
    {t u : Perfect κ ν lam h} {k : κ} {s : ν}
    (hn : ((f.insertAfter k u).fill t).rest.length ≤ max) :
    insertUp max cut next (.up f c) t k u s = ⟨H, c.plug ((f.insertAfter k u).fill t)⟩ := by
  rw [insertUp]
  exact if_pos hn

/-- A node that gets too big is split. -/
theorem insertUp_splits {h H : ℕ} {f : Frame κ ν (Perfect κ ν lam h)} {c : Ctx κ ν lam (h + 1) H}
    {t u : Perfect κ ν lam h} {k k' : κ} {s : ν} {n : Inner κ ν (Perfect κ ν lam h)}
    {m : Perfect κ ν lam h} {r : List (κ × Perfect κ ν lam h)}
    (hn : (f.insertAfter k u).fill t = n) (hlen : max < n.rest.length)
    (hd : n.rest.drop cut = (k', m) :: r) :
    insertUp max cut next (.up f c) t k u s =
      insertUp max cut next c (⟨n.label, n.first, n.rest.take cut⟩ : Inner κ ν _) k'
        (⟨s, m, r⟩ : Inner κ ν _) (next s) := by
  subst hn
  rw [insertUp]
  refine (if_neg (Nat.not_le.2 hlen)).trans ?_
  rw [hd]

/-- The tips of a split node are those of its halves. -/
theorem tips_split {h : ℕ} {n : Inner κ ν (Perfect κ ν lam h)} {cut : ℕ} {k' : κ}
    {m : Perfect κ ν lam h} {r : List (κ × Perfect κ ν lam h)}
    (hd : n.rest.drop cut = (k', m) :: r) (s : ν) :
    tips (h := h + 1) (⟨n.label, n.first, n.rest.take cut⟩ : Inner κ ν _) ++
      tips (h := h + 1) (⟨s, m, r⟩ : Inner κ ν _) = tips (h := h + 1) n := by
  have hr : n.rest = n.rest.take cut ++ (k', m) :: r := by rw [← hd, List.take_append_drop]
  simp only [tips, Inner.children]
  conv_rhs => rw [hr]
  simp

/-- An insertion keeps the tips around the hole. -/
theorem tips_insertUp (hcut : cut ≤ max) {h H : ℕ} (c : Ctx κ ν lam h H) (t : Perfect κ ν lam h)
    (k : κ) (u : Perfect κ ν lam h) (s : ν) :
    tips (insertUp max cut next c t k u s).2 = c.pre ++ (tips t ++ tips u) ++ c.post := by
  induction c generalizing k s with
  | root => simp [insertUp, tips, Inner.children, Ctx.pre, Ctx.post]
  | up f c ih =>
    have hn : tips (h := _ + 1) ((f.insertAfter k u).fill t) =
        f.left.flatMap tips ++ (tips t ++ tips u) ++ f.right.flatMap tips := by
      rw [tips, Frame.children_fill]
      simp
    by_cases hlen : ((f.insertAfter k u).fill t).rest.length ≤ max
    · rw [insertUp_fits hlen, tips_plug, hn]
      simp [Ctx.pre, Ctx.post]
    · rcases hd : ((f.insertAfter k u).fill t).rest.drop cut with _ | ⟨⟨k', m⟩, r⟩
      · rw [List.drop_eq_nil_iff] at hd
        omega
      · rw [insertUp_splits rfl (Nat.not_le.1 hlen) hd, ih, tips_split hd, hn]
        simp [Ctx.pre, Ctx.post]

/-- An insertion keeps the labels, and adds more. -/
theorem length_labels_insertUp [DecidableEq ν] (hcut : cut ≤ max) {h H : ℕ} (c : Ctx κ ν lam h H)
    (t : Perfect κ ν lam h) (k : κ) (u : Perfect κ ν lam h) (s : ν) :
    (labels t).length + (labels u).length + c.labels.length ≤
      (labels (insertUp max cut next c t k u s).2).length := by
  induction c generalizing k s with
  | root => simp [insertUp, labels, Inner.children, Ctx.labels]
  | up f c ih =>
    have hn := (labels_fill_insertAfter f c t k u).length_eq
    simp only [List.length_append] at hn
    by_cases hlen : ((f.insertAfter k u).fill t).rest.length ≤ max
    · rw [insertUp_fits hlen, (labels_plug c _).length_eq, List.length_append]
      omega
    · rcases hd : ((f.insertAfter k u).fill t).rest.drop cut with _ | ⟨⟨k', m⟩, r⟩
      · rw [List.drop_eq_nil_iff] at hd
        omega
      · rw [insertUp_splits rfl (Nat.not_le.1 hlen) hd]
        have hs := (labels_split hd s).length_eq
        rw [List.length_append, List.length_cons] at hs
        refine Nat.le_trans ?_ (ih _ k' _ (next s))
        omega

end insertUp

end PerfectTree
