import Mathlib

/-!
# Patterns

The patterns of `sol3.sml` and how they match values. (The file lacks the parenthesis that closes
the case of the tuples in `match`; it is read with it.)

* `matchValu_isSome`: a value matches when it has the shape of the pattern (`Fits`);
* `matchValu_binds`: what is bound are the variables of the pattern in order, each to the part of
  the value at its place;
* `match_binds_vars`: both, and the names are distinct when `checkPat` says so.
-/

namespace Sml

inductive Pattern
  | wildcard
  | var (s : String)
  | unitP
  | constP (n : ℤ)
  | tupleP (ps : List Pattern)
  | constructorP (s : String) (p : Pattern)

inductive Valu
  | const (n : ℤ)
  | unit
  | tuple (vs : List Valu)
  | constructor (s : String) (v : Valu)

def distinct : List String → Bool
  | [] => true
  | x :: xs => !(xs.any fun a => a = x) && distinct xs

def transList : Pattern → List String
  | .var s => [s]
  | .constructorP _ p => transList p
  | .tupleP p => p.foldl (fun acc a => acc ++ transList a) []
  | _ => []

def checkPat (p : Pattern) : Bool :=
  let lst := transList p
  distinct lst

variable {α β : Type}

def chk : Option (List β) → Option (List β) → Option (List β)
  | some x, some acc => some (acc ++ x)
  | _, _ => none

def allChk (f : α → Option (List β)) (xs : List α) : Option (List β) :=
  xs.foldl (fun tmp x => chk (f x) tmp) (some [])

/-- The function `match`. -/
def matchValu (v : Valu) (p : Pattern) : Option (List (String × Valu)) :=
  match p with
  | .wildcard => some []
  | .var s => some [(s, v)]
  | .unitP =>
    match v with
    | .unit => some []
    | _ => none
  | .constP pp =>
    match v with
    | .const vv => if pp = vv then some [] else none
    | _ => none
  | .tupleP pp =>
    match v with
    | .tuple vv =>
      if pp.length = vv.length then allChk (fun x => matchValu x.1.1 x.1.2) (vv.zip pp).attach
      else none
    | _ => none
  | .constructorP s1 pt =>
    match v with
    | .constructor s2 vl => if s1 = s2 then matchValu vl pt else none
    | _ => none
termination_by p
decreasing_by
  · have hx := List.sizeOf_lt_of_mem (List.of_mem_zip x.2).2
    rw [Pattern.tupleP.sizeOf_spec]
    exact Nat.lt_of_lt_of_le hx (Nat.le_add_left _ _)
  · decreasing_tactic

/-! ### Shapes and places -/

/-- A value has the shape of a pattern. -/
inductive Fits : Valu → Pattern → Prop
  | wildcard (v : Valu) : Fits v .wildcard
  | var (v : Valu) (s : String) : Fits v (.var s)
  | unitP : Fits .unit .unitP
  | constP (n : ℤ) : Fits (.const n) (.constP n)
  | tupleP {vs : List Valu} {ps : List Pattern} : vs.length = ps.length →
    (∀ x ∈ vs.zip ps, Fits x.1 x.2) → Fits (.tuple vs) (.tupleP ps)
  | constructorP (s : String) {v : Valu} {p : Pattern} :
    Fits v p → Fits (.constructor s v) (.constructorP s p)

/-- A part of a value: a component of a tuple, or the argument of a constructor. -/
def Valu.part : Valu → ℕ → Option Valu
  | .tuple vs, i => vs[i]?
  | .constructor _ v, 0 => some v
  | _, _ => none

/-- What is at a place of a value. -/
def Valu.at (v : Valu) : List ℕ → Option Valu
  | [] => some v
  | i :: place => (v.part i).bind fun u => u.at place

mutual

/-- The variables of a pattern from left to right, each with its place. -/
def vars : Pattern → List (String × List ℕ)
  | .var s => [(s, [])]
  | .constructorP _ p => (vars p).map fun x => (x.1, 0 :: x.2)
  | .tupleP ps => varsFrom 0 ps
  | _ => []

/-- The variables of the components of a tuple from a component on. -/
def varsFrom (i : ℕ) : List Pattern → List (String × List ℕ)
  | [] => []
  | p :: ps => ((vars p).map fun x => (x.1, i :: x.2)) ++ varsFrom (i + 1) ps

end

/-- Names with values are those of the variables, each with the part of the value at its place. -/
def Binds (v : Valu) (xs : List (String × List ℕ)) (b : List (String × Valu)) : Prop :=
  List.Forall₂ (fun x y => y.1 = x.1 ∧ v.at x.2 = some y.2) xs b

variable {v : Valu} {p : Pattern} {xs : List α} {f : α → Option (List β)} {b : List (String × Valu)}

/-- Induction over the components of tuples. -/
theorem Pattern.induction {motive : Pattern → Prop} (wildcard : motive .wildcard)
    (var : ∀ s, motive (.var s)) (unitP : motive .unitP) (constP : ∀ n, motive (.constP n))
    (tupleP : ∀ ps, (∀ p ∈ ps, motive p) → motive (.tupleP ps))
    (constructorP : ∀ s p, motive p → motive (.constructorP s p)) : ∀ p, motive p
  | .wildcard => wildcard
  | .var s => var s
  | .unitP => unitP
  | .constP n => constP n
  | .tupleP ps => tupleP ps fun p hp =>
    have := List.sizeOf_lt_of_mem hp
    Pattern.induction wildcard var unitP constP tupleP constructorP p
  | .constructorP s p =>
    constructorP s p (Pattern.induction wildcard var unitP constP tupleP constructorP p)

/-! ### The names -/

theorem distinct_iff (l : List String) : distinct l = true ↔ l.Nodup := by
  induction l with
  | nil => simp [distinct]
  | cons x l ih =>
    rw [distinct, Bool.and_eq_true, ih, List.nodup_cons, Bool.not_eq_true', List.any_eq_false]
    refine and_congr_left fun _ => ⟨fun h hx => h x hx (decide_eq_true rfl), fun h a ha hax => ?_⟩
    exact h (of_decide_eq_true hax ▸ ha)

theorem map_fst_varsFrom (i : ℕ) (ps : List Pattern) :
    (varsFrom i ps).map Prod.fst = ps.flatMap fun p => (vars p).map Prod.fst := by
  induction ps generalizing i with
  | nil => rfl
  | cons p ps ih =>
    rw [varsFrom, List.map_append, List.map_map, ih, List.flatMap_cons]
    rfl

/-- The variables of a pattern are listed in order. -/
theorem transList_eq (p : Pattern) : transList p = (vars p).map Prod.fst := by
  induction p using Pattern.induction with
  | wildcard => rw [transList, vars] <;> simp
  | var s => rw [transList, vars]; rfl
  | unitP => rw [transList, vars] <;> simp
  | constP n => rw [transList, vars] <;> simp
  | tupleP ps ih =>
    rw [transList, vars, map_fst_varsFrom, ← List.flatMap_eq_foldl]
    exact List.flatMap_congr ih
  | constructorP s p ih =>
    rw [transList, vars, ih, List.map_map]
    rfl

/-! ### The tuples -/

/-- Nothing comes of a fold that has failed. -/
theorem foldl_chk_none : xs.foldl (fun tmp x => chk (f x) tmp) none = none := by
  induction xs with
  | nil => rfl
  | cons x xs ih =>
    rw [List.foldl_cons]
    cases f x <;> exact ih

theorem foldl_chk_eq_some {acc b : List β} :
    xs.foldl (fun tmp x => chk (f x) tmp) (some acc) = some b ↔
      ∃ bs, List.Forall₂ (fun x b => f x = some b) xs bs ∧ b = acc ++ bs.flatten := by
  induction xs generalizing acc with
  | nil => simp [eq_comm]
  | cons x xs ih =>
    rw [List.foldl_cons]
    constructor
    · intro h
      cases hx : f x with
      | none =>
        rw [hx] at h
        cases foldl_chk_none.symm.trans h
      | some y =>
        rw [hx, chk, ih] at h
        obtain ⟨bs, hbs, rfl⟩ := h
        exact ⟨y :: bs, .cons hx hbs, List.append_assoc ..⟩
    · rintro ⟨_, hbs, rfl⟩
      cases hbs with
      | @cons _ y _ bs hx hbs =>
        rw [hx, chk, ih]
        exact ⟨bs, hbs, (List.append_assoc ..).symm⟩

theorem allChk_eq_some {b : List β} :
    allChk f xs = some b ↔ ∃ bs, List.Forall₂ (fun x b => f x = some b) xs bs ∧ b = bs.flatten :=
  foldl_chk_eq_some

theorem foldl_chk_isSome {acc : List β} :
    (xs.foldl (fun tmp x => chk (f x) tmp) (some acc)).isSome ↔ ∀ x ∈ xs, (f x).isSome := by
  induction xs generalizing acc with
  | nil => simp
  | cons x xs ih =>
    rw [List.foldl_cons, List.forall_mem_cons]
    cases hx : f x with
    | none =>
      have hnone : (chk none (some acc) : Option (List β)) = none := rfl
      simp [hnone, foldl_chk_none]
    | some y => rw [chk, ih, Option.isSome_some, and_iff_right rfl]

theorem allChk_isSome : (allChk f xs).isSome ↔ ∀ x ∈ xs, (f x).isSome := foldl_chk_isSome

/-- A tuple is matched component by component. -/
theorem matchValu_tuple (vv : List Valu) (pp : List Pattern) :
    matchValu (.tuple vv) (.tupleP pp) =
      if pp.length = vv.length then allChk (fun x => matchValu x.1 x.2) (vv.zip pp) else none := by
  have hattach : (vv.zip pp).attach.foldl (fun tmp x => chk (matchValu x.1.1 x.1.2) tmp) (some []) =
      allChk (fun x => matchValu x.1 x.2) (vv.zip pp) :=
    List.foldl_attach (f := fun tmp (x : Valu × Pattern) => chk (matchValu x.1 x.2) tmp)
  rw [matchValu, allChk, hattach]

/-! ### What matches -/

theorem fits_unitP : Fits v .unitP ↔ v = .unit := by
  constructor
  · rintro ⟨⟩
    rfl
  · rintro rfl
    exact .unitP

theorem fits_constP {n : ℤ} : Fits v (.constP n) ↔ v = .const n := by
  constructor
  · rintro ⟨⟩
    rfl
  · rintro rfl
    exact .constP n

theorem fits_tupleP {ps : List Pattern} :
    Fits v (.tupleP ps) ↔
      ∃ vs, v = .tuple vs ∧ vs.length = ps.length ∧ ∀ x ∈ vs.zip ps, Fits x.1 x.2 := by
  constructor
  · intro h
    cases h with
    | tupleP hlen hall => exact ⟨_, rfl, hlen, hall⟩
  · rintro ⟨vs, rfl, hlen, hall⟩
    exact .tupleP hlen hall

theorem fits_constructorP {s : String} :
    Fits v (.constructorP s p) ↔ ∃ u, v = .constructor s u ∧ Fits u p := by
  constructor
  · intro h
    cases h with
    | constructorP _ h => exact ⟨_, rfl, h⟩
  · rintro ⟨u, rfl, h⟩
    exact .constructorP s h

/-- A value matches if and only if it has the shape of the pattern. -/
theorem matchValu_isSome : (matchValu v p).isSome ↔ Fits v p := by
  induction p using Pattern.induction generalizing v with
  | wildcard =>
    rw [matchValu]
    exact iff_of_true rfl (.wildcard v)
  | var s =>
    rw [matchValu]
    exact iff_of_true rfl (.var v s)
  | unitP =>
    rw [fits_unitP]
    cases v <;> simp [matchValu]
  | constP n =>
    rw [fits_constP]
    cases v with
    | const m =>
      rw [matchValu]
      by_cases h : n = m
      · simp [h]
      · simp [h, Ne.symm h]
    | _ => simp [matchValu]
  | tupleP ps ih =>
    rw [fits_tupleP]
    cases v with
    | tuple vs =>
      rw [matchValu_tuple]
      by_cases hlen : ps.length = vs.length
      · rw [if_pos hlen, allChk_isSome]
        have hall : (∀ x ∈ vs.zip ps, (matchValu x.1 x.2).isSome) ↔
            ∀ x ∈ vs.zip ps, Fits x.1 x.2 :=
          forall₂_congr fun x hx => ih x.2 (List.of_mem_zip hx).2
        rw [hall]
        exact ⟨fun h => ⟨vs, rfl, hlen.symm, h⟩, fun ⟨_, h, _, h'⟩ => Valu.tuple.inj h ▸ h'⟩
      · rw [if_neg hlen]
        refine iff_of_false Bool.false_ne_true ?_
        rintro ⟨_, ⟨⟩, h, -⟩
        exact hlen h.symm
    | _ => simp [matchValu]
  | constructorP s p ih =>
    rw [fits_constructorP]
    cases v with
    | constructor s' u =>
      rw [matchValu]
      by_cases h : s = s'
      · simp [h, ih]
      · simp [h, Ne.symm h]
    | _ => simp [matchValu]

/-! ### What is bound -/

theorem varsFrom_eq (i : ℕ) (ps : List Pattern) :
    varsFrom i ps =
      ((ps.zipIdx i).map fun p => (vars p.1).map fun x => (x.1, p.2 :: x.2)).flatten := by
  induction ps generalizing i with
  | nil => rfl
  | cons p ps ih =>
    rw [varsFrom, ih]
    rfl

/-- The parts of a part of a value. -/
theorem Binds.map {u : Valu} {i : ℕ} {xs : List (String × List ℕ)} (hu : v.part i = some u)
    (h : Binds u xs b) : Binds v (xs.map fun x => (x.1, i :: x.2)) b := by
  refine List.forall₂_map_left_iff.2 (h.imp fun x y hxy => ⟨hxy.1, ?_⟩)
  rw [Valu.at, hu]
  exact hxy.2

theorem matchValu_binds (h : matchValu v p = some b) : Binds v (vars p) b := by
  induction p using Pattern.induction generalizing v b with
  | wildcard =>
    rw [matchValu] at h
    cases h
    exact .nil
  | var s =>
    rw [matchValu] at h
    cases h
    exact .cons ⟨rfl, rfl⟩ .nil
  | unitP =>
    cases v <;> simp [matchValu] at h
    subst h
    exact .nil
  | constP n =>
    cases v <;> simp [matchValu] at h
    obtain ⟨-, rfl⟩ := h
    exact .nil
  | tupleP ps ih =>
    cases v with
    | tuple vs =>
      rw [matchValu_tuple] at h
      split at h
      · rename_i hlen
        obtain ⟨bs, hbs, rfl⟩ := allChk_eq_some.1 h
        have hbslen := hbs.length_eq
        have hget := (List.forall₂_iff_get.1 hbs).2
        rw [List.length_zip] at hbslen
        rw [vars, varsFrom_eq]
        refine List.rel_flatten (List.forall₂_map_left_iff.2 (List.forall₂_iff_get.2 ⟨?_, ?_⟩))
        · rw [List.length_zipIdx]
          omega
        · intro i hi hi'
          rw [List.length_zipIdx] at hi
          have hi'' : i < (vs.zip ps).length := by rw [List.length_zip]; omega
          have hmatch := hget i (by omega) hi'
          simp only [List.get_eq_getElem, List.getElem_zip] at hmatch
          simp only [List.get_eq_getElem, List.getElem_zipIdx, Nat.zero_add]
          refine (ih _ (List.getElem_mem hi) hmatch).map ?_
          exact List.getElem?_eq_getElem _
      · cases h
    | _ => simp [matchValu] at h
  | constructorP s p ih =>
    cases v with
    | constructor s' u =>
      rw [matchValu] at h
      split at h
      · exact (ih h).map rfl
      · cases h
    | _ => simp [matchValu] at h

theorem Binds.names {xs : List (String × List ℕ)} (h : Binds v xs b) :
    b.map Prod.fst = xs.map Prod.fst := by
  induction h with
  | nil => rfl
  | cons hxy _ ih => rw [List.map_cons, List.map_cons, hxy.1, ih]

/-- A value matches if and only if it has the shape of the pattern; then the variables of the
pattern are bound, in order, each to the part of the value at its place. The names are distinct
when the pattern is accepted. -/
theorem match_binds_vars (v : Valu) (p : Pattern) :
    ((matchValu v p).isSome ↔ Fits v p) ∧
      ∀ b, matchValu v p = some b →
        b.map Prod.fst = transList p ∧ Binds v (vars p) b ∧
          (checkPat p = true → (b.map Prod.fst).Nodup) := by
  refine ⟨matchValu_isSome, fun b h => ?_⟩
  have hb := matchValu_binds h
  have hnames : b.map Prod.fst = transList p := hb.names.trans (transList_eq p).symm
  refine ⟨hnames, hb, fun hp => ?_⟩
  rw [hnames]
  exact (distinct_iff _).1 hp

/-- A tuple of a variable and a constructor with a variable. -/
theorem match_binds_pair :
    ((matchValu (.tuple [.unit, .constructor "S" (.const 3)])
        (.tupleP [.var "x", .constructorP "S" (.var "y")])).isSome ↔
      Fits (.tuple [.unit, .constructor "S" (.const 3)])
        (.tupleP [.var "x", .constructorP "S" (.var "y")])) ∧
      ["x", "y"] = transList (.tupleP [.var "x", .constructorP "S" (.var "y")]) ∧
      ["x", "y"].Nodup := by
  obtain ⟨hfits, hbinds⟩ := match_binds_vars (.tuple [.unit, .constructor "S" (.const 3)])
    (.tupleP [.var "x", .constructorP "S" (.var "y")])
  have hmatch : matchValu (.tuple [.unit, .constructor "S" (.const 3)])
      (.tupleP [.var "x", .constructorP "S" (.var "y")]) = some [("x", .unit), ("y", .const 3)] := by
    simp [matchValu, allChk, chk, List.attach]
  have hcheck : checkPat (.tupleP [.var "x", .constructorP "S" (.var "y")]) = true := by
    simp [checkPat, transList, distinct]
  obtain ⟨hnames, -, hdistinct⟩ := hbinds _ hmatch
  exact ⟨hfits, hnames, hdistinct hcheck⟩

end Sml
