import Mathlib

/-!
# Metro maps

The metro maps of `sol2.sml`: stations, areas with a name, and maps that are connected.

* `area_eq`: `area` computes the names of the stations that lie in no area of their name;
* `checkMetro_iff`: the maps that are accepted.
-/

namespace Sml

/-- Names of stations and areas. -/
abbrev Name := String

inductive Metro
  | station (n : Name)
  | area (n : Name) (m : Metro)
  | connect (m1 m2 : Metro)

/-- A list without a name. -/
def mkList (e1 : Name) : List Name → List Name
  | [] => []
  | x :: xs' => if e1 = x then mkList e1 xs' else x :: mkList e1 xs'

def connect : List Name → List Name → List Name
  | [], e2 => e2
  | x :: xs', e2 => x :: connect xs' e2

def area : Metro → List Name
  | .area e1 e2 => mkList e1 (area e2)
  | .connect e1 e2 => connect (area e1) (area e2)
  | .station e1 => [e1]

def checkMetro (e : Metro) : Bool :=
  match e with
  | .area _ _ => if area e = [] then true else false
  | .connect _ _ => false
  | .station _ => false

/-! ### Stations and the areas around them -/

/-- The stations of a map from left to right, each with the areas that it lies in. -/
def stations : Metro → List (Name × List Name)
  | .station n => [(n, [])]
  | .area a m => (stations m).map fun s => (s.1, a :: s.2)
  | .connect m m' => stations m ++ stations m'

/-- Every station lies in an area of its name. -/
def Closed (m : Metro) : Prop := ∀ s ∈ stations m, s.1 ∈ s.2

/-- The names of the stations that lie in no area of their name. -/
def unenclosed (m : Metro) : List Name := ((stations m).filter fun s => s.1 ∉ s.2).map Prod.fst

/-- The root of the map is an area. -/
def IsArea (m : Metro) : Prop := ∃ a m', m = .area a m'

theorem mkList_eq (a : Name) (xs : List Name) : mkList a xs = xs.filter fun x => x ≠ a := by
  induction xs with
  | nil => rfl
  | cons x xs ih =>
    rw [mkList, ih]
    by_cases h : a = x
    · rw [if_pos h, List.filter_cons_of_neg (by simpa using h.symm)]
    · rw [if_neg h, List.filter_cons_of_pos (by simpa using Ne.symm h)]

theorem connect_eq (xs ys : List Name) : connect xs ys = xs ++ ys := by
  induction xs with
  | nil => rfl
  | cons x xs ih => rw [connect, ih, List.cons_append]

/-- An area encloses the stations of its name. -/
theorem unenclosed_area (a : Name) (m : Metro) :
    unenclosed (.area a m) = (unenclosed m).filter fun x => x ≠ a := by
  rw [unenclosed, unenclosed, stations, List.filter_map, List.map_map, List.filter_map,
    List.filter_filter]
  refine congrArg _ (List.filter_congr fun s _ => ?_)
  simp

theorem area_eq (m : Metro) : area m = unenclosed m := by
  induction m with
  | station n => rfl
  | area a m ih => rw [area, mkList_eq, ih, unenclosed_area]
  | connect m m' ih ih' =>
    rw [area, connect_eq, ih, ih', unenclosed, unenclosed, unenclosed, stations,
      List.filter_append, List.map_append]

theorem closed_iff (m : Metro) : Closed m ↔ unenclosed m = [] := by
  simp [Closed, unenclosed, List.filter_eq_nil_iff]

/-- A map is accepted if and only if its root is an area and every station lies in an area of its
name. -/
theorem checkMetro_iff (m : Metro) :
    (checkMetro m = true ↔ IsArea m ∧ Closed m) ∧ area m = unenclosed m := by
  refine ⟨?_, area_eq m⟩
  rw [closed_iff, ← area_eq]
  cases m with
  | station n => simp [checkMetro, IsArea]
  | area a m => simp [checkMetro, IsArea]
  | connect m m' => simp [checkMetro, IsArea]

/-- Two areas, each with its station, that are connected: every station is enclosed, but the map
is not accepted. -/
theorem checkMetro_connect :
    Closed (.connect (.area "a" (.station "a")) (.area "b" (.station "b"))) ∧
      checkMetro (.connect (.area "a" (.station "a")) (.area "b" (.station "b"))) = false := by
  rw [closed_iff]
  decide

end Sml
