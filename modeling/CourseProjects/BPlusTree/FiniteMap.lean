import CourseProjects.BPlusTree.Order
import CourseProjects.BPlusTree.Shape

/-!
# The table as a finite map

What a table is for: a finite map from keys to values (`Dict`). A table whose
tree is ordered and whose sorted records are those of the map (`Represents`)
answers a call as the map does, and represents the map after it, unless the call
purges a leaf (`Represents.call`).

* A run that starts with an insertion and in which nothing is ever purged returns
  what the map does (`run_dict`). A purge can lose a record (`purge_loses`).
* In a run without an insertion after a deletion, the tree is in search order
  after every call, and the chain of the leaves holds the map
  (`run_searchOrder`).
-/

namespace CourseProjects.BPlusTree

open Slots Function PerfectTree Run

/-! ### Finite maps -/

/-- A finite map from keys to values. -/
abbrev Dict := Finmap fun _ : ℤ => Value

/-- A call on a finite map. -/
def Dict.call (m : Dict) : Call → Ret × Dict
  | .insert key value =>
    match m.lookup key with
    | some _ => (.status (-1), m)
    | none => (.status 0, m.insert key value)
  | .delete key =>
    match m.lookup key with
    | some _ => (.status 0, m.erase key)
    | none => (.status (-1), m)
  | .find key => (.found (m.lookup key), m)

/-- The live records are the entries of the map. -/
def Holds (recs : List Record) (m : Dict) : Prop := ∀ key, lookup recs key = m.lookup key

theorem holds_iff {recs : List Record} (hs : Sorted recs) {m : Dict} :
    Holds recs m ↔ ∀ key value, ⟨key, false, value⟩ ∈ recs ↔ m.lookup key = some value := by
  simp only [Holds, ← hs.lookup_eq_some_iff]
  exact forall_congr' fun key => ⟨fun h value => by rw [h], fun h => Option.ext h⟩

/-- A call on the records is the call on the map. -/
theorem RecordsCall.dict {recs recs' : List Record} {call : Call} {r : Ret} {m : Dict}
    (h : RecordsCall recs call r recs') (hs : Sorted recs) (hm : Holds recs m) :
    r = (m.call call).1 ∧ Holds recs' (m.call call).2 := by
  have hs' := h.sorted hs
  cases h with
  | find key => exact ⟨congrArg Ret.found (hm key), hm⟩
  | @insertPresent key value h =>
    rw [hm, ← Option.isSome_iff_ne_none, Option.isSome_iff_exists] at h
    obtain ⟨v, hv⟩ := h
    simp only [Dict.call, hv]
    exact ⟨trivial, hm⟩
  | @insertAbsent key value h a b hr ha hb =>
    have hmem := (holds_iff hs).1 hm
    rw [hm] at h
    simp only [Dict.call, h]
    refine ⟨trivial, (holds_iff hs').2 fun k v => ?_⟩
    subst hr
    rcases eq_or_ne k key with rfl | hne
    · -- The new record is the only live one of its key.
      rw [Finmap.lookup_insert]
      have hno : ⟨k, false, v⟩ ∉ a ++ b := by simp [hmem, h]
      simp only [List.mem_append, not_or, List.mem_cons] at hno ⊢
      simp [hno, eq_comm]
    · rw [Finmap.lookup_insert_of_ne _ hne, ← hmem]
      simp [hne]
  | @deleteAbsent key h =>
    rw [hm] at h
    simp only [Dict.call, h]
    exact ⟨trivial, hm⟩
  | @deletePresent key h a b recs' r hr ha hkey hrecs' =>
    have hmem := (holds_iff hs).1 hm
    rw [hm, ← Option.isSome_iff_ne_none, Option.isSome_iff_exists] at h
    obtain ⟨w, hw⟩ := h
    simp only [Dict.call, hw]
    refine ⟨trivial, (holds_iff hs').2 fun k v => ?_⟩
    subst hr
    have hmem' : (⟨k, false, v⟩ : Record) ∈ recs' ↔ ⟨k, false, v⟩ ∈ a ++ b := by
      rcases hrecs' with rfl | rfl
      · simp [Record.mark]
      · rfl
    rw [hmem']
    rcases eq_or_ne k key with rfl | hne
    · -- The records before are of other keys, and those after logically deleted.
      rw [Finmap.lookup_erase]
      refine iff_of_false (fun hin => ?_) (by simp)
      rcases List.mem_append.1 hin with hin | hin
      · exact ha _ hin rfl
      · rcases (List.pairwise_cons.1 (List.pairwise_append.1 hs).2.1).1 _ hin with hlt | ⟨-, hdel⟩
        · exact hlt.ne hkey
        · exact Bool.false_ne_true hdel
    · rw [Finmap.lookup_erase_ne hne, ← hmem]
      have hr : (⟨k, false, v⟩ : Record) ≠ r := by
        rintro rfl
        exact hne hkey
      simp [hr]

/-! ### Tables that represent a map -/

/-- The table stores the tree, in order, and its records are those of the map. -/
structure Represents (t : Table) {H : ℕ} (T : PageTree H) (m : Dict) : Prop where
  stored : Stored t T
  shaped : Shaped T
  linked : Linked 0 (tips T)
  ordered : Ordered Leaf.keys ⊥ ⊤ T
  sorted : Sorted (records T)
  holds : Holds (records T) m

/-- The call purges nothing: if it inserts into a full leaf a key of no live
    record there, no record of that leaf is logically deleted. -/
def Table.PurgesNothing (t : Table) : Call → Prop
  | .insert key _ => ∀ leaf p, t.findLeaf key = .ok leaf → t.loadPage leaf = some p →
    leafMax ≤ p.numOfKeys →
    (∀ i < p.numOfKeys, (p.records i).key = key → (p.records i).logicalDel = true) →
    ∀ i < p.numOfKeys, (p.records i).logicalDel = false
  | _ => True

/-- The leaf of a call that purges nothing is clean. -/
theorem Stored.cleanLeaf {t : Table} {H : ℕ} {c : Ctx ℤ ℕ Leaf 0 H} {l : PageTree 0}
    (hT : Stored t (c.plug l)) (hs : Sorted l.data.recs) {call : Call}
    (hfind : t.findLeaf call.key = .ok (label l)) (hclean : t.PurgesNothing call) :
    CleanLeaf l.data call := by
  cases call with
  | insert key value =>
    intro hnone hfull x hx
    have hload := hT.sound.loadPage (hT.mem_offsets (label_mem_labels_plug c l))
    have hmem : ∀ {x}, x ∈ l.data.recs ↔ ∃ i < (t.disk.pages (label l)).numOfKeys,
        (t.disk.pages (label l)).records i = x := by
      rw [← hT.leaf.recs]
      exact mem_slots
    obtain ⟨i, hi, rfl⟩ := hmem.1 hx
    refine hclean _ _ hfind hload (hT.leaf.numOfKeys ▸ hfull) (fun j hj hkey => ?_) i hi
    exact hs.lookup_eq_none_iff.1 hnone _ (hmem.2 ⟨j, hj, rfl⟩) hkey
  | delete key => trivial
  | find key => trivial

namespace Represents

variable {t : Table} {H : ℕ} {T : PageTree H} {m : Dict}

/-- A call that purges nothing answers as the map does. -/
theorem call (hR : Represents t T m) {call : Call} (hclean : t.PurgesNothing call) :
    ∃ (t' : Table) (T' : Σ H', PageTree H'), t.call call = .ok ((m.call call).1, t') ∧
      RecordsCall (records T) call (m.call call).1 (records T'.2) ∧
      Represents t' T'.2 (m.call call).2 := by
  obtain ⟨c, l, r, t', T', rfl, hr, hfind, hcall, hstep, hT'⟩ :=
    call_stored hR.stored hR.shaped call
  have hleaf : Sorted l.data.recs := by
    refine hR.sorted.sublist ?_
    rw [records_plug]
    exact (List.sublist_append_right _ _).trans (List.sublist_append_left _ _)
  obtain ⟨hord, hrec⟩ := hstep.recordsCall hr hR.ordered hR.sorted
    (hR.stored.cleanLeaf hleaf hfind hclean)
  obtain ⟨rfl, hholds⟩ := hrec.dict hR.sorted hR.holds
  exact ⟨t', T', hcall, hrec, hT', hstep.shaped hR.shaped, hstep.linked hR.linked, hord,
    hrec.sorted hR.sorted, hholds⟩

/-- Nothing is purged while nothing is logically deleted. -/
theorem purgesNothing (hR : Represents t T m) (hlive : AllLive (records T)) (call : Call) :
    t.PurgesNothing call := by
  cases call with
  | insert key value =>
    intro leaf p hfind hload _ _ i hi
    obtain ⟨c, l, rfl, -, hfind'⟩ := findLeaf_stored hR.stored key
    obtain rfl : label l = leaf := by
      rw [hfind'] at hfind
      exact Except.ok.inj hfind
    have hload' := hR.stored.sound.loadPage (hR.stored.mem_offsets (label_mem_labels_plug c l))
    obtain rfl : p = t.disk.pages (label l) := Option.some.inj (hload.symm.trans hload')
    refine hlive _ ?_
    rw [records_plug]
    refine List.mem_append_left _ (List.mem_append_right _ ?_)
    rw [← hR.stored.leaf.recs]
    exact mem_slots.2 ⟨i, hi, rfl⟩
  | delete key => trivial
  | find key => trivial

end Represents

/-- The first insertion. -/
theorem represents_insert (key : ℤ) (value : Value) :
    ∃ (t : Table) (T : PageTree 0), freshTable.call (.insert key value) = .ok (.status 0, t) ∧
      Represents t T (Finmap.insert key value ∅) ∧ AllLive (records T) := by
  obtain ⟨t, ht, hT⟩ := startNewFile_stored key value
  have hsorted : Sorted [(⟨key, false, value⟩ : Record)] := List.pairwise_singleton _ _
  refine ⟨t, _, ht, ⟨hT, shaped_singleton _ _ _, ⟨rfl, trivial⟩, ?_, hsorted, ?_⟩, ?_⟩
  · exact fun k _ => ⟨bot_le, WithTop.coe_lt_top k⟩
  · refine (holds_iff hsorted).2 fun k v => ?_
    rcases eq_or_ne k key with rfl | hne
    · simp [Finmap.lookup_insert, eq_comm]
    · simp [Finmap.lookup_insert_of_ne _ hne, hne]
  · rintro r hr
    obtain rfl := List.mem_singleton.1 hr
    rfl

/-! ### Runs that purge nothing -/

/-- A run that starts with an insertion and never purges anything returns what
    the map does. -/
theorem run_dict (key : ℤ) (value : Value) (cs : List Call)
    (hclean : Along Table.call Table.PurgesNothing freshTable (.insert key value :: cs)) :
    ∃ t, run Table.call freshTable (.insert key value :: cs) =
      .ok ((runTotal Dict.call ∅ (.insert key value :: cs)).1, t) := by
  obtain ⟨t₁, T₁, ht₁, hR, -⟩ := represents_insert key value
  have hstep : ∀ t (m : Dict) call, (∃ H, ∃ T : PageTree H, Represents t T m) →
      t.PurgesNothing call → ∃ t', t.call call = .ok ((m.call call).1, t') ∧
        ∃ H, ∃ T : PageTree H, Represents t' T (m.call call).2 := by
    rintro t m call ⟨H, T, hR⟩ hclean
    obtain ⟨t', T', hcall, -, hR'⟩ := hR.call hclean
    exact ⟨t', hcall, _, T'.2, hR'⟩
  obtain ⟨t, ht, -⟩ := run_simulates hstep ⟨0, T₁, hR⟩ (hclean.2 _ _ ht₁)
  refine ⟨t, ?_⟩
  rw [run_cons_ok ht₁, ht]
  rfl

/-- A value of one byte. -/
def byteValue (b : UInt8) (h : 0 ∉ [b]) : Value := ⟨[b], by simp, h⟩

/-- Deleting the key of a single record and finding it. -/
theorem run_dict_delete : ∃ t, run Table.call freshTable
    [.insert 1 (byteValue 49 (by decide)), .delete 1, .find 1] =
      .ok ([.status 0, .status 0, .found none], t) := by
  have hclean : Along Table.call Table.PurgesNothing freshTable
      [.insert 1 (byteValue 49 (by decide)), .delete 1, .find 1] := by
    refine ⟨fun leaf p hfind hload => ?_, fun _ _ _ => ⟨trivial, fun _ _ _ => ⟨trivial, ?_⟩⟩⟩
    · -- A fresh table has no leaf.
      obtain rfl : 0 = leaf := Except.ok.inj hfind
      have hnone : freshTable.loadPage 0 = none := if_neg (by decide)
      rw [hnone] at hload
      cases hload
    · exact fun _ _ _ => trivial
  exact run_dict 1 (byteValue 49 (by decide)) [.delete 1, .find 1] hclean

/-- A run that purges a full leaf of two logical deletions. -/
def purgingCalls : List Call :=
  [.insert 2 (byteValue 50 (by decide)), .insert 3 (byteValue 51 (by decide)), .delete 1, .delete 2,
    .insert 4 (byteValue 52 (by decide)), .insert 5 (byteValue 53 (by decide)), .find 3]

/-- A purge loses the record of a key that was never deleted. -/
theorem purge_loses : ¬∀ key value cs, ∃ t, run Table.call freshTable (.insert key value :: cs) =
    .ok ((runTotal Dict.call ∅ (.insert key value :: cs)).1, t) := by
  intro h
  obtain ⟨t, ht⟩ := h 1 (byteValue 49 (by decide)) purgingCalls
  have hne : (results Table.call freshTable
      (.insert 1 (byteValue 49 (by decide)) :: purgingCalls)).toOption ≠
        some (runTotal Dict.call ∅ (.insert 1 (byteValue 49 (by decide)) :: purgingCalls)).1 := by
    decide +kernel
  exact hne (by rw [results, ht]; rfl)

/-! ### Runs without an insertion after a deletion -/

/-- Whether the call is an insertion, or a deletion. -/
def Call.isInsert : Call → Bool
  | .insert _ _ => true
  | _ => false
def Call.isDelete : Call → Bool
  | .delete _ => true
  | _ => false

/-- No insertion comes after a deletion. -/
def InsertsFirst (cs : List Call) : Prop :=
  cs.Pairwise fun a b => a.isDelete = true → b.isInsert = false

/-- The calls up to the first deletion, and from it on. -/
theorem InsertsFirst.split {cs : List Call} (h : InsertsFirst cs) :
    ∃ as bs, cs = as ++ bs ∧ (∀ c ∈ as, c.isDelete = false) ∧ ∀ c ∈ bs, c.isInsert = false := by
  induction cs with
  | nil => exact ⟨[], [], rfl, by simp, by simp⟩
  | cons c cs ih =>
    obtain ⟨hc, hcs⟩ := List.pairwise_cons.1 h
    cases hdel : c.isDelete with
    | true =>
      refine ⟨[], c :: cs, rfl, by simp, fun x hx => ?_⟩
      rcases List.mem_cons.1 hx with rfl | hx
      · cases x <;> simp_all [Call.isDelete, Call.isInsert]
      · exact hc x hx hdel
    | false =>
      obtain ⟨as, bs, rfl, has, hbs⟩ := ih hcs
      refine ⟨c :: as, bs, rfl, fun x hx => ?_, hbs⟩
      rcases List.mem_cons.1 hx with rfl | hx
      exacts [hdel, has x hx]

/-- The live records of a leaf page, as entries. -/
def Page.liveEntries (p : Page) : List (ℤ × Value) :=
  ((slots p.records p.numOfKeys).filter fun r => !r.logicalDel).map fun r => (r.key, r.value)

/-- The live records found along the chain of the leaves, from the leftmost. -/
def Table.liveEntries (t : Table) : Except Fault (List (ℤ × Value)) := do
  let first ← t.firstLeaf t.disk.size t.hp.rpo
  let chain ← t.leafChain t.disk.size first
  pure (chain.flatMap fun a => (t.disk.pages a).liveEntries)

/-- The pages form a tree in search order: the keys of a leaf strictly increase,
    those under the leftmost child of a page are smaller than its first key, and
    those under any other child at least its key and smaller than the next. -/
def InSearchOrder (t : Table) : Prop :=
  ∃ (H : ℕ) (T : PageTree H), t.hp.rpo = label T ∧ Rep t.disk.pages none T ∧
    SearchOrder Leaf.keys (fun l => l.keys.Pairwise (· < ·)) T

/-- The chain of the leaves holds the map, in strictly increasing order. -/
def ChainHolds (t : Table) (m : Dict) : Prop :=
  ∃ es, t.liveEntries = .ok es ∧ es.Pairwise (fun a b => a.1 < b.1) ∧
    ∀ key value, (key, value) ∈ es ↔ m.lookup key = some value

namespace Represents

variable {t : Table} {H : ℕ} {T : PageTree H} {m : Dict}

theorem inSearchOrder (hR : Represents t T m) (hs : StrictlySorted (records T)) :
    InSearchOrder t := by
  refine ⟨H, T, hR.stored.root, hR.stored.rep, hR.ordered.searchOrder fun l hl => ?_⟩
  exact List.pairwise_map.2 ((List.pairwise_flatMap.1 hs).1 l hl)

/-- The entries along the chain are the live records of the tree. -/
theorem liveEntries (hR : Represents t T m) :
    t.liveEntries = .ok (((records T).filter fun r => !r.logicalDel).map
      fun r => (r.key, r.value)) := by
  obtain ⟨hfirst, hchain⟩ := hR.stored.leafChain hR.linked
  rw [Table.liveEntries, hfirst, ok_bind, hchain, ok_bind, records, tipRecords, List.filter_flatMap,
    List.map_flatMap, List.flatMap_map]
  refine congrArg Except.ok (List.flatMap_congr fun l hl => ?_)
  obtain ⟨par, htip⟩ := hR.stored.rep.tip hl
  rw [Page.liveEntries, htip.recs]

theorem chainHolds (hR : Represents t T m) (hs : StrictlySorted (records T)) : ChainHolds t m := by
  refine ⟨_, hR.liveEntries, ?_, fun key value => ?_⟩
  · exact List.pairwise_map.2 (hs.sublist (List.filter_sublist))
  · rw [← (holds_iff hR.sorted).1 hR.holds]
    constructor
    · intro he
      obtain ⟨⟨k, d, v⟩, hr, heq⟩ := List.mem_map.1 he
      obtain ⟨rfl, rfl⟩ := Prod.mk.inj heq
      obtain ⟨hr, hlive⟩ := List.mem_filter.1 hr
      obtain rfl : d = false := by simpa using hlive
      exact hr
    · exact fun hr => List.mem_map.2 ⟨_, List.mem_filter.2 ⟨hr, rfl⟩, rfl⟩

end Represents

/-- In a run that starts with an insertion, and in which none comes after a
    deletion, every call answers as the map does, and after it the tree is in
    search order and the chain of its leaves holds the map. -/
theorem run_searchOrder (key : ℤ) (value : Value) (cs : List Call) (h : InsertsFirst cs) :
    ∃ t, run Table.call freshTable (.insert key value :: cs) =
        .ok ((runTotal Dict.call ∅ (.insert key value :: cs)).1, t) ∧
      InSearchOrder t ∧ ChainHolds t (runTotal Dict.call ∅ (.insert key value :: cs)).2 := by
  obtain ⟨as, bs, rfl, has, hbs⟩ := h.split
  obtain ⟨t₁, T₁, ht₁, hR₁, hl₁⟩ := represents_insert key value
  -- Up to the first deletion, nothing is logically deleted.
  have hfirst : ∀ t (m : Dict) call,
      (∃ H, ∃ T : PageTree H, Represents t T m ∧ AllLive (records T)) → call.isDelete = false →
      ∃ t', t.call call = .ok ((m.call call).1, t') ∧
        ∃ H, ∃ T : PageTree H, Represents t' T (m.call call).2 ∧ AllLive (records T) := by
    rintro t m call ⟨H, T, hR, hlive⟩ hdel
    obtain ⟨t', T', hcall, hrec, hR'⟩ := hR.call (hR.purgesNothing hlive call)
    refine ⟨t', hcall, _, T'.2, hR', hrec.allLive ?_ hlive⟩
    rintro k rfl
    exact Bool.false_ne_true hdel.symm
  -- From it on, nothing is inserted, so the keys remain strictly increasing.
  have hthen : ∀ t (m : Dict) call,
      (∃ H, ∃ T : PageTree H, Represents t T m ∧ StrictlySorted (records T)) →
      call.isInsert = false → ∃ t', t.call call = .ok ((m.call call).1, t') ∧
        ∃ H, ∃ T : PageTree H, Represents t' T (m.call call).2 ∧ StrictlySorted (records T) := by
    rintro t m call ⟨H, T, hR, hs⟩ hins
    have hclean : t.PurgesNothing call := by
      cases call with
      | insert key value => exact absurd hins (by simp [Call.isInsert])
      | delete key => trivial
      | find key => trivial
    obtain ⟨t', T', hcall, hrec, hR'⟩ := hR.call hclean
    refine ⟨t', hcall, _, T'.2, hR', hrec.strictlySorted ?_ hs⟩
    rintro k v rfl
    exact Bool.false_ne_true hins.symm
  obtain ⟨t₂, ht₂, H₂, T₂, hR₂, hl₂⟩ := run_simulates hfirst ⟨0, T₁, hR₁, hl₁⟩
    (along_of_forall fun _ c hc => has c hc)
  obtain ⟨t₃, ht₃, H₃, T₃, hR₃, hs₃⟩ := run_simulates hthen
    ⟨H₂, T₂, hR₂, hR₂.sorted.strictlySorted hl₂⟩ (along_of_forall fun _ c hc => hbs c hc)
  have htotal : runTotal Dict.call ∅ (.insert key value :: (as ++ bs)) =
      (.status 0 :: (runTotal Dict.call (Finmap.insert key value ∅) (as ++ bs)).1,
        (runTotal Dict.call (Finmap.insert key value ∅) (as ++ bs)).2) := rfl
  rw [htotal, runTotal_append]
  refine ⟨t₃, ?_, hR₃.inSearchOrder hs₃, hR₃.chainHolds hs₃⟩
  rw [run_cons_ok ht₁, run_append ht₂, ht₃]
  rfl

/-- Insertions in any order, then deletions. -/
theorem run_searchOrder_three : ∃ t, run Table.call freshTable
    [.insert 2 (byteValue 50 (by decide)), .insert 1 (byteValue 49 (by decide)), .delete 2,
      .find 1] =
        .ok ([.status 0, .status 0, .status 0, .found (some (byteValue 49 (by decide)))], t) ∧
      InSearchOrder t := by
  obtain ⟨t, ht, hs, -⟩ := run_searchOrder 2 (byteValue 50 (by decide))
    [.insert 1 (byteValue 49 (by decide)), .delete 2, .find 1] (by
      simp [InsertsFirst, Call.isInsert, Call.isDelete])
  refine ⟨t, ht.trans ?_, hs⟩
  have hmap : (runTotal Dict.call ∅ [.insert 2 (byteValue 50 (by decide)),
      .insert 1 (byteValue 49 (by decide)), .delete 2, .find 1]).1 =
        [.status 0, .status 0, .status 0, .found (some (byteValue 49 (by decide)))] := by
    decide +kernel
  rw [hmap]

end CourseProjects.BPlusTree
