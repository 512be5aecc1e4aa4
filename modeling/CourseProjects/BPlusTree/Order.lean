import CourseProjects.BPlusTree.Steps

/-!
# The records in order

All records of a tree, leaf after leaf (`records`), are sorted (`Sorted`): their
keys increase, and equal ones may follow each other if the later are logically
deleted. A call puts in, marks or takes out a record of that list
(`RecordsCall`): the leaf the search leads to is the one that has the key
between its bounds (`LeafCall.records`). An insertion into a full leaf is
excepted if there is something to purge in it (`CleanLeaf`).
-/

namespace CourseProjects.BPlusTree

open Slots Function PerfectTree

/-! ### Sorted records -/

/-- The keys increase; a record may have the key of the one before if it is
    logically deleted. -/
def Sorted (recs : List Record) : Prop :=
  recs.Pairwise fun a b => a.key < b.key ∨ a.key = b.key ∧ b.logicalDel = true

/-- The keys strictly increase. -/
def StrictlySorted (recs : List Record) : Prop := recs.Pairwise fun a b => a.key < b.key

/-- No record is logically deleted. -/
def AllLive (recs : List Record) : Prop := ∀ r ∈ recs, r.logicalDel = false

theorem StrictlySorted.sorted {recs : List Record} (h : StrictlySorted recs) : Sorted recs :=
  h.imp fun h => .inl h

theorem Sorted.strictlySorted {recs : List Record} (h : Sorted recs) (hlive : AllLive recs) :
    StrictlySorted recs := by
  refine List.Pairwise.imp_of_mem (fun _ hb hab => hab.resolve_right ?_) h
  rintro ⟨-, hdel⟩
  rw [hlive _ hb] at hdel
  exact Bool.false_ne_true hdel

/-- The keys do not decrease. -/
theorem Sorted.le {recs : List Record} (h : Sorted recs) :
    recs.Pairwise fun a b => a.key ≤ b.key := by
  refine h.imp fun hab => ?_
  rcases hab with hab | ⟨hab, -⟩
  exacts [hab.le, hab.le]

/-- A lookup in sorted records finds the live record of the key. -/
theorem Sorted.lookup_eq_some_iff {recs : List Record} (h : Sorted recs) {key : ℤ} {v : Value} :
    lookup recs key = some v ↔ ⟨key, false, v⟩ ∈ recs := by
  induction recs with
  | nil => simp [lookup]
  | cons r recs ih =>
    obtain ⟨hr, hrecs⟩ := List.pairwise_cons.1 h
    by_cases hkey : r.key = key
    · -- The first record of the key decides: later ones are logically deleted.
      have hlater : ⟨key, false, v⟩ ∉ recs := by
        intro hmem
        rcases hr _ hmem with hlt | ⟨-, hdel⟩
        · exact hlt.ne hkey
        · exact Bool.false_ne_true hdel
      have hlook : lookup (r :: recs) key = if r.logicalDel then none else some r.value := by
        rw [lookup, List.find?_cons_of_pos (by simpa using hkey)]
      obtain ⟨k, d, w⟩ := r
      simp only at hkey
      subst hkey
      rw [hlook, List.mem_cons]
      cases d <;> simp [hlater, eq_comm]
    · have hlook : lookup (r :: recs) key = lookup recs key := by
        rw [lookup, List.find?_cons_of_neg (by simpa using hkey), lookup]
      rw [hlook, ih hrecs, List.mem_cons]
      refine ⟨.inr, fun hmem => hmem.resolve_left ?_⟩
      rintro rfl
      exact hkey rfl

/-- A lookup in sorted records finds nothing if all records of the key are
    logically deleted. -/
theorem Sorted.lookup_eq_none_iff {recs : List Record} (h : Sorted recs) {key : ℤ} :
    lookup recs key = none ↔ ∀ r ∈ recs, r.key = key → r.logicalDel = true := by
  rw [Option.eq_none_iff_forall_ne_some]
  simp only [ne_eq, h.lookup_eq_some_iff]
  constructor
  · rintro hno ⟨k, d, v⟩ hr rfl
    cases d
    · exact absurd hr (hno v)
    · rfl
  · intro hall v hmem
    exact Bool.false_ne_true (hall _ hmem rfl)

/-- Records of other keys do not matter to a lookup. -/
theorem lookup_append_append {a recs b : List Record} {key : ℤ} (ha : ∀ r ∈ a, r.key ≠ key)
    (hb : ∀ r ∈ b, r.key ≠ key) : lookup (a ++ recs ++ b) key = lookup recs key := by
  have hfa : a.find? (fun r => r.key = key) = none := by simpa using ha
  have hfb : b.find? (fun r => r.key = key) = none := by simpa using hb
  rw [lookup, List.find?_append, List.find?_append, hfa, hfb, Option.none_or, Option.or_none, lookup]

/-! ### A call on the records -/

/-- A call changing a list of records. -/
inductive RecordsCall (recs : List Record) : Call → Ret → List Record → Prop
  | find (key : ℤ) : RecordsCall recs (.find key) (.found (lookup recs key)) recs
  | insertPresent {key : ℤ} {value : Value} (h : lookup recs key ≠ none) :
    RecordsCall recs (.insert key value) (.status (-1)) recs
  | insertAbsent {key : ℤ} {value : Value} (h : lookup recs key = none) {a b : List Record}
      (hr : recs = a ++ b) (ha : ∀ r ∈ a, r.key < key) (hb : ∀ r ∈ b, key ≤ r.key) :
    RecordsCall recs (.insert key value) (.status 0) (a ++ ⟨key, false, value⟩ :: b)
  | deleteAbsent {key : ℤ} (h : lookup recs key = none) :
    RecordsCall recs (.delete key) (.status (-1)) recs
  | deletePresent {key : ℤ} (h : lookup recs key ≠ none) {a b recs' : List Record} {r : Record}
      (hr : recs = a ++ r :: b) (ha : ∀ x ∈ a, x.key ≠ key) (hkey : r.key = key)
      (hrecs' : recs' = a ++ r.mark :: b ∨ recs' = a ++ b) :
    RecordsCall recs (.delete key) (.status 0) recs'

section RecordsCall

variable {recs recs' : List Record} {call : Call} {r : Ret}

/-- Calls keep the records sorted. -/
theorem RecordsCall.sorted (h : RecordsCall recs call r recs') (hs : Sorted recs) :
    Sorted recs' := by
  cases h with
  | find | insertPresent | deleteAbsent => exact hs
  | insertAbsent hnone hr ha hb =>
    have hdel := hs.lookup_eq_none_iff.1 hnone
    subst hr
    obtain ⟨hsa, hsb, hab⟩ := List.pairwise_append.1 hs
    refine List.pairwise_append.2 ⟨hsa, List.pairwise_cons.2 ⟨fun x hx => ?_, hsb⟩, ?_⟩
    · rcases (hb x hx).lt_or_eq with hlt | heq
      · exact .inl hlt
      · exact .inr ⟨heq, hdel x (List.mem_append_right _ hx) heq.symm⟩
    · intro x hx y hy
      rcases List.mem_cons.1 hy with rfl | hy
      exacts [.inl (ha x hx), hab x hx y hy]
  | deletePresent _ hr ha hkey hrecs' =>
    subst hr
    rcases hrecs' with rfl | rfl
    · obtain ⟨hsa, hsb, hab⟩ := List.pairwise_append.1 hs
      refine List.pairwise_append.2 ⟨hsa, List.pairwise_cons.2 (List.pairwise_cons.1 hsb), ?_⟩
      intro x hx y hy
      rcases List.mem_cons.1 hy with rfl | hy
      · exact (hab x hx _ List.mem_cons_self).imp_right fun h => ⟨h.1, rfl⟩
      · exact hab x hx y (List.mem_cons_of_mem _ hy)
    · exact hs.sublist (List.Sublist.append_left (List.sublist_cons_self _ _) _)

/-- Insertions and searches mark nothing. -/
theorem RecordsCall.allLive (h : RecordsCall recs call r recs')
    (hcall : ∀ key, call ≠ .delete key) (hl : AllLive recs) : AllLive recs' := by
  cases h with
  | find | insertPresent => exact hl
  | insertAbsent _ hr =>
    subst hr
    intro x hx
    rcases List.mem_append.1 hx with hx | hx
    · exact hl x (List.mem_append_left _ hx)
    · rcases List.mem_cons.1 hx with rfl | hx
      exacts [rfl, hl x (List.mem_append_right _ hx)]
  | deleteAbsent => exact absurd rfl (hcall _)
  | deletePresent => exact absurd rfl (hcall _)

/-- Deletions and searches keep the keys strictly increasing. -/
theorem RecordsCall.strictlySorted (h : RecordsCall recs call r recs')
    (hcall : ∀ key value, call ≠ .insert key value) (hs : StrictlySorted recs) :
    StrictlySorted recs' := by
  cases h with
  | find | deleteAbsent => exact hs
  | insertPresent => exact absurd rfl (hcall _ _)
  | insertAbsent => exact absurd rfl (hcall _ _)
  | deletePresent _ hr ha hkey hrecs' =>
    subst hr
    rcases hrecs' with rfl | rfl
    · obtain ⟨hsa, hsb, hab⟩ := List.pairwise_append.1 hs
      refine List.pairwise_append.2 ⟨hsa, List.pairwise_cons.2 (List.pairwise_cons.1 hsb), ?_⟩
      intro x hx y hy
      rcases List.mem_cons.1 hy with rfl | hy
      · have hlt := hab x hx _ List.mem_cons_self
        exact hlt
      · exact hab x hx y (List.mem_cons_of_mem _ hy)
    · exact hs.sublist (List.Sublist.append_left (List.sublist_cons_self _ _) _)

end RecordsCall

/-! ### The records of a tree -/

/-- The keys of a leaf. -/
def Leaf.keys (l : Leaf) : List ℤ := l.recs.map Record.key

/-- The records of some tips, and those of a tree, from left to right. -/
def tipRecords (ls : List (Tip ℕ Leaf)) : List Record := ls.flatMap fun l => l.data.recs
def records {h : ℕ} (T : PageTree h) : List Record := tipRecords (tips T)

theorem tipRecords_append (a b : List (Tip ℕ Leaf)) :
    tipRecords (a ++ b) = tipRecords a ++ tipRecords b := List.flatMap_append

theorem records_plug {H : ℕ} (c : Ctx ℤ ℕ Leaf 0 H) (l : PageTree 0) :
    records (c.plug l) = tipRecords c.pre ++ l.data.recs ++ tipRecords c.post := by
  rw [records, tips_plug, tipRecords_append, tipRecords_append]
  simp [tipRecords, tips]

theorem records_splitLeaf {H : ℕ} (c : Ctx ℤ ℕ Leaf 0 H) (l : PageTree 0) (recs : List Record)
    (key : ℤ) :
    records (splitLeaf c l recs key).2 = tipRecords c.pre ++ recs ++ tipRecords c.post := by
  rw [records, splitLeaf, tips_insertUp (by decide), tipRecords_append, tipRecords_append]
  simp [tipRecords, tips]

/-- The call does not purge the leaf of anything: it is not an insertion, or has
    room in the leaf, or the key is there, or nothing is logically deleted. -/
def CleanLeaf (l : Leaf) : Call → Prop
  | .insert key _ => lookup l.recs key = none → leafMax ≤ l.recs.length → AllLive l.recs
  | _ => True

section Ordered

variable {H : ℕ} {c : Ctx ℤ ℕ Leaf 0 H} {l : PageTree 0} {call : Call} {r : Ret}
  {T' : Σ H', PageTree H'}

/-- The tips around the hole hold smaller and greater keys. -/
theorem keys_around {cut max : ℕ} {next : ℕ → ℕ} {lo : WithBot ℤ} {hi : WithTop ℤ} {key : ℤ}
    (hfits : Fits Leaf.keys max cut next c lo hi) (hlo : lo ≤ key) (hhi : (key : WithTop ℤ) < hi) :
    (∀ x ∈ tipRecords c.pre, x.key < key) ∧ ∀ x ∈ tipRecords c.post, key < x.key := by
  constructor
  · intro x hx
    obtain ⟨l, hl, hx⟩ := List.mem_flatMap.1 hx
    exact WithBot.coe_lt_coe.1 ((hfits.pre l hl _ (List.mem_map_of_mem hx)).trans_le hlo)
  · intro x hx
    obtain ⟨l, hl, hx⟩ := List.mem_flatMap.1 hx
    exact WithTop.coe_lt_coe.1 (hhi.trans_le (hfits.post l hl _ (List.mem_map_of_mem hx)))

/-- A new record in its place in the leaf is in its place among all records. -/
theorem insertRecord_records {A B recs : List Record} {key : ℤ} (value : Value)
    (hs : Sorted (A ++ recs ++ B)) (hA : ∀ x ∈ A, x.key < key) (hB : ∀ x ∈ B, key < x.key)
    (hnone : lookup (A ++ recs ++ B) key = none) :
    RecordsCall (A ++ recs ++ B) (.insert key value) (.status 0)
      (A ++ insertRecord ⟨key, false, value⟩ recs ++ B) := by
  obtain ⟨a, b, hr, hins, ha, hb⟩ := insertRecord_eq_append ⟨key, false, value⟩ recs
  have hble : b.Pairwise fun x y => x.key ≤ y.key := by
    have hsub : b.Sublist (A ++ recs ++ B) := by
      rw [hr]
      exact ((List.sublist_append_right a b).trans (List.sublist_append_right A _)).trans
        (List.sublist_append_left _ B)
    exact hs.le.sublist hsub
  have hball : ∀ x ∈ b, key ≤ x.key := by
    cases b with
    | nil => exact fun x hx => absurd hx List.not_mem_nil
    | cons y b =>
      have hy : key ≤ y.key := hb y rfl
      intro x hx
      rcases List.mem_cons.1 hx with rfl | hx
      exacts [hy, hy.trans ((List.pairwise_cons.1 hble).1 x hx)]
  have hcall : RecordsCall (A ++ recs ++ B) (.insert key value) (.status 0)
      ((A ++ a) ++ ⟨key, false, value⟩ :: (b ++ B)) := by
    refine .insertAbsent hnone (by rw [hr]; simp) (fun x hx => ?_) fun x hx => ?_
    · rcases List.mem_append.1 hx with hx | hx
      exacts [hA x hx, ha x hx]
    · rcases List.mem_append.1 hx with hx | hx
      exacts [hball x hx, (hB x hx).le]
  rw [hins]
  simpa using hcall

/-- Cutting strictly sorted records between the bounds leaves two leaves with the
    key between them. -/
theorem ordered_cut {lo : WithBot ℤ} {hi : WithTop ℤ} {recs xs : List Record} {x : Record} {n : ℕ}
    (hn : 0 < n) (hs : StrictlySorted recs)
    (hrecs : ∀ x ∈ recs, lo ≤ x.key ∧ (x.key : WithTop ℤ) < hi) (hx : recs.drop n = x :: xs)
    (a b next next' : ℕ) :
    Ordered Leaf.keys (h := 0) lo x.key (⟨a, ⟨recs.take n, next⟩⟩ : Tip ℕ Leaf) ∧ lo < x.key ∧
      (x.key : WithTop ℤ) < hi ∧
      Ordered Leaf.keys (h := 0) x.key hi (⟨b, ⟨recs.drop n, next'⟩⟩ : Tip ℕ Leaf) := by
  have hcut : recs = recs.take n ++ x :: xs := by rw [← hx, List.take_append_drop]
  have hxmem : x ∈ recs := by
    rw [hcut]
    exact List.mem_append_right _ List.mem_cons_self
  have hpair := hs
  rw [StrictlySorted, hcut, List.pairwise_append, List.pairwise_cons] at hpair
  obtain ⟨-, ⟨hright, -⟩, hleft⟩ := hpair
  refine ⟨fun k hk => ?_, ?_, (hrecs x hxmem).2, fun k hk => ?_⟩
  · obtain ⟨y, hy, rfl⟩ := List.mem_map.1 hk
    exact ⟨(hrecs y (List.mem_of_mem_take hy)).1,
      WithTop.coe_lt_coe.2 (hleft y hy x List.mem_cons_self)⟩
  · -- A record of the left leaf lies between the bound and the key.
    obtain ⟨y, ys, hy⟩ : ∃ y ys, recs.take n = y :: ys := by
      refine List.exists_cons_of_ne_nil fun hnil => ?_
      rcases List.take_eq_nil_iff.1 hnil with h | h
      · exact hn.ne' h
      · rw [h] at hxmem
        exact List.not_mem_nil hxmem
    have hymem : y ∈ recs.take n := hy ▸ List.mem_cons_self
    exact (hrecs y (List.mem_of_mem_take hymem)).1.trans_lt
      (WithBot.coe_lt_coe.2 (hleft y hymem x List.mem_cons_self))
  · obtain ⟨y, hy, rfl⟩ := List.mem_map.1 hk
    have hy' : y ∈ recs.drop n := hy
    refine ⟨WithBot.coe_le_coe.2 ?_, (hrecs y (List.mem_of_mem_drop hy')).2⟩
    rw [hx] at hy'
    rcases List.mem_cons.1 hy' with rfl | hy'
    exacts [le_rfl, (hright y hy').le]

/-- A call keeps the tree ordered, and changes its records as a list. -/
theorem LeafCall.recordsCall (hstep : LeafCall c l call r T') (hr : c.Routed call.key)
    (ho : Ordered Leaf.keys ⊥ ⊤ (c.plug l)) (hs : Sorted (records (c.plug l)))
    (hclean : CleanLeaf l.data call) :
    Ordered Leaf.keys ⊥ ⊤ T'.2 ∧ RecordsCall (records (c.plug l)) call r (records T'.2) := by
  obtain ⟨key, hkey⟩ : ∃ key, call.key = key := ⟨_, rfl⟩
  rw [hkey] at hr
  obtain ⟨lo, hi, hfits, hl, hlo, hhi⟩ : ∃ lo hi,
      Fits Leaf.keys internalMax (cut internalMax) (· + sizeofPage) c lo hi ∧
      Ordered Leaf.keys lo hi l ∧ lo ≤ key ∧ (key : WithTop ℤ) < hi := hr.fits (by decide) ho
  obtain ⟨hA, hB⟩ := keys_around hfits hlo hhi
  rw [records_plug] at hs ⊢
  have hlook : lookup (tipRecords c.pre ++ l.data.recs ++ tipRecords c.post) key =
      lookup l.data.recs key :=
    lookup_append_append (fun x hx => (hA x hx).ne) fun x hx => (hB x hx).ne'
  -- The keys of the leaf, with the new one, lie between the bounds.
  have hbounds : ∀ value, ∀ x ∈ insertRecord ⟨key, false, value⟩ l.data.recs,
      lo ≤ x.key ∧ (x.key : WithTop ℤ) < hi := by
    intro value x hx
    rcases (List.mem_orderedInsert _).1 hx with rfl | hx
    exacts [⟨hlo, hhi⟩, hl _ (List.mem_map_of_mem hx)]
  have hord : ∀ {recs : List Record}, (∀ x ∈ recs, lo ≤ x.key ∧ (x.key : WithTop ℤ) < hi) →
      Ordered Leaf.keys ⊥ ⊤ (c.plug (⟨label l, ⟨recs, l.data.next⟩⟩ : Tip ℕ Leaf)) := by
    refine fun hrecs => hfits.plug _ fun k hk => ?_
    obtain ⟨x, hx, rfl⟩ := List.mem_map.1 hk
    exact hrecs x hx
  cases hstep with
  | find key' =>
    obtain rfl : key' = key := hkey
    rw [← hlook, records_plug]
    exact ⟨ho, .find key'⟩
  | @insertPresent key' value h =>
    obtain rfl : key' = key := hkey
    rw [records_plug]
    exact ⟨ho, .insertPresent (hlook ▸ h)⟩
  | @insertFits key' value h hlen =>
    obtain rfl : key' = key := hkey
    rw [records_plug]
    exact ⟨hord (hbounds value), insertRecord_records value hs hA hB (hlook.trans h)⟩
  | @insertSplits key' value h hlen recs xs x hrecs hx hlive =>
    obtain rfl : key' = key := hkey
    have hl' : AllLive l.data.recs := hclean h hlen
    obtain rfl := hlive hl'
    have hcall := insertRecord_records value hs hA hB (hlook.trans h)
    have hlive' : AllLive (insertRecord ⟨key', false, value⟩ l.data.recs) := by
      intro y hy
      rcases (List.mem_orderedInsert _).1 hy with rfl | hy
      exacts [rfl, hl' y hy]
    have hsorted : Sorted (insertRecord ⟨key', false, value⟩ l.data.recs) :=
      (hcall.sorted hs).sublist
        ((List.sublist_append_right _ _).trans (List.sublist_append_left _ _))
    obtain ⟨hleft, hlox, hxhi, hright⟩ := ordered_cut (by decide)
      (hsorted.strictlySorted hlive') (hbounds value) hx (label l)
      (pageOffset (labels (c.plug l)).length) (pageOffset (labels (c.plug l)).length) l.data.next
    refine ⟨hfits.insertUp _ _ _ _ hleft hlox hxhi hright, ?_⟩
    rw [records_splitLeaf]
    exact hcall
  | @deleteAbsent key' h =>
    obtain rfl : key' = key := hkey
    rw [records_plug]
    exact ⟨ho, .deleteAbsent (hlook.trans h)⟩
  | @deletePresent key' h =>
    obtain rfl : key' = key := hkey
    obtain ⟨a, r, b, hr', ha, hrkey, hrem⟩ := removeKey_eq_append (exists_of_lookup h)
    refine ⟨hord fun x hx => ?_, ?_⟩
    · -- The removal leaves no new key.
      have hx' : x.key ∈ (removeKey key' l.data.recs).map Record.key := List.mem_map_of_mem hx
      rw [keys_removeKey (exists_of_lookup h)] at hx'
      refine hl _ ?_
      split at hx'
      exacts [hx', List.mem_of_mem_erase hx']
    · rw [records_plug]
      refine .deletePresent (hlook ▸ h) (a := tipRecords c.pre ++ a) (r := r)
        (b := b ++ tipRecords c.post) (by rw [hr']; simp) (fun x hx => ?_) hrkey ?_
      · rcases List.mem_append.1 hx with hx | hx
        exacts [(hA x hx).ne, ha x hx]
      · simp only [hrem]
        split <;> simp

end Ordered

end CourseProjects.BPlusTree
