import CourseProjects.BPlusTree.FiniteMap
import CourseProjects.BPlusTree.Reopen

/-!
# The purge of a full leaf

Before an insertion into a full leaf, `db_insert` deletes the keys of the records of the
leaf that are logically deleted, to do without a split. It decides on the split with the
copy of the leaf that it read before, and a deletion takes the first record of the key.

* `purge_splits`: every such insertion splits the leaf.
* `purge_keepsLive_iff`: the leaves from which the purge takes no live record.
-/

namespace CourseProjects.BPlusTree

open Slots Function PerfectTree Run

/-! ### The tables with a root -/

/-- The tables that calls come to after the first insertion, in one process or several. -/
inductive Reached : Table → Prop
  | insert {key : ℤ} {value : Value} {r : Ret} {t : Table} :
    freshTable.call (.insert key value) = .ok (r, t) → Reached t
  | call {t t' : Table} {c : Call} {r : Ret} : Reached t → t.call c = .ok (r, t') → Reached t'
  | reopen {t : Table} : Reached t → Reached (openTable (some t.disk))

/-- Opening the table again keeps the invariant. -/
theorem Grown.openTable {t : Table} (hg : Grown t) : Grown (openTable (some t.disk)) := by
  obtain ⟨H, T, hT, hs, hl⟩ := hg
  have hroot : t.disk.header.rpo = label T := by rw [hT.sound.header, hT.root]
  have hload : t.loadPage t.disk.header.rpo = some (t.disk.pages (label T)) := by
    rw [hroot]
    exact hT.sound.loadPage (hT.mem_offsets (label_mem_labels T))
  have hhp : (BPlusTree.openTable (some t.disk)).hp = t.hp := hT.sound.header
  refine ⟨H, T, ⟨hT.rep, hroot, hT.labels, ⟨hT.sound.size, ?_, rfl, ?_, rfl⟩, _, hload, ?_⟩, hs, hl⟩
  · rw [hhp, hT.sound.numOfPages]
  · rw [hhp, hT.sound.fpo]
  · exact hT.rep.root_numOfKeys hs

theorem Reached.grown {t : Table} (ht : Reached t) : Grown t := by
  induction ht with
  | @insert key value r t h =>
    obtain ⟨t', h', hg⟩ := grown_insert key value
    cases h.symm.trans h'
    exact hg
  | @call t t' c r _ h ih =>
    obtain ⟨r', t'', h', hg, -⟩ := ih.call c
    cases h.symm.trans h'
    exact hg
  | reopen _ ih => exact ih.openTable

/-- A run that starts with an insertion. -/
theorem reached_of_run {key : ℤ} {value : Value} {cs : List Call} {rs : List Ret} {t : Table}
    (h : run Table.call freshTable (.insert key value :: cs) = .ok (rs, t)) : Reached t := by
  obtain ⟨t₁, ht₁, -⟩ := grown_insert key value
  have hrun : ∀ (cs : List Call) (t₁ : Table) rs, Reached t₁ →
      run Table.call t₁ cs = .ok (rs, t) → Reached t := by
    intro cs
    induction cs with
    | nil =>
      intro t₁ rs h₁ h
      cases h
      exact h₁
    | cons c cs ih =>
      intro t₁ rs h₁ h
      rcases hc : t₁.call c with e | ⟨r, t₂⟩
      · rw [run_cons_error hc] at h
        cases h
      · rw [run_cons_ok hc] at h
        rcases hr : run Table.call t₂ cs with e | ⟨rs', t₃⟩
        · rw [hr] at h
          cases h
        · rw [hr] at h
          cases h
          exact ih t₂ rs' (.call h₁ hc) hr
  rw [run_cons_ok ht₁] at h
  rcases hr : run Table.call t₁ cs with e | ⟨rs', t₃⟩
  · rw [hr] at h
    cases h
  · rw [hr] at h
    cases h
    exact hrun cs t₁ rs' (.insert ht₁) hr

/-! ### The split -/

/-- The records of a leaf page. -/
def Page.recs (p : Page) : List Record := slots p.records p.numOfKeys

/-- What an insertion that avoids the split does: it allocates no page, leaves the other pages
    as they are, and the leaf has its live records and the new one, in the order of their keys. -/
structure AvoidsSplit (t : Table) (leaf : ℕ) (p : Page) (r : Record) (t' : Table) : Prop where
  numOfPages : t'.hp.numOfPages = t.hp.numOfPages
  pages : ∀ a, a ≠ leaf → t'.disk.pages a = t.disk.pages a
  recs : (t'.disk.pages leaf).recs = insertRecord r (p.recs.filter fun x => !x.logicalDel)

/-- An insertion into a full leaf takes a page from the allocator. -/
theorem numOfPages_lt {t t' : Table} (hg : Grown t) {key : ℤ} {value : Value} {leaf : ℕ} {p : Page}
    {r : Ret} (hfind : t.dbFind key = .ok none) (hleaf : t.findLeaf key = .ok leaf)
    (hp : t.loadPage leaf = some p) (hfull : leafMax ≤ p.numOfKeys)
    (h : t.call (.insert key value) = .ok (r, t')) : t.hp.numOfPages < t'.hp.numOfPages := by
  obtain ⟨H, T, hT, hs, -⟩ := hg
  obtain ⟨c, l, r', t'', T', rfl, -, hl, hcall, hstep, hT'⟩ := call_stored hT hs (.insert key value)
  cases h.symm.trans hcall
  obtain rfl : label l = leaf := Except.ok.inj (hl.symm.trans hleaf)
  have hnone : lookup l.data.recs key = none :=
    Except.ok.inj ((dbFind_stored hT hl).symm.trans hfind)
  have hload := hT.sound.loadPage (hT.mem_offsets (label_mem_labels_plug c l))
  obtain rfl : p = t.disk.pages (label l) := Option.some.inj (hp.symm.trans hload)
  rw [hT.leaf.numOfKeys] at hfull
  rw [hT.sound.numOfPages, hT'.sound.numOfPages, Nat.succ_lt_succ_iff]
  cases hstep with
  | insertPresent hpresent => exact absurd hnone hpresent
  | insertFits _ hfits => exact absurd hfull (Nat.not_le.2 hfits)
  | insertSplits =>
    refine lt_of_lt_of_le ?_ (length_labels_insertUp (by decide) c _ _ _ _)
    rw [(labels_plug c l).length_eq, List.length_append]
    simp [PerfectTree.labels]

/-- An insertion that purges a full leaf splits it all the same. -/
theorem purge_splits {t : Table} (ht : Reached t) {key : ℤ} (value : Value) {leaf : ℕ} {p : Page}
    (hfind : t.dbFind key = .ok none) (hleaf : t.findLeaf key = .ok leaf)
    (hp : t.loadPage leaf = some p) (hfull : p.numOfKeys = leafMax)
    (_hdel : ∃ r ∈ p.recs, r.logicalDel = true) :
    ¬ ∃ t', t.call (.insert key value) = .ok (.status 0, t') ∧
      AvoidsSplit t leaf p ⟨key, false, value⟩ t' := by
  rintro ⟨t', h, havoid⟩
  exact (numOfPages_lt ht.grown hfind hleaf hp hfull.ge h).ne' havoid.numOfPages

theorem zero_ne_fifty : (0 : UInt8) ∉ [(50 : UInt8)] := by decide

theorem zero_ne_fiftyOne : (0 : UInt8) ∉ [(51 : UInt8)] := by decide

theorem zero_ne_fiftyTwo : (0 : UInt8) ∉ [(52 : UInt8)] := by decide

/-- A leaf of three records, of which the first is logically deleted. -/
def tombstoneCalls : List Call :=
  [.insert 2 (byteValue 50 zero_ne_fifty), .insert 3 (byteValue 51 zero_ne_fiftyOne),
    .delete 1, .delete 2, .insert 4 (byteValue 52 zero_ne_fiftyTwo)]

/-- A full leaf of which a property holds, after a run. -/
theorem exists_reached (P : Table → ℕ → Page → Prop) (key : ℤ) (value : Value) (cs : List Call)
    (k : ℤ)
    (h : ∃ x ∈ (run Table.call freshTable (.insert key value :: cs)).toOption,
      x.2.dbFind k = .ok none ∧ ∃ leaf ∈ (x.2.findLeaf k).toOption,
        ∃ p ∈ x.2.loadPage leaf, p.numOfKeys = leafMax ∧ P x.2 leaf p) :
    ∃ t leaf p, Reached t ∧ t.dbFind k = .ok none ∧ t.findLeaf k = .ok leaf ∧
      t.loadPage leaf = some p ∧ p.numOfKeys = leafMax ∧ P t leaf p := by
  obtain ⟨⟨rs, t⟩, ht, hfind, leaf, hleaf, p, hp, hfull, hP⟩ := h
  exact ⟨t, leaf, p, reached_of_run (eq_ok_of_toOption ht), hfind, eq_ok_of_toOption hleaf, hp,
    hfull, hP⟩

theorem exists_tombstone : ∃ t leaf p, Reached t ∧ t.dbFind 5 = .ok none ∧
    t.findLeaf 5 = .ok leaf ∧ t.loadPage leaf = some p ∧ p.numOfKeys = leafMax ∧
    ∃ r ∈ p.recs, r.logicalDel = true :=
  exists_reached (fun _ _ p => ∃ r ∈ p.recs, r.logicalDel = true) 1 (byteValue 49 (by decide))
    tombstoneCalls 5 (by decide +kernel)

theorem purge_splits_tombstone : ∃ t leaf p, Reached t ∧ ¬ ∃ t',
    t.call (.insert 5 (byteValue 53 (by decide))) = .ok (.status 0, t') ∧
      AvoidsSplit t leaf p ⟨5, false, byteValue 53 (by decide)⟩ t' := by
  obtain ⟨t, leaf, p, ht, hfind, hleaf, hp, hfull, hdel⟩ := exists_tombstone
  exact ⟨t, leaf, p, ht, purge_splits ht _ hfind hleaf hp hfull hdel⟩

/-- A page is allocated for a leaf that had room after the purge. -/
theorem purge_allocates : ¬ ∀ (t : Table) (key : ℤ) (value : Value) (leaf : ℕ) (p : Page),
    Reached t → t.dbFind key = .ok none → t.findLeaf key = .ok leaf →
    t.loadPage leaf = some p → p.numOfKeys = leafMax → (∃ r ∈ p.recs, r.logicalDel = true) →
    ∃ t', t.call (.insert key value) = .ok (.status 0, t') ∧
      AvoidsSplit t leaf p ⟨key, false, value⟩ t' := by
  intro h
  obtain ⟨t, leaf, p, ht, hfind, hleaf, hp, hfull, hdel⟩ := exists_tombstone
  obtain ⟨t', ht', havoid⟩ :=
    h t 5 (byteValue 53 (by decide)) leaf p ht hfind hleaf hp hfull hdel
  exact (numOfPages_lt ht.grown hfind hleaf hp hfull.ge ht').ne' havoid.numOfPages

/-! ### The records that are lost -/

/-- A live record of the key and the value. -/
def HasLive (recs : List Record) (key : ℤ) (value : Value) : Prop := ⟨key, false, value⟩ ∈ recs

instance (recs : List Record) (key : ℤ) (value : Value) : Decidable (HasLive recs key value) :=
  inferInstanceAs (Decidable (_ ∈ recs))

/-- A live record that stands before a tombstone of its key is there once more. -/
def Spared (recs : List Record) : Prop :=
  ∀ i j : Fin recs.length, i < j → (recs.get j).logicalDel = true →
    (recs.get i).logicalDel = false → (recs.get i).key = (recs.get j).key →
    ∃ i', i' ≠ i ∧ recs.get i' = recs.get i

instance : DecidablePred Spared := fun recs =>
  inferInstanceAs (Decidable (∀ i j : Fin recs.length, i < j → _))

theorem spared_three (a b c : Record) : Spared [a, b, c] ↔
    (b.logicalDel = true → a.logicalDel = false → a.key = b.key → c = a) ∧
    (c.logicalDel = true → a.logicalDel = false → a.key = c.key → b = a) ∧
    (c.logicalDel = true → b.logicalDel = false → b.key = c.key → a = b) := by
  rw [Spared]
  change (∀ i j : Fin 3, i < j → _) ↔ _
  simp [Fin.forall_fin_succ, Fin.exists_fin_succ]
  -- A tombstone is no live record.
  grind

/-- Removing a key from three records. -/
theorem removeKey_three (k : ℤ) (a b c : Record) :
    removeKey k [a, b, c] = if a.key = k then [b, c] else if b.key = k then [a, c]
      else if c.key = k then [a, b] else [a, b, c] := by
  have hcut : cut leafMax = 2 := rfl
  by_cases ha : a.key = k
  · simp [removeKey, hcut, List.findIdx_cons, ha]
  by_cases hb : b.key = k
  · simp [removeKey, hcut, List.findIdx_cons, ha, hb]
  by_cases hc : c.key = k
  · simp [removeKey, hcut, List.findIdx_cons, ha, hb, hc]
  · simp [removeKey, hcut, List.findIdx_cons, ha, hb, hc]

theorem removeKey_two (k : ℤ) (a b : Record) :
    removeKey k [a, b] = if a.key = k then [a.mark, b] else if b.key = k then [a, b.mark]
      else [a, b] := by
  have hcut : cut leafMax = 2 := rfl
  by_cases ha : a.key = k
  · simp [removeKey, hcut, List.findIdx_cons, ha]
  by_cases hb : b.key = k
  · simp [removeKey, hcut, List.findIdx_cons, ha, hb]
  · simp [removeKey, hcut, List.findIdx_cons, ha, hb]

/-- Removing a key brings no live record about. -/
theorem mem_of_removeKey {k : ℤ} {recs : List Record} {x : Record} (hlive : x.logicalDel = false)
    (h : x ∈ removeKey k recs) : x ∈ recs := by
  rw [removeKey] at h
  split at h
  · obtain ⟨i, hi, rfl⟩ := List.mem_iff_getElem.1 h
    rw [List.getElem_modify] at hlive ⊢
    split at hlive
    · simp [Record.mark] at hlive
    · rename_i hne
      rw [if_neg hne]
      exact List.getElem_mem _
  · exact List.mem_of_mem_eraseIdx h

theorem mem_of_removeKeys {ks : List ℤ} {recs : List Record} {x : Record}
    (hlive : x.logicalDel = false) (h : x ∈ removeKeys ks recs) : x ∈ recs := by
  induction ks generalizing recs with
  | nil => exact h
  | cons k ks ih => exact mem_of_removeKey hlive (ih h)

/-- The purge takes no live record exactly if none stands in the way of a tombstone. -/
theorem purgeRecords_keepsLive {recs : List Record} (hlen : recs.length = leafMax) :
    (∀ key value, HasLive (purgeRecords recs) key value ↔ HasLive recs key value) ↔
      Spared recs := by
  have hkeep : (∀ key value, HasLive (purgeRecords recs) key value ↔ HasLive recs key value) ↔
      ∀ x ∈ recs, x.logicalDel = false → x ∈ purgeRecords recs := by
    constructor
    · rintro h ⟨k, d, v⟩ hx rfl
      exact (h k v).2 hx
    · exact fun h k v => ⟨mem_of_removeKeys rfl, fun hx => h _ hx rfl⟩
  obtain ⟨a, b, c, rfl⟩ := List.length_eq_three.1 hlen
  rw [hkeep, spared_three]
  obtain ⟨ka, da, va⟩ := a
  obtain ⟨kb, db, vb⟩ := b
  obtain ⟨kc, dc, vc⟩ := c
  -- By the keys that agree, and the records that are logically deleted.
  by_cases hab : ka = kb <;> by_cases hac : ka = kc <;> by_cases hbc : kb = kc <;>
    cases da <;> cases db <;> cases dc <;>
    simp [purgeRecords, removeKeys, removeKey_three, removeKey_two, Record.mark, hab, hac, hbc]
  all_goals grind [removeKey_two, Record.mark]

/-- The purge of a full leaf takes no live record exactly if none stands in the way of a
    tombstone. -/
theorem purge_keepsLive_iff {t : Table} (ht : Reached t) {key : ℤ} {leaf : ℕ} {p : Page}
    (hleaf : t.findLeaf key = .ok leaf) (hp : t.loadPage leaf = some p)
    (hfull : leafMax ≤ p.numOfKeys) :
    (∃ t' p', t.purge leaf p = .ok t' ∧ t'.loadPage leaf = some p' ∧
      ∀ key value, HasLive p'.recs key value ↔ HasLive p.recs key value) ↔ Spared p.recs := by
  obtain ⟨H, T, hT, hs, -⟩ := ht.grown
  obtain ⟨c, l, rfl, -, hl⟩ := findLeaf_stored hT key
  obtain rfl : label l = leaf := Except.ok.inj (hl.symm.trans hleaf)
  have hload := hT.sound.loadPage (hT.mem_offsets (label_mem_labels_plug c l))
  obtain rfl : p = t.disk.pages (label l) := Option.some.inj (hp.symm.trans hload)
  have hok : leafOk c.parent.isNone l.data := (sized_plug.1 hs).2
  obtain ⟨t', ht', hT', -⟩ := hT.purge hok
  have hrecs : (t.disk.pages (label l)).recs = l.data.recs := hT.leaf.recs
  have hrecs' : (t'.disk.pages (label l)).recs = purgeRecords l.data.recs := hT'.leaf.recs
  have hload' : t'.loadPage (label l) = some (t'.disk.pages (label l)) :=
    hT'.sound.loadPage (hT'.mem_offsets
      (label_mem_labels_plug c (⟨label l, ⟨purgeRecords l.data.recs, l.data.next⟩⟩ : Tip ℕ Leaf)))
  have hlen : l.data.recs.length = leafMax :=
    Nat.le_antisymm hok.2 (hT.leaf.numOfKeys ▸ hfull)
  rw [hrecs, ← purgeRecords_keepsLive hlen, ← hrecs']
  constructor
  · rintro ⟨t'', p', h, hp', hkeep⟩
    cases ht'.symm.trans h
    cases hload'.symm.trans hp'
    exact hkeep
  · exact fun hkeep => ⟨t', _, ht', hload', hkeep⟩

theorem purge_keepsLive_tombstone : ∃ t leaf p t' p', Reached t ∧ t.findLeaf 5 = .ok leaf ∧
    t.purge leaf p = .ok t' ∧ t'.loadPage leaf = some p' ∧
    ∀ key value, HasLive p'.recs key value ↔ HasLive p.recs key value := by
  obtain ⟨t, leaf, p, ht, -, hleaf, hp, hfull, hspared⟩ :
      ∃ t leaf p, Reached t ∧ t.dbFind 5 = .ok none ∧ t.findLeaf 5 = .ok leaf ∧
        t.loadPage leaf = some p ∧ p.numOfKeys = leafMax ∧ Spared p.recs :=
    exists_reached (fun _ _ p => Spared p.recs) 1 (byteValue 49 (by decide)) tombstoneCalls 5
      (by decide +kernel)
  obtain ⟨t', p', h, hp', hkeep⟩ := (purge_keepsLive_iff ht hleaf hp hfull.ge).2 hspared
  exact ⟨t, leaf, p, t', p', ht, hleaf, h, hp', hkeep⟩

/-- A key that was deleted, and inserted again. -/
def insertAgainCalls : List Call :=
  [.insert 2 (byteValue 50 zero_ne_fifty), .delete 1,
    .insert 1 (byteValue 52 zero_ne_fiftyTwo)]

/-- The purge takes the live record of a key that was inserted again, and leaves the old one. -/
theorem purge_takesLive : ¬ ∀ (t : Table) (key : ℤ) (leaf : ℕ) (p : Page), Reached t →
    t.dbFind key = .ok none → t.findLeaf key = .ok leaf → t.loadPage leaf = some p →
    p.numOfKeys = leafMax → ∃ t' p', t.purge leaf p = .ok t' ∧ t'.loadPage leaf = some p' ∧
      ∀ key value, HasLive p'.recs key value ↔ HasLive p.recs key value := by
  intro h
  obtain ⟨t, leaf, p, ht, hfind, hleaf, hp, hfull, t₁, ht₁, p₁, hp₁, k, v, hlive, hno⟩ :
      ∃ t leaf p, Reached t ∧ t.dbFind 3 = .ok none ∧ t.findLeaf 3 = .ok leaf ∧
        t.loadPage leaf = some p ∧ p.numOfKeys = leafMax ∧
        ∃ t₁, t.purge leaf p = .ok t₁ ∧ ∃ p₁, t₁.loadPage leaf = some p₁ ∧
          ∃ k v, HasLive p.recs k v ∧ ¬ HasLive p₁.recs k v := by
    have hex := exists_reached (fun t leaf p => ∃ t₁ ∈ (t.purge leaf p).toOption,
      ∃ p₁ ∈ t₁.loadPage leaf, HasLive p.recs 1 (byteValue 52 (by decide)) ∧
        ¬ HasLive p₁.recs 1 (byteValue 52 (by decide))) 1 (byteValue 49 (by decide))
      insertAgainCalls 3 (by decide +kernel)
    obtain ⟨t, leaf, p, ht, hfind, hleaf, hp, hfull, t₁, ht₁, p₁, hp₁, hlive, hno⟩ := hex
    exact ⟨t, leaf, p, ht, hfind, hleaf, hp, hfull, t₁, eq_ok_of_toOption ht₁, p₁, hp₁, _, _,
      hlive, hno⟩
  obtain ⟨t', p', ht', hp', hkeep⟩ := h t 3 leaf p ht hfind hleaf hp hfull
  cases ht₁.symm.trans ht'
  cases hp₁.symm.trans hp'
  exact hno ((hkeep k v).2 hlive)

end CourseProjects.BPlusTree
