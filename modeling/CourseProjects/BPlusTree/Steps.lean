import CourseProjects.BPlusTree.Leaves

/-!
# A call on a stored tree

In a table storing a tree of allowed sizes (`Shaped`), a call never faults: it
goes down to a leaf, changes it or splits it (`LeafCall`), and the table then
stores the resulting tree (`call_stored`). The first insertion into a fresh table
stores a tree of a single leaf (`startNewFile_stored`).

Every call keeps the sizes (`LeafCall.shaped`), and the number of pages never
decreases (`LeafCall.length_labels_le`).
-/

namespace CourseProjects.BPlusTree

open Slots Function PerfectTree

/-- The sizes of the pages: a root leaf has from `1` to `LEAF_MAX` records, any
    other from half of them on, and a root page from `1` to `INTERNAL_MAX` keys,
    any other from half of them on. -/
def Shaped {H : ℕ} (T : PageTree H) : Prop :=
  Sized leafOk (cut internalMax) internalMax none T

/-- The key of a call. -/
def Call.key : Call → ℤ
  | .insert key _ => key
  | .delete key => key
  | .find key => key

/-- A call changing the leaf `l` in the hole of `c`: what it returns, and the
    tree it leaves. -/
inductive LeafCall {H : ℕ} (c : Ctx ℤ ℕ Leaf 0 H) (l : PageTree 0) :
    Call → Ret → (Σ H', PageTree H') → Prop
  | find (key : ℤ) :
    LeafCall c l (.find key) (.found (lookup l.data.recs key)) ⟨H, c.plug l⟩
  | insertPresent {key : ℤ} {value : Value} (h : lookup l.data.recs key ≠ none) :
    LeafCall c l (.insert key value) (.status (-1)) ⟨H, c.plug l⟩
  | insertFits {key : ℤ} {value : Value} (h : lookup l.data.recs key = none)
      (hlen : l.data.recs.length < leafMax) :
    LeafCall c l (.insert key value) (.status 0)
      ⟨H, c.plug (⟨label l, ⟨insertRecord ⟨key, false, value⟩ l.data.recs, l.data.next⟩⟩ : Tip ℕ Leaf)⟩
  | insertSplits {key : ℤ} {value : Value} (h : lookup l.data.recs key = none)
      (hlen : leafMax ≤ l.data.recs.length) {recs xs : List Record} {x : Record}
      (hrecs : recs.length = leafMax + 1)
      (hx : recs.drop (cut leafMax) = x :: xs)
      (hlive : (∀ r ∈ l.data.recs, r.logicalDel = false) →
        recs = insertRecord ⟨key, false, value⟩ l.data.recs) :
    LeafCall c l (.insert key value) (.status 0) (splitLeaf c l recs x.key)
  | deleteAbsent {key : ℤ} (h : lookup l.data.recs key = none) :
    LeafCall c l (.delete key) (.status (-1)) ⟨H, c.plug l⟩
  | deletePresent {key : ℤ} (h : lookup l.data.recs key ≠ none) :
    LeafCall c l (.delete key) (.status 0)
      ⟨H, c.plug (⟨label l, ⟨removeKey key l.data.recs, l.data.next⟩⟩ : Tip ℕ Leaf)⟩

/-- A key that is looked up is the key of a record. -/
theorem exists_of_lookup {recs : List Record} {key : ℤ} (h : lookup recs key ≠ none) :
    ∃ r ∈ recs, r.key = key := by
  rw [lookup] at h
  cases hf : recs.find? fun r => r.key = key with
  | none =>
    rw [hf] at h
    exact absurd rfl h
  | some r => exact ⟨r, List.mem_of_find?_eq_some hf, by simpa using List.find?_some hf⟩

/-- The split depends on the leaf through its place and its successor only. -/
theorem splitLeaf_congr {H : ℕ} (c : Ctx ℤ ℕ Leaf 0 H) (l : PageTree 0) (recs recs' : List Record)
    (key : ℤ) :
    splitLeaf c (⟨label l, ⟨recs', l.data.next⟩⟩ : Tip ℕ Leaf) recs key =
      splitLeaf c l recs key := by
  have hlen : (labels (c.plug (⟨label l, ⟨recs', l.data.next⟩⟩ : Tip ℕ Leaf))).length =
      (labels (c.plug l)).length :=
    ((labels_plug c (⟨label l, ⟨recs', l.data.next⟩⟩ : Tip ℕ Leaf)).trans
      (labels_plug c l).symm).length_eq
  rw [splitLeaf, hlen]
  rfl

section Step

variable {t : Table} {H : ℕ} {c : Ctx ℤ ℕ Leaf 0 H} {l : PageTree 0}

/-- `db_insert`, at the leaf that `find_leaf` finds. -/
theorem dbInsert_stored (hT : Stored t (c.plug l)) (hs : Shaped (c.plug l)) {key : ℤ}
    (hfind : t.findLeaf key = .ok (label l)) (value : Value) :
    ∃ r t' T', t.call (.insert key value) = .ok (r, t') ∧
      LeafCall c l (.insert key value) r T' ∧ Stored t' T'.2 := by
  obtain ⟨hc, hl⟩ := sized_plug.1 hs
  have hl : leafOk c.parent.isNone l.data := hl
  obtain ⟨rt, hrt, -⟩ := hT.rooted
  have hnum := hT.leaf.numOfKeys
  simp only [Table.call, Table.dbInsert, hrt, Option.isNone_some, Bool.false_eq_true, if_false,
    dbFind_stored hT hfind, ok_bind]
  cases hfound : lookup l.data.recs key with
  | some v => exact ⟨_, _, _, rfl, .insertPresent (by simp [hfound]), hT⟩
  | none =>
    simp only [Option.isSome_none, Bool.false_eq_true, if_false, hfind, ok_bind, hT.leaf_page,
      hnum]
    by_cases hroom : l.data.recs.length < leafMax
    · obtain ⟨t', ht', hT'⟩ := hT.insertIntoLeaf ⟨key, false, value⟩
      rw [if_neg (Nat.not_le.2 hroom), pure_eq_ok, ok_bind, if_pos hroom, ht']
      exact ⟨_, _, _, rfl, .insertFits hfound hroom, hT'⟩
    · -- The leaf is purged, then split: what is certain is that it had no tombstone, or not.
      obtain ⟨t₁, ht₁, hT₁, hl₁⟩ := hT.purge hl
      obtain ⟨x, xs, t', hx, ht', hT'⟩ := hT₁.insertIntoLeafAs hc ⟨key, false, value⟩
      rw [splitLeaf_congr] at hT'
      rw [if_pos (Nat.not_lt.1 hroom), ht₁, ok_bind, if_neg hroom]
      have ht'' : t₁.insertIntoLeafAs (label l) ⟨key, false, value⟩ = .ok t' := ht'
      rw [ht'']
      refine ⟨_, _, _, rfl, .insertSplits hfound (Nat.not_lt.1 hroom)
        (length_splitRecords _ _) hx fun h => ?_, hT'⟩
      have hlive := purgeRecords_of_live h
      have hfull : (purgeRecords l.data.recs).length = leafMax := by
        rw [hlive]
        exact Nat.le_antisymm hl.2 (Nat.not_lt.1 hroom)
      rw [← hlive]
      exact splitRecords_full hT₁.leaf hfull _

/-- `db_delete`, at the leaf that `find_leaf` finds. -/
theorem dbDelete_stored (hT : Stored t (c.plug l)) (hs : Shaped (c.plug l)) {key : ℤ}
    (hfind : t.findLeaf key = .ok (label l)) :
    ∃ r t' T', t.call (.delete key) = .ok (r, t') ∧ LeafCall c l (.delete key) r T' ∧
      Stored t' T'.2 := by
  obtain ⟨rt, hrt, hpos⟩ := hT.rooted
  simp only [Table.call, Table.dbDelete, hrt, hpos.ne', if_false, dbFind_stored hT hfind, ok_bind]
  cases hfound : lookup l.data.recs key with
  | none => exact ⟨_, _, _, rfl, .deleteAbsent hfound, hT⟩
  | some v =>
    have hne : lookup l.data.recs key ≠ none := by simp [hfound]
    have hsize : 0 < t.disk.size := by
      rw [hT.sound.size, pageOffset_eq]
      omega
    obtain ⟨t', ht', hT'⟩ :=
      hT.deleteEntry (exists_of_lookup hne) (sized_plug.1 hs).2 hsize
    simp only [Option.isNone_some, Bool.false_eq_true, if_false, hfind, ok_bind, ht']
    exact ⟨_, _, _, rfl, .deletePresent hne, hT'⟩

/-- A call on a table storing a tree changes the leaf that `find_leaf` finds. -/
theorem call_stored {T : PageTree H} (hT : Stored t T) (hs : Shaped T) (call : Call) :
    ∃ (c : Ctx ℤ ℕ Leaf 0 H) (l : PageTree 0) (r : Ret) (t' : Table) (T' : Σ H', PageTree H'),
      c.plug l = T ∧ c.Routed call.key ∧ t.findLeaf call.key = .ok (label l) ∧
      t.call call = .ok (r, t') ∧ LeafCall c l call r T' ∧ Stored t' T'.2 := by
  obtain ⟨c, l, rfl, hr, hfind⟩ := findLeaf_stored hT call.key
  cases call with
  | insert key value =>
    obtain ⟨r, t', T', h⟩ := dbInsert_stored hT hs hfind value
    exact ⟨c, l, r, t', T', rfl, hr, hfind, h⟩
  | delete key =>
    obtain ⟨r, t', T', h⟩ := dbDelete_stored hT hs hfind
    exact ⟨c, l, r, t', T', rfl, hr, hfind, h⟩
  | find key =>
    refine ⟨c, l, _, t, _, rfl, hr, hfind, ?_, .find key, hT⟩
    have hlook : t.dbFind key = .ok (lookup l.data.recs key) := dbFind_stored hT hfind
    rw [Table.call, hlook]
    rfl

/-- The first insertion into a fresh table stores a single leaf. -/
theorem startNewFile_stored (key : ℤ) (value : Value) :
    ∃ t, freshTable.call (.insert key value) = .ok (.status 0, t) ∧
      Stored t (h := 0) (⟨pageOffset 0, ⟨[⟨key, false, value⟩], 0⟩⟩ : Tip ℕ Leaf) := by
  have hs₀ : Sound freshTable 0 := ⟨rfl, rfl, rfl, rfl, rfl⟩
  obtain ⟨t₁, hnew, hs₁, hpages, -, -⟩ := hs₀.newPage
  have hmem : pageOffset 0 ∈ offsets 1 := List.mem_singleton_self _
  let r : Record := ⟨key, false, value⟩
  let p : Page := { t₁.disk.pages (pageOffset 0) with
    numOfKeys := 1, isLeaf := true, records := update (t₁.disk.pages (pageOffset 0)).records 0 r }
  let t₂ := { t₁ with hp := { t₁.hp with rpo := pageOffset 0 } }.syncHeader
  have hs₂ : Sound (t₂.pwritePage (pageOffset 0) p) 1 :=
    (hs₁.setRoot (pageOffset 0) t₁.rt).pwritePage hmem p
  have hload : (t₂.pwritePage (pageOffset 0) p).loadPage (pageOffset 0) = some p := by
    rw [hs₂.loadPage hmem]
    simp
  refine ⟨{ t₂.pwritePage (pageOffset 0) p with
    rt := (t₂.pwritePage (pageOffset 0) p).loadPage (pageOffset 0) }, ?_,
    Stored.of_perm ?_ rfl (.refl _) (hs₂.setRt _) ⟨p, hload, Nat.one_pos⟩⟩
  · have hstart : freshTable.startNewFile r = .ok { t₂.pwritePage (pageOffset 0) p with
        rt := (t₂.pwritePage (pageOffset 0) p).loadPage (pageOffset 0) } := by
      rw [Table.startNewFile, hnew, ok_bind]
      dsimp only
      rw [hs₁.page hmem]
      rfl
    have hrt : freshTable.rt.isNone = true := rfl
    rw [Table.call, Table.dbInsert]
    simp only [hrt, if_true, r] at hstart ⊢
    rw [hstart]
    rfl
  · change ((t₂.pwritePage (pageOffset 0) p).disk.pages (pageOffset 0)).IsTip none _
    rw [Table.pages_pwritePage, update_self]
    exact ⟨rfl, by simp [p, hpages, Page.zero], by simp [p, r, slots],
      by simp [p, hpages, Page.zero]⟩

theorem shaped_singleton (a : ℕ) (r : Record) (next : ℕ) :
    Shaped (H := 0) (⟨a, ⟨[r], next⟩⟩ : Tip ℕ Leaf) :=
  show leafOk true _ from ⟨le_rfl, by simp [leafMax]⟩

end Step

/-! ### What every call keeps -/

section Keeps

variable {H : ℕ} {c : Ctx ℤ ℕ Leaf 0 H} {l : PageTree 0} {call : Call} {r : Ret}
  {T' : Σ H', PageTree H'}

/-- The sizes. -/
theorem LeafCall.shaped (hstep : LeafCall c l call r T') (hs : Shaped (c.plug l)) :
    Shaped T'.2 := by
  obtain ⟨hc, hl⟩ := sized_plug.1 hs
  cases hstep with
  | find | insertPresent | deleteAbsent => exact hs
  | insertFits h hlen =>
    have hl' : leafOk c.parent.isNone l.data := hl
    refine sized_plug.2 ⟨hc, show leafOk c.parent.isNone _ from ⟨?_, ?_⟩⟩
    · rw [insertRecord, List.orderedInsert_length]
      exact Nat.le_succ_of_le hl'.1
    · rw [insertRecord, List.orderedInsert_length]
      exact hlen
  | insertSplits h hlen hrecs hx hlive =>
    have hcut : cut leafMax = 2 := rfl
    refine sized_insertUp (a := 0) (by decide) (by decide) (by decide) hc ?_ ?_
    · refine show leafOk false _ from ⟨?_, ?_⟩ <;> simp [hrecs, hcut, leafMax]
    · refine show leafOk false _ from ⟨?_, ?_⟩ <;> simp [hrecs, hcut, leafMax]
  | deletePresent h => exact sized_plug.2 ⟨hc, leafOk.removeKey hl (exists_of_lookup h) _⟩

/-- The pages. -/
theorem LeafCall.length_labels_le (hstep : LeafCall c l call r T') :
    (labels (c.plug l)).length ≤ (labels T'.2).length := by
  have hlen : ∀ l : PageTree 0, (labels (c.plug l)).length = 1 + c.labels.length :=
    fun l => (labels_plug c l).length_eq.trans (by simp [labels, Nat.add_comm])
  cases hstep with
  | find | insertPresent | deleteAbsent => exact le_rfl
  | insertFits | deletePresent => exact (hlen _).trans (hlen _).symm |>.le
  | insertSplits =>
    rw [hlen, splitLeaf]
    refine le_trans ?_ (length_labels_insertUp (by decide) c _ _ _ _)
    simp [labels]

end Keeps

end CourseProjects.BPlusTree
