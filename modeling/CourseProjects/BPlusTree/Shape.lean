import CourseProjects.Lib.Run
import CourseProjects.BPlusTree.Steps

/-!
# The shape of the file

What holds after every call of every run that starts with an insertion, in
whatever order insertions, deletions and searches come (`Grown`): the table
stores a tree of allowed sizes whose leaves are linked in their order. Hence:

* the pages reachable from the root form that tree (`run_pageShape`);
* nothing is ever reclaimed, and the header counts the reachable pages
  (`run_neverReclaims`).
-/

namespace CourseProjects.BPlusTree

open Slots Function PerfectTree

/-! ### Reachable pages -/

/-- The pages an internal page points to. -/
def Page.children (p : Page) : List ℕ :=
  if p.isLeaf then [] else p.nextOffset :: slots (fun i => (p.bF i).pOffset) p.numOfKeys

/-- The pages reachable from `hp->rpo`. -/
inductive Table.Reachable (t : Table) : ℕ → Prop
  | root : Reachable t t.hp.rpo
  | child {a b : ℕ} {p : Page} : Reachable t a → t.loadPage a = some p → b ∈ p.children →
    Reachable t b

theorem Page.IsInner.children {p : Page} {par : Option ℕ} {h : ℕ} {n : Inner ℤ ℕ (PageTree h)}
    (hp : p.IsInner par (n.map label)) : p.children = n.children.map label := by
  have hrest : slots (fun i => (p.bF i).pOffset) p.numOfKeys = n.rest.map fun e => label e.2 := by
    rw [← map_slots InterRecord.pOffset, hp.rest]
    simp [InterRecord.ofEntry]
  rw [Page.children, hp.isLeaf, hp.first, hrest]
  simp [Inner.children]

/-- The pages of a tree point to pages of the tree. -/
theorem Rep.children_subset {pages : ℕ → Page} {h : ℕ} {par : Option ℕ} {T : PageTree h}
    (hT : Rep pages par T) {a b : ℕ} (ha : a ∈ labels T) (hb : b ∈ (pages a).children) :
    b ∈ labels T := by
  induction h generalizing par with
  | zero =>
    have hl : (pages (label T)).IsTip par (Tip.data T) := hT
    obtain rfl : a = label T := List.mem_singleton.1 ha
    rw [Page.children, hl.isLeaf] at hb
    exact absurd hb List.not_mem_nil
  | succ h ih =>
    have hn : (pages (label T)).IsInner par (Inner.map label T) := hT.1
    rcases List.mem_cons.1 ha with rfl | ha
    · have hb' : b ∈ (Inner.children T).map label := hn.children ▸ hb
      obtain ⟨u, hu, rfl⟩ := List.mem_map.1 hb'
      exact List.mem_cons_of_mem _ (List.mem_flatMap.2 ⟨u, hu, label_mem_labels u⟩)
    · obtain ⟨u, hu, ha⟩ := List.mem_flatMap.1 ha
      exact List.mem_cons_of_mem _ (List.mem_flatMap.2 ⟨u, hu, ih (hT.2 u hu) ha⟩)

/-- The pages of a tree are reachable from its root. -/
theorem Table.Reachable.tree {t : Table} {N : ℕ} (hs : Sound t N) {h : ℕ} {par : Option ℕ}
    {T : PageTree h} (hT : Rep t.disk.pages par T) (hmem : ∀ a ∈ labels T, a ∈ offsets N)
    (hr : t.Reachable (label T)) {a : ℕ} (ha : a ∈ labels T) : t.Reachable a := by
  induction h generalizing par with
  | zero => exact List.mem_singleton.1 ha ▸ hr
  | succ h ih =>
    have hn : (t.disk.pages (label T)).IsInner par (Inner.map label T) := hT.1
    rcases List.mem_cons.1 ha with rfl | ha
    · exact hr
    · obtain ⟨u, hu, ha⟩ := List.mem_flatMap.1 ha
      have hur : t.Reachable (label u) := by
        refine .child hr (hs.loadPage (hmem _ (label_mem_labels T))) ?_
        rw [hn.children]
        exact List.mem_map_of_mem hu
      exact ih (hT.2 u hu)
        (fun b hb => hmem b (List.mem_cons_of_mem _ (List.mem_flatMap.2 ⟨u, hu, hb⟩))) hur ha

/-- The pages reachable in a table that stores a tree are those of the tree. -/
theorem Stored.reachable_iff {t : Table} {h : ℕ} {T : PageTree h} (hT : Stored t T) {a : ℕ} :
    t.Reachable a ↔ a ∈ PerfectTree.labels T := by
  constructor
  · intro ha
    induction ha with
    | root => exact hT.root ▸ label_mem_labels T
    | child _ hload hb ih =>
      rw [hT.sound.loadPage (hT.mem_offsets ih), Option.some.injEq] at hload
      exact hT.rep.children_subset ih (hload ▸ hb)
  · exact .tree hT.sound hT.rep (fun a ha => hT.mem_offsets ha) (hT.root ▸ .root)

/-! ### The chain of the leaves -/

/-- The label of the first tip, or `e` after the last. -/
def start (e : ℕ) (ls : List (Tip ℕ Leaf)) : ℕ := (ls.head?.map Tip.label).getD e

/-- Every tip is followed by the next one, and the last by `e`. -/
def Linked (e : ℕ) : List (Tip ℕ Leaf) → Prop
  | [] => True
  | l :: ls => l.data.next = start e ls ∧ Linked e ls

theorem start_append (e : ℕ) (a b : List (Tip ℕ Leaf)) :
    start e (a ++ b) = start (start e b) a := by
  cases a <;> rfl

theorem linked_append {e : ℕ} {a b : List (Tip ℕ Leaf)} :
    Linked e (a ++ b) ↔ Linked (start e b) a ∧ Linked e b := by
  induction a with
  | nil => simp [Linked]
  | cons l a ih => rw [List.cons_append, Linked, ih, start_append, Linked, and_assoc]

/-- Tips in place of one, with the same label in front and the same successor at
    the end. -/
theorem Linked.replace {e : ℕ} {a b : List (Tip ℕ Leaf)} {l : Tip ℕ Leaf} {ls : List (Tip ℕ Leaf)}
    (h : Linked e (a ++ [l] ++ b)) (hstart : ∀ e, start e ls = l.label)
    (hls : Linked l.data.next ls) : Linked e (a ++ ls ++ b) := by
  rw [List.append_assoc, linked_append, linked_append] at h ⊢
  obtain ⟨ha, hl, hb⟩ := h
  rw [start_append] at ha ⊢
  rw [hstart]
  exact ⟨ha, hl.1 ▸ hls, hb⟩

/-- A call keeps the leaves linked in their order. -/
theorem LeafCall.linked {H : ℕ} {c : Ctx ℤ ℕ Leaf 0 H} {l : PageTree 0} {call : Call} {r : Ret}
    {T' : Σ H', PageTree H'} (hstep : LeafCall c l call r T')
    (hl : Linked 0 (tips (c.plug l))) : Linked 0 (tips T'.2) := by
  have htips : Linked 0 (c.pre ++ [l] ++ c.post) := tips_plug c l ▸ hl
  cases hstep with
  | find | insertPresent | deleteAbsent => exact hl
  | insertFits | deletePresent =>
    rw [tips_plug]
    exact htips.replace (fun _ => rfl) ⟨rfl, trivial⟩
  | insertSplits =>
    rw [splitLeaf, tips_insertUp (by decide)]
    exact htips.replace (fun _ => rfl) ⟨rfl, rfl, trivial⟩

/-- The leftmost leaf below the page at `a`. -/
def Table.firstLeaf (t : Table) : (fuel : ℕ) → (a : ℕ) → Except Fault ℕ
  | 0, _ => .error .endless
  | fuel + 1, a => do
    let p ← t.page a
    if p.isLeaf then pure a else t.firstLeaf fuel p.nextOffset

/-- The leaves from the one at `a` on, by their `next_offset`, up to `0`. -/
def Table.leafChain (t : Table) : (fuel : ℕ) → (a : ℕ) → Except Fault (List ℕ)
  | 0, _ => .error .endless
  | fuel + 1, a =>
    if a = 0 then pure []
    else do
      let p ← t.page a
      let as ← t.leafChain fuel p.nextOffset
      pure (a :: as)

/-- Every tip of a represented tree is a leaf page. -/
theorem Rep.tip {pages : ℕ → Page} {h : ℕ} {par : Option ℕ} {T : PageTree h}
    (hT : Rep pages par T) {l : Tip ℕ Leaf} (hl : l ∈ tips T) :
    ∃ par, (pages l.label).IsTip par l.data := by
  induction h generalizing par with
  | zero =>
    obtain rfl : l = T := List.mem_singleton.1 hl
    exact ⟨par, hT⟩
  | succ h ih =>
    obtain ⟨u, hu, hl⟩ := List.mem_flatMap.1 hl
    exact ih (hT.2 u hu) hl

theorem label_mem_of_tips {h : ℕ} {T : PageTree h} {l : Tip ℕ Leaf} (hl : l ∈ tips T) :
    l.label ∈ labels T := by
  induction h with
  | zero =>
    obtain rfl : l = T := List.mem_singleton.1 hl
    exact List.mem_singleton_self _
  | succ h ih =>
    obtain ⟨u, hu, hl⟩ := List.mem_flatMap.1 hl
    exact List.mem_cons_of_mem _ (List.mem_flatMap.2 ⟨u, hu, ih hl⟩)

/-- A tree has no more tips than labels. -/
theorem length_tips_le {h : ℕ} (T : PageTree h) : (tips T).length ≤ (labels T).length := by
  induction h with
  | zero => exact le_rfl
  | succ h ih =>
    rw [tips, labels, List.length_cons, List.length_flatMap, List.length_flatMap]
    exact Nat.le_succ_of_le (List.sum_le_sum fun u _ => ih u)

theorem tips_ne_nil {h : ℕ} (T : PageTree h) : tips T ≠ [] := by
  induction h with
  | zero => exact List.cons_ne_nil _ _
  | succ h ih =>
    rw [tips, Inner.children, List.flatMap_cons]
    exact List.append_ne_nil_of_left_ne_nil (ih _) _

section Chain

variable {t : Table} {N : ℕ} (hs : Sound t N)

include hs

/-- The leftmost leaf is the first tip. -/
theorem firstLeaf_rep {h : ℕ} {par : Option ℕ} {T : PageTree h} (hT : Rep t.disk.pages par T)
    (hmem : ∀ a ∈ labels T, a ∈ offsets N) (e : ℕ) {fuel : ℕ} (hfuel : h < fuel) :
    t.firstLeaf fuel (label T) = .ok (start e (tips T)) := by
  induction h generalizing par fuel with
  | zero =>
    have hl : (t.disk.pages (label T)).IsTip par (Tip.data T) := hT
    obtain ⟨fuel, rfl⟩ := Nat.exists_eq_succ_of_ne_zero (Nat.ne_zero_of_lt hfuel)
    rw [Table.firstLeaf, hs.page (hmem _ (label_mem_labels T)), ok_bind, if_pos hl.isLeaf]
    rfl
  | succ h ih =>
    have hn : (t.disk.pages (label T)).IsInner par (Inner.map label T) := hT.1
    obtain ⟨fuel, rfl⟩ := Nat.exists_eq_succ_of_ne_zero (Nat.ne_zero_of_lt hfuel)
    have hu : Inner.first T ∈ Inner.children T := List.mem_cons_self
    have hfirst := ih (hT.2 _ hu)
      (fun a ha => hmem a (List.mem_cons_of_mem _ (List.mem_flatMap.2 ⟨_, hu, ha⟩)))
      (Nat.lt_of_succ_lt_succ hfuel)
    have hstart : start e (tips T) = start e (tips (Inner.first T)) := by
      rw [tips, Inner.children, List.flatMap_cons, start_append]
      cases hne : tips (Inner.first T) with
      | nil => exact absurd hne (tips_ne_nil _)
      | cons l ls => rfl
    rw [Table.firstLeaf, hs.page (hmem _ (label_mem_labels T)), ok_bind, hn.isLeaf, hn.first,
      hstart]
    exact hfirst

/-- The chain of linked leaves visits them in their order, and ends in `0`. -/
theorem leafChain_linked {ls : List (Tip ℕ Leaf)}
    (htip : ∀ l ∈ ls, ∃ par, (t.disk.pages l.label).IsTip par l.data)
    (hmem : ∀ l ∈ ls, l.label ∈ offsets N) (hls : Linked 0 ls) {fuel : ℕ}
    (hfuel : ls.length < fuel) :
    t.leafChain fuel (start 0 ls) = .ok (ls.map Tip.label) := by
  induction ls generalizing fuel with
  | nil =>
    obtain ⟨fuel, rfl⟩ := Nat.exists_eq_succ_of_ne_zero (Nat.ne_zero_of_lt hfuel)
    rfl
  | cons l ls ih =>
    obtain ⟨fuel, rfl⟩ := Nat.exists_eq_succ_of_ne_zero (Nat.ne_zero_of_lt hfuel)
    obtain ⟨par, hl⟩ := htip l List.mem_cons_self
    have hin := hmem l List.mem_cons_self
    have hne : l.label ≠ 0 := fun h0 => zero_not_mem_offsets N (h0 ▸ hin)
    have hrest := ih (fun l hl => htip l (List.mem_cons_of_mem _ hl))
      (fun l hl => hmem l (List.mem_cons_of_mem _ hl)) hls.2 (Nat.lt_of_succ_lt_succ hfuel)
    have hstart : start 0 (l :: ls) = l.label := rfl
    rw [hstart, Table.leafChain, if_neg hne, hs.page hin, ok_bind, hl.next, hls.1, hrest]
    rfl

end Chain

/-- From the root, the leaves are found in their order. -/
theorem Stored.leafChain {t : Table} {H : ℕ} {T : PageTree H} (hT : Stored t T)
    (hl : Linked 0 (tips T)) :
    t.firstLeaf t.disk.size t.hp.rpo = .ok (start 0 (tips T)) ∧
      t.leafChain t.disk.size (start 0 (tips T)) = .ok ((tips T).map Tip.label) := by
  have hsize : (PerfectTree.labels T).length < t.disk.size := by
    rw [hT.sound.size, pageOffset_eq]
    omega
  constructor
  · rw [hT.root]
    exact firstLeaf_rep hT.sound hT.rep (fun a ha => hT.mem_offsets ha) 0
      ((height_lt_length_labels T).trans hsize)
  · exact leafChain_linked hT.sound (fun l hl => hT.rep.tip hl)
      (fun l hl => hT.mem_offsets (label_mem_of_tips hl)) hl ((length_tips_le T).trans_lt hsize)

/-! ### Runs -/

/-- The invariant of the runs that start with an insertion. -/
def Grown (t : Table) : Prop :=
  ∃ (H : ℕ) (T : PageTree H), Stored t T ∧ Shaped T ∧ Linked 0 (tips T)

/-- The first insertion. -/
theorem grown_insert (key : ℤ) (value : Value) :
    ∃ t, freshTable.call (.insert key value) = .ok (.status 0, t) ∧ Grown t := by
  obtain ⟨t, ht, hT⟩ := startNewFile_stored key value
  exact ⟨t, ht, 0, _, hT, shaped_singleton _ _ _, rfl, trivial⟩

/-- Every call keeps the invariant, and does not take pages away. -/
theorem Grown.call {t : Table} (hg : Grown t) (call : Call) :
    ∃ r t', t.call call = .ok (r, t') ∧ Grown t' ∧ t.hp.numOfPages ≤ t'.hp.numOfPages := by
  obtain ⟨H, T, hT, hs, hl⟩ := hg
  obtain ⟨c, l, r, t', T', rfl, -, -, hcall, hstep, hT'⟩ := call_stored hT hs call
  refine ⟨r, t', hcall, ⟨_, T'.2, hT', hstep.shaped hs, hstep.linked hl⟩, ?_⟩
  rw [hT.sound.numOfPages, hT'.sound.numOfPages]
  exact Nat.succ_le_succ hstep.length_labels_le

/-- A run from a table with the invariant keeps it. -/
theorem Grown.run {t : Table} (hg : Grown t) (cs : List Call) :
    ∃ rs t', Run.run Table.call t cs = .ok (rs, t') ∧ Grown t' ∧
      t.hp.numOfPages ≤ t'.hp.numOfPages := by
  have hstep : ∀ s c, (Grown s ∧ t.hp.numOfPages ≤ s.hp.numOfPages) → True →
      ∃ r s', Table.call s c = .ok (r, s') ∧ Grown s' ∧ t.hp.numOfPages ≤ s'.hp.numOfPages := by
    rintro s c ⟨hs, hle⟩ -
    obtain ⟨r, s', hcall, hs', hle'⟩ := hs.call c
    exact ⟨r, s', hcall, hs', hle.trans hle'⟩
  exact Run.run_inv hstep ⟨hg, le_rfl⟩ (Run.along_of_forall fun _ _ _ => trivial)

/-- Every run that starts with an insertion goes on to its end, with the
    invariant. -/
theorem run_grown (key : ℤ) (value : Value) (cs : List Call) :
    ∃ rs t, Run.run Table.call freshTable (.insert key value :: cs) = .ok (rs, t) ∧ Grown t := by
  obtain ⟨t₁, ht₁, hg⟩ := grown_insert key value
  obtain ⟨rs, t, ht, hg', -⟩ := hg.run cs
  exact ⟨.status 0 :: rs, t, by rw [Run.run_cons_ok ht₁, ht]; rfl, hg'⟩

/-! ### Main results -/

/-- The pages reachable from the root form a tree: each occurs once, has the
    page that points to it, or `0` at the root, as its parent (`Rep`), and the
    leaves, all at the same depth, are the chain that starts from the leftmost. -/
def PageShape (t : Table) : Prop :=
  ∃ (H : ℕ) (T : PageTree H), t.hp.rpo = label T ∧ Rep t.disk.pages none T ∧
    (∀ a, t.Reachable a ↔ a ∈ labels T) ∧ (labels T).Nodup ∧ Shaped T ∧
    ∃ first, t.firstLeaf t.disk.size t.hp.rpo = .ok first ∧
      t.leafChain t.disk.size first = .ok ((tips T).map Tip.label)

theorem Grown.pageShape {t : Table} (hg : Grown t) : PageShape t := by
  obtain ⟨H, T, hT, hs, hl⟩ := hg
  exact ⟨H, T, hT.root, hT.rep, fun a => hT.reachable_iff, hT.nodup, hs, _, hT.leafChain hl⟩

/-- After every call of a run that starts with an insertion, the pages reachable
    from the root have their shape. -/
theorem run_pageShape (key : ℤ) (value : Value) (cs : List Call) :
    ∃ rs t, Run.run Table.call freshTable (.insert key value :: cs) = .ok (rs, t) ∧
      PageShape t := by
  obtain ⟨rs, t, ht, hg⟩ := run_grown key value cs
  exact ⟨rs, t, ht, hg.pageShape⟩

/-- In a run that starts with an insertion no page is ever reclaimed, the number
    of pages never decreases, and it is one more than that of the reachable pages. -/
theorem run_neverReclaims (key : ℤ) (value : Value) (cs : List Call) :
    ∃ rs t, Run.run Table.call freshTable (.insert key value :: cs) = .ok (rs, t) ∧
      t.reclaimed = [] ∧ t.hp.fpo = 0 ∧ t.hp.numOfPages = 1 + {a | t.Reachable a}.ncard ∧
      ∀ ds, ∃ rs' t', Run.run Table.call t ds = .ok (rs', t') ∧
        t.hp.numOfPages ≤ t'.hp.numOfPages := by
  obtain ⟨rs, t, ht, hg⟩ := run_grown key value cs
  refine ⟨rs, t, ht, ?_⟩
  obtain ⟨H, T, hT, -, -⟩ := id hg
  refine ⟨hT.sound.reclaimed, hT.sound.fpo, ?_, fun ds => ?_⟩
  · have hset : {a | t.Reachable a} = ((labels T).toFinset : Set ℕ) := by
      ext a
      simp [hT.reachable_iff]
    rw [hset, Set.ncard_coe_finset, List.toFinset_card_of_nodup hT.nodup, hT.sound.numOfPages,
      Nat.add_comm]
  · obtain ⟨rs', t', ht', -, hle⟩ := hg.run ds
    exact ⟨rs', t', ht', hle⟩

end CourseProjects.BPlusTree
