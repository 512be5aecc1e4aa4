import CourseProjects.BPlusTree.Delete
import CourseProjects.BPlusTree.Rep

/-!
# Pages with other contents

What `coalesce_pages`, `redistribute_pages` and `remove_entry_from_page` write
to a page, as changes to the leaf (`Page.IsTip`) or the inner node
(`Page.IsInner`) that the page is, and the neighbour that `delete_entry` finds
in the page above (`Page.IsInner.neighbor_first`,
`Page.IsInner.neighbor_following`).
-/

namespace CourseProjects.BPlusTree

open Slots Function PerfectTree

namespace Page.IsTip

variable {p q : Page} {par par' : Option ℕ} {l m : Leaf}

/-- The leaf with the records of another one after its own. -/
theorem append (hp : p.IsTip par l) (hq : q.IsTip par' m) :
    Page.IsTip { p with
      records := blit p.records p.numOfKeys q.records 0 q.numOfKeys
      numOfKeys := p.numOfKeys + q.numOfKeys
      nextOffset := q.nextOffset } par ⟨l.recs ++ m.recs, m.next⟩ where
  isLeaf := hp.isLeaf
  parent := hp.parent
  next := hq.next
  recs := by rw [slots_blit_append, hp.recs, hq.recs]

/-- The leaf with one more record in front. -/
theorem cons (hp : p.IsTip par l) (r : Record) :
    Page.IsTip { p with
      records := update (shiftUp p.records 0 p.numOfKeys) 0 r
      numOfKeys := p.numOfKeys + 1 } par ⟨r :: l.recs, l.next⟩ where
  isLeaf := hp.isLeaf
  parent := hp.parent
  next := hp.next
  recs := by rw [slots_shiftUp _ (Nat.zero_le _), hp.recs, List.insertIdx_zero]

/-- The leaf with one more record at the end. -/
theorem concat (hp : p.IsTip par l) (r : Record) :
    Page.IsTip { p with
      records := update p.records p.numOfKeys r
      numOfKeys := p.numOfKeys + 1 } par ⟨l.recs ++ [r], l.next⟩ where
  isLeaf := hp.isLeaf
  parent := hp.parent
  next := hp.next
  recs := by rw [slots_update_succ, hp.recs]

/-- The leaf without its last record, whose key is cleared. -/
theorem dropLast {rs : List Record} {r : Record} {next : ℕ} (hp : p.IsTip par ⟨rs ++ [r], next⟩) :
    p.records (p.numOfKeys - 1) = r ∧
      Page.IsTip { p with
        records := update p.records (p.numOfKeys - 1)
          { p.records (p.numOfKeys - 1) with key := 0 }
        numOfKeys := p.numOfKeys - 1 } par ⟨rs, next⟩ := by
  obtain ⟨hrs, hr⟩ := slots_concat hp.recs
  exact ⟨hr, hp.isLeaf, hp.parent, (slots_update_of_le _ le_rfl _).trans hrs, hp.next⟩

/-- The leaf without its first record. -/
theorem tail {rs : List Record} {r : Record} {next : ℕ} (hp : p.IsTip par ⟨r :: rs, next⟩) :
    p.records 0 = r ∧
      Page.IsTip { p with
        records := shiftDown p.records 0 p.numOfKeys
        numOfKeys := p.numOfKeys - 1 } par ⟨rs, next⟩ := by
  have hpos : 0 < p.numOfKeys := by
    rw [hp.numOfKeys]
    exact Nat.succ_pos _
  refine ⟨hp.records (Nat.succ_pos _), hp.isLeaf, hp.parent, ?_, hp.next⟩
  rw [slots_shiftDown _ hpos, hp.recs, List.eraseIdx_cons_zero]

end Page.IsTip

namespace Page.IsInner

variable {p q : Page} {par par' : Option ℕ} {m n : Inner ℤ ℕ ℕ} {k : ℤ} {b : ℕ}

/-- The node with the children of another one after its own. -/
theorem append (hp : p.IsInner par m) (hq : q.IsInner par' n) (k : ℤ) :
    Page.IsInner { p with
      bF := blit (update p.bF p.numOfKeys ⟨k, q.nextOffset⟩) (p.numOfKeys + 1) q.bF 0 q.numOfKeys
      numOfKeys := p.numOfKeys + 1 + q.numOfKeys } par (m.append k n) where
  isLeaf := hp.isLeaf
  parent := hp.parent
  first := hp.first
  rest := by
    rw [slots_blit_append, slots_update_succ, hp.rest, hq.rest, hq.first]
    simp [Inner.append, InterRecord.ofEntry]

/-- The node with one more child in front. -/
theorem cons (hp : p.IsInner par n) (k : ℤ) (b : ℕ) :
    Page.IsInner { p with
      bF := update (shiftUp p.bF 0 p.numOfKeys) 0 ⟨k, p.nextOffset⟩
      nextOffset := b
      numOfKeys := p.numOfKeys + 1 } par ⟨n.label, b, (k, n.first) :: n.rest⟩ where
  isLeaf := hp.isLeaf
  parent := hp.parent
  first := rfl
  rest := by
    rw [slots_shiftUp _ (Nat.zero_le _), hp.rest, hp.first, List.insertIdx_zero]
    rfl

/-- The node with one more child at the end. -/
theorem concat (hp : p.IsInner par n) (k : ℤ) (b : ℕ) :
    Page.IsInner { p with
      bF := update p.bF p.numOfKeys ⟨k, b⟩
      numOfKeys := p.numOfKeys + 1 } par ⟨n.label, n.first, n.rest ++ [(k, b)]⟩ where
  isLeaf := hp.isLeaf
  parent := hp.parent
  first := hp.first
  rest := by
    rw [slots_update_succ, hp.rest]
    simp [InterRecord.ofEntry]

/-- The node without its last child. -/
theorem dropLast {a u : ℕ} {rs : List (ℤ × ℕ)} (hp : p.IsInner par ⟨a, u, rs ++ [(k, b)]⟩) :
    p.bF (p.numOfKeys - 1) = ⟨k, b⟩ ∧
      Page.IsInner { p with numOfKeys := p.numOfKeys - 1 } par ⟨a, u, rs⟩ := by
  have hrest : slots p.bF p.numOfKeys = rs.map .ofEntry ++ [⟨k, b⟩] := by
    rw [hp.rest]
    simp [InterRecord.ofEntry]
  obtain ⟨hrs, hlast⟩ := slots_concat hrest
  exact ⟨hlast, hp.isLeaf, hp.parent, hp.first, hrs⟩

/-- The node without its leftmost child. -/
theorem tail {a u : ℕ} {rs : List (ℤ × ℕ)} (hp : p.IsInner par ⟨a, u, (k, b) :: rs⟩) :
    p.bF 0 = ⟨k, b⟩ ∧
      Page.IsInner { p with
        nextOffset := (p.bF 0).pOffset
        bF := shiftDown p.bF 0 p.numOfKeys
        numOfKeys := p.numOfKeys - 1 } par ⟨a, b, rs⟩ := by
  have h₀ : p.bF 0 = ⟨k, b⟩ := hp.bF (Nat.succ_pos _)
  have hpos : 0 < p.numOfKeys := by
    rw [hp.numOfKeys]
    exact Nat.succ_pos _
  refine ⟨h₀, hp.isLeaf, hp.parent, congrArg InterRecord.pOffset h₀, ?_⟩
  rw [slots_shiftDown _ hpos, hp.rest]
  rfl

section Pair

variable {g : Frame ℤ ℕ ℕ} {a : ℕ}

theorem rest_pair (hp : p.IsInner par ((g.insertAfter k b).fill a)) :
    slots p.bF p.numOfKeys = (g.before a).map .ofEntry ++ ⟨k, b⟩ :: g.after.map .ofEntry := by
  rw [hp.rest, Frame.rest_fill_insertAfter_eq]
  simp [InterRecord.ofEntry]

/-- The entry between the two children. -/
theorem bF_index (hp : p.IsInner par ((g.insertAfter k b).fill a)) :
    g.index < p.numOfKeys ∧ p.bF g.index = ⟨k, b⟩ := by
  obtain ⟨hn, hf⟩ := slots_eq_iff.1 hp.rest_pair
  have hlt : g.index < ((g.before a).map InterRecord.ofEntry ++
      InterRecord.mk k b :: g.after.map InterRecord.ofEntry).length := by simp
  refine ⟨hn ▸ hlt, (hf _ hlt).trans ?_⟩
  rw [List.getElem_append_right (by simp)]
  simp

/-- The entries up to the first child. -/
theorem bF_before (hp : p.IsInner par ((g.insertAfter k b).fill a)) {i : ℕ} (hi : i < g.index) :
    ∃ e ∈ g.before a, p.bF i = .ofEntry e := by
  obtain ⟨hn, hf⟩ := slots_eq_iff.1 hp.rest_pair
  have hlt : i < (g.before a).length := by rwa [Frame.length_before]
  refine ⟨(g.before a)[i], List.getElem_mem hlt, ?_⟩
  rw [hf i (by simp; omega), List.getElem_append_left (by rwa [List.length_map]),
    List.getElem_map]

/-- `remove_entry_from_page` removes the entry between two children, and with it
    the second one. -/
theorem eraseEntry (hp : p.IsInner par ((g.insertAfter k b).fill a))
    (hk : ∀ e ∈ g.before a, e.1 < k) (hlen : p.numOfKeys ≤ interSlots) :
    scan (fun i => (p.bF i).key = k) interSlots = g.index ∧
      Page.IsInner { p with
        bF := shiftDown p.bF g.index p.numOfKeys
        numOfKeys := p.numOfKeys - 1 } par (g.fill a) := by
  obtain ⟨hlt, hi⟩ := hp.bF_index
  refine ⟨scan_eq (hlt.trans_le hlen) (by simp [hi]) fun j hj => ?_, hp.isLeaf, hp.parent,
    hp.first.trans (Frame.first_fill_insertAfter g k a b), ?_⟩
  · obtain ⟨e, he, heq⟩ := hp.bF_before hj
    rw [heq]
    exact decide_eq_false (hk e he).ne
  · rw [slots_shiftDown _ hlt, hp.rest_pair, Frame.rest_fill,
      List.eraseIdx_append_of_length_le (by simp)]
    simp

/-- Another separator between the two children. -/
theorem setSeparator (hp : p.IsInner par ((g.insertAfter k b).fill a)) (k' : ℤ) :
    (p.setSeparator g.index k').IsInner par ((g.insertAfter k' b).fill a) where
  isLeaf := hp.isLeaf
  parent := hp.parent
  first := by
    rw [Frame.first_fill_insertAfter, ← Frame.first_fill_insertAfter g k a b]
    exact hp.first
  rest := by
    have hset := slots_update p.bF (fun e => { e with key := k' }) g.index p.numOfKeys
    rw [hp.rest_pair, List.modify_eq_take_cons_drop (by simp)] at hset
    refine hset.trans ?_
    rw [Frame.rest_fill_insertAfter_eq]
    simp [InterRecord.ofEntry, List.drop_append]

/-- `delete_entry` finds the neighbour of the leftmost child after it. -/
theorem neighbor_first (hp : p.IsInner par ((g.insertAfter k b).fill a)) {l : ℕ}
    {es : List (ℤ × ℕ)} (hg : g = .first l es) : p.neighborOf a = (-2, b, k, g.index) := by
  subst hg
  have hfirst : p.nextOffset = a := hp.first
  have h₀ : p.bF 0 = ⟨k, b⟩ := hp.bF_index.2
  rw [Page.neighborOf, if_pos hfirst, h₀]
  rfl

/-- `delete_entry` finds the neighbour of any other child before it. -/
theorem neighbor_following (hp : p.IsInner par ((g.insertAfter k b).fill a)) (hab : b ≠ a)
    (hleft : b ∉ g.left) :
    ∃ idx : ℤ, idx ≠ -2 ∧ p.neighborOf b = (idx, a, k, g.index) := by
  obtain ⟨hlt, hi⟩ := hp.bF_index
  cases g with
  | first l es =>
    have hfirst : p.nextOffset = a := hp.first
    have h₀ : p.bF 0 = ⟨k, b⟩ := hi
    refine ⟨-1, by decide, ?_⟩
    rw [Page.neighborOf, if_neg (hfirst ▸ hab.symm), h₀, if_pos rfl, hfirst]
    rfl
  | later l m es k₀ es' =>
    have hfirst : p.nextOffset = m := hp.first
    simp only [Frame.left, List.mem_cons, List.mem_map, not_or, not_exists, not_and] at hleft
    -- None of the entries before the one of the page leads to it.
    have hbefore : ∀ j < es.length + 1, (p.bF j).pOffset ≠ b := by
      intro j hj
      obtain ⟨e, he, heq⟩ := hp.bF_before hj
      rw [heq]
      rcases List.mem_append.1 he with he | he
      · exact hleft.2 e he
      · rw [List.mem_singleton.1 he]
        exact hab.symm
    have hscan : scan (fun i => (p.bF i).pOffset = b) (p.numOfKeys + 1) = es.length + 1 :=
      scan_eq (hlt.trans (Nat.lt_succ_self _)) (decide_eq_true (congrArg InterRecord.pOffset hi))
        fun j hj => decide_eq_false (hbefore j hj)
    have hprev : (p.bF es.length).pOffset = a := by
      obtain ⟨hn, hf⟩ := slots_eq_iff.1 hp.rest_pair
      rw [hf _ (by simp [Frame.before])]
      simp [Frame.before, InterRecord.ofEntry]
    have hkey : (p.bF (es.length + 1)).key = k := congrArg InterRecord.key hi
    refine ⟨(es.length + 1 : ℕ) - 1, by omega, ?_⟩
    rw [Page.neighborOf, if_neg (hfirst ▸ Ne.symm hleft.1), if_neg (hbefore 0 (Nat.succ_pos _)),
      hscan, Nat.add_sub_cancel, hprev, hkey]
    rfl

end Pair

end Page.IsInner

end CourseProjects.BPlusTree
