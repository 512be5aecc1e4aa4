import CourseProjects.BPlusTree.Purge

/-!
# Reading a missing page

`load_page` returns `NULL` on a short read, which `find_leaf` and `db_find` do not check, and
`db_delete` does not check `rt`. In a table with a root every offset that is read is that of
a page of the file (`Reached.run`), and a table without a root has no page at all.

* `nothingMissing_iff`: a run on an opened table reads through a missing page or a missing root
  exactly if the table is empty, and a call other than an insertion comes first.
-/

namespace CourseProjects.BPlusTree

open Run

/-- A table opened on a missing file, or on the file that an earlier process left. -/
inductive Opened : Table → Prop
  | fresh : Opened freshTable
  | existing {t t' : Table} {cs : List Call} {rs : List Ret} : Opened t →
    run Table.call t cs = .ok (rs, t') → Opened (openTable (some t'.disk))

/-- The run follows no `NULL` of `load_page`, and no `NULL` root. -/
def NothingMissing (t : Table) (cs : List Call) : Prop :=
  run Table.call t cs ≠ .error .nullPage ∧ run Table.call t cs ≠ .error .nullRoot

/-- No call is made, or the first one is an insertion. -/
def StartsWithInsert (cs : List Call) : Prop := ∀ c ∈ cs.head?, c.isInsert = true

theorem NothingMissing.of_ok {t t' : Table} {cs : List Call} {rs : List Ret}
    (h : run Table.call t cs = .ok (rs, t')) : NothingMissing t cs := by
  rw [NothingMissing, h]
  exact ⟨by simp, by simp⟩

/-! ### Tables with a root -/

/-- No run on a table with a root faults, and the root remains. -/
theorem Reached.run {t : Table} (ht : Reached t) (cs : List Call) :
    ∃ rs t', Run.run Table.call t cs = .ok (rs, t') ∧ Reached t' := by
  have hstep : ∀ t c, Reached t → True → ∃ r t', t.call c = .ok (r, t') ∧ Reached t' := by
    intro t c ht _
    obtain ⟨r, t', h, -⟩ := ht.grown.call c
    exact ⟨r, t', h, ht.call h⟩
  exact run_inv (P := fun _ _ => True) hstep ht (along_of_forall fun _ _ _ => trivial)

theorem Reached.rpo_ne_zero {t : Table} (ht : Reached t) : t.hp.rpo ≠ 0 := by
  obtain ⟨H, T, hT, -, -⟩ := ht.grown
  rw [hT.root]
  intro h0
  exact zero_not_mem_offsets _ (h0 ▸ hT.mem_offsets (PerfectTree.label_mem_labels T))

/-! ### The empty table -/

/-- Finding and deleting a key of an empty table fails. -/
theorem freshTable_call {c : Call} (hc : c.isInsert = false) :
    freshTable.call c = .error .nullPage ∨ freshTable.call c = .error .nullRoot := by
  cases c with
  | insert key value => cases hc
  | delete key => exact .inr rfl
  | find key =>
    -- `find_leaf` returns `0`, where the file has the header and nothing more.
    have hload : freshTable.loadPage 0 = none := if_neg (by decide)
    have hpage : freshTable.page 0 = .error .nullPage := by rw [Table.page, hload]
    have hfind : freshTable.findLeaf key = .ok 0 := rfl
    left
    rw [Table.call, Table.dbFind, hfind, ok_bind, hpage]
    rfl

/-- A run on the empty table that starts with an insertion does not fault. -/
theorem freshTable_run {cs : List Call} (h : StartsWithInsert cs) :
    ∃ rs t, run Table.call freshTable cs = .ok (rs, t) ∧ (t = freshTable ∨ Reached t) := by
  cases cs with
  | nil => exact ⟨[], freshTable, rfl, .inl rfl⟩
  | cons c cs =>
    cases c with
    | insert key value =>
      obtain ⟨t₁, ht₁, -⟩ := grown_insert key value
      obtain ⟨rs, t, ht, hr⟩ := (Reached.insert ht₁).run cs
      exact ⟨_, t, by rw [run_cons_ok ht₁, ht]; rfl, .inr hr⟩
    | delete key => cases h _ rfl
    | find key => cases h _ rfl

theorem freshTable_run_error {cs : List Call} (h : ¬ StartsWithInsert cs) :
    ¬ NothingMissing freshTable cs := by
  cases cs with
  | nil => exact absurd (fun c hc => by cases hc) h
  | cons c cs =>
    have hc : c.isInsert = false := by
      by_contra hne
      refine h fun d hd => ?_
      cases hd
      simpa using hne
    rintro ⟨hpage, hroot⟩
    rcases freshTable_call hc with he | he
    · exact hpage (run_cons_error he cs)
    · exact hroot (run_cons_error he cs)

/-! ### Opened tables -/

/-- An opened table is empty, or has a root. -/
theorem Opened.fresh_or_reached {t : Table} (ht : Opened t) : t = freshTable ∨ Reached t := by
  induction ht with
  | fresh => exact .inl rfl
  | @existing t t' cs rs _ h ih =>
    have ht' : t' = freshTable ∨ Reached t' := by
      rcases ih with rfl | hr
      · by_cases hcs : StartsWithInsert cs
        · obtain ⟨rs', t'', h', ht''⟩ := freshTable_run hcs
          cases h.symm.trans h'
          exact ht''
        · exact absurd (.of_ok h) (freshTable_run_error hcs)
      · obtain ⟨rs', t'', h', ht''⟩ := hr.run cs
        cases h.symm.trans h'
        exact .inr ht''
    rcases ht' with rfl | hr
    · exact .inl openTable_fresh
    · exact .inr hr.reopen

/-- A run on an opened table reads through no missing page exactly if the table has a root, or no
    other call comes before the first insertion. -/
theorem nothingMissing_iff {t : Table} (ht : Opened t) (cs : List Call) :
    NothingMissing t cs ↔ t.hp.rpo ≠ 0 ∨ StartsWithInsert cs := by
  rcases ht.fresh_or_reached with rfl | hr
  · have h0 : freshTable.hp.rpo = 0 := rfl
    refine ⟨fun h => .inr ?_, ?_⟩
    · by_contra hcs
      exact freshTable_run_error hcs h
    · rintro (hne | hcs)
      · exact absurd h0 hne
      · obtain ⟨rs, t, h, -⟩ := freshTable_run hcs
        exact .of_ok h
  · obtain ⟨rs, t', h, -⟩ := hr.run cs
    exact iff_of_true (.of_ok h) (.inl hr.rpo_ne_zero)

theorem nothingMissing_insert :
    NothingMissing freshTable [.insert 1 (byteValue 49 (by decide)), .delete 2, .find 1] :=
  (nothingMissing_iff .fresh _).2 (.inr fun c hc => by cases hc; rfl)

/-- Finding and deleting a key of a fresh table does not report its absence. -/
theorem missing_page : ¬ ∀ t cs, Opened t → NothingMissing t cs := fun h =>
  freshTable_run_error (fun hfirst => Bool.false_ne_true (hfirst (.find 1) rfl))
    (h freshTable [.find 1] .fresh)

end CourseProjects.BPlusTree
