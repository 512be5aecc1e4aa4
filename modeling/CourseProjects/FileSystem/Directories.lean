import CourseProjects.FileSystem.Inodes

/-!
# Directories as lists of entries

What `dirlookup` finds in a directory after `dirlink` has written an entry, and after an entry
has been overwritten with zeros.

* `entries_linkData`, `findEntry_linkData`: the new entry takes the place of the first one that
  is not in use, or comes after the last one, and is found by its name;
* `entries_clearData`: the entry that is overwritten is one of number zero.
-/

namespace FileSystem

open CString

/-- The bytes of a directory after `dirlink` has written an entry. -/
def linkData (data name : List UInt8) (n : ℕ) : List UInt8 :=
  splice data (Dirent.bytes ⟨n, name⟩) (16 * emptyEntry data)

/-- The bytes of a directory after an entry has been overwritten with zeros. -/
def clearData (data : List UInt8) (i : ℕ) : List UInt8 := splice data zeroDirent (16 * i)

/-- The entry is in use, under the name. -/
def Dirent.Named (de : Dirent) (name : List UInt8) : Prop := de.inum ≠ 0 ∧ namecmp name de.name = 0

instance (de : Dirent) (name : List UInt8) : Decidable (de.Named name) :=
  inferInstanceAs (Decidable (_ ∧ _))

variable {data name : List UInt8} {n i k : ℕ} {de : Dirent}

/-! ### Places -/

variable (data) in
theorem emptyEntry_le : emptyEntry data ≤ (entries data).length := List.findIdx_le_length

theorem entryAt_eq (h : i < (entries data).length) : entryAt data i = (entries data)[i] := by
  simp only [entries, List.getElem_map, List.getElem_range]
  rfl

theorem getElem?_entryAt (h : i < (entries data).length) :
    (entries data)[i]? = some (entryAt data i) := by
  rw [List.getElem?_eq_getElem h, entryAt_eq h]

/-- The place of the first entry that is not in use, when it is not the end. -/
theorem inum_emptyEntry (h : emptyEntry data < (entries data).length) :
    (entries data)[emptyEntry data].inum = 0 :=
  of_decide_eq_true (List.findIdx_getElem (w := h))

theorem findEntry_some (h : findEntry name data = some i) :
    i < (entries data).length ∧ (entryAt data i).Named name := by
  obtain ⟨hi, hp, -⟩ := List.findIdx?_eq_some_iff_getElem.1 h
  rw [entryAt_eq hi]
  exact ⟨hi, of_decide_eq_true hp⟩

theorem findEntry_none : findEntry name data = none ↔ ∀ de ∈ entries data, ¬ de.Named name := by
  rw [findEntry, List.findIdx?_eq_none_iff]
  exact forall₂_congr fun de _ => decide_eq_false_iff_not

/-- The first entry with a name. -/
theorem findEntry_eq_some (hi : i < (entries data).length) (h : (entryAt data i).Named name)
    (hlt : ∀ j < i, ∀ de ∈ (entries data)[j]?, ¬ de.Named name) :
    findEntry name data = some i := by
  rw [findEntry, List.findIdx?_eq_some_iff_getElem]
  rw [entryAt_eq hi] at h
  refine ⟨hi, decide_eq_true h, fun j hj => ?_⟩
  have := hlt j hj _ (List.getElem?_eq_getElem (by omega))
  exact fun h' => this (of_decide_eq_true h')

/-! ### A new entry -/

theorem size_linkData (h : data.length % 16 = 0) : (linkData data name n).length % 16 = 0 := by
  have hle := emptyEntry_le data
  rw [length_entries] at hle
  rw [linkData, length_splice (Dirent.length_bytes _) (by omega)]
  omega

/-- The entries up to the place of the new one, the new one, and the entries after it. -/
theorem entries_linkData (h : data.length % 16 = 0) (hn : n < 2 ^ 16) (hname : IsName name) :
    entries (linkData data name n) = (entries data).take (emptyEntry data) ++
      ⟨n, name⟩ :: (entries data).drop (emptyEntry data + 1) := by
  have hof : Dirent.ofBytes (Dirent.bytes ⟨n, name⟩) = ⟨n, name⟩ :=
    Dirent.ofBytes_bytes hn hname.nonul hname.length_le
  rcases Nat.lt_or_ge (emptyEntry data) (entries data).length with hlt | hge
  · rw [linkData, entries_splice_set (Dirent.length_bytes _) hlt, hof,
      List.set_eq_take_append_cons_drop, if_pos hlt]
  · have heq : emptyEntry data = (entries data).length := le_antisymm (emptyEntry_le data) hge
    have hend : data.length = 16 * emptyEntry data := by
      rw [heq, length_entries]
      omega
    rw [linkData, entries_splice_end (Dirent.length_bytes _) hend, hof, heq, List.take_length,
      List.drop_eq_nil_of_le (by omega)]

theorem getElem?_linkData (h : data.length % 16 = 0) (hn : n < 2 ^ 16) (hname : IsName name)
    (hi : i ≠ emptyEntry data) : (entries (linkData data name n))[i]? = (entries data)[i]? := by
  have hlen : ((entries data).take (emptyEntry data)).length = emptyEntry data :=
    List.length_take_of_le (emptyEntry_le data)
  rw [entries_linkData h hn hname]
  rcases Nat.lt_or_gt_of_ne hi with hi | hi
  · rw [List.getElem?_append_left (by omega), List.getElem?_take_of_lt hi]
  · rw [List.getElem?_append_right (by omega), hlen]
    obtain ⟨j, rfl⟩ := Nat.exists_eq_add_of_lt hi
    rw [show emptyEntry data + j + 1 - emptyEntry data = j + 1 by omega, List.getElem?_cons_succ,
      List.getElem?_drop]
    congr 1
    omega

theorem entryAt_linkData_self (h : data.length % 16 = 0) (hn : n < 2 ^ 16) (hname : IsName name) :
    emptyEntry data < (entries (linkData data name n)).length ∧
      entryAt (linkData data name n) (emptyEntry data) = ⟨n, name⟩ := by
  have hlen : ((entries data).take (emptyEntry data)).length = emptyEntry data :=
    List.length_take_of_le (emptyEntry_le data)
  have hlt : emptyEntry data < (entries (linkData data name n)).length := by
    rw [entries_linkData h hn hname, List.length_append, hlen, List.length_cons]
    omega
  refine ⟨hlt, ?_⟩
  rw [entryAt_eq hlt]
  simp only [entries_linkData h hn hname, List.getElem_append_right (le_of_eq hlen), hlen,
    Nat.sub_self, List.getElem_cons_zero]

/-- A name that was not there is found where it has been written. -/
theorem findEntry_linkData (h : data.length % 16 = 0) (hn : n < 2 ^ 16) (hn0 : n ≠ 0)
    (hname : IsName name) (hnone : findEntry name data = none) :
    findEntry name (linkData data name n) = some (emptyEntry data) := by
  obtain ⟨hlt, hat⟩ := entryAt_linkData_self h hn hname
  refine findEntry_eq_some hlt ?_ fun j hj de hde => ?_
  · rw [hat]
    exact ⟨hn0, (namecmp_eq_zero_iff hname.nonul hname.length_le hname.nonul hname.length_le).2 rfl⟩
  · rw [getElem?_linkData h hn hname hj.ne] at hde
    exact findEntry_none.1 hnone de (List.mem_of_getElem? hde)

/-! ### An entry that is removed -/

theorem size_clearData (hi : i < (entries data).length) :
    (clearData data i).length = data.length := by
  rw [length_entries] at hi
  rw [clearData, length_splice length_zeroDirent (by omega)]
  omega

/-- The entry is one of number zero. -/
theorem entries_clearData (hi : i < (entries data).length) :
    entries (clearData data i) = (entries data).set i (.ofBytes zeroDirent) :=
  entries_splice_set length_zeroDirent hi

/-! ### Both as one change of the list -/

/-- An entry is put at a place, or after the last one. -/
def putEntry (es : List Dirent) (i : ℕ) (de : Dirent) : List Dirent :=
  es.take i ++ de :: es.drop (i + 1)

variable {es : List Dirent} {q : Dirent → Bool}

theorem entries_linkData_put (h : data.length % 16 = 0) (hn : n < 2 ^ 16) (hname : IsName name) :
    entries (linkData data name n) = putEntry (entries data) (emptyEntry data) ⟨n, name⟩ :=
  entries_linkData h hn hname

theorem entries_clearData_put (hi : i < (entries data).length) :
    entries (clearData data i) = putEntry (entries data) i (.ofBytes zeroDirent) := by
  rw [entries_clearData hi, List.set_eq_take_append_cons_drop, if_pos hi, putEntry]

theorem take_putEntry (hk : k ≤ i) (hi : i ≤ es.length) :
    (putEntry es i de).take k = es.take k := by
  have hlen : (es.take i).length = i := List.length_take_of_le hi
  rw [putEntry, List.take_append_of_le_length (by omega), List.take_take, min_eq_left hk]

theorem drop_putEntry (hk : k ≤ i) (hi : i ≤ es.length) :
    (putEntry es i de).drop k = putEntry (es.drop k) (i - k) de := by
  have hlen : (es.take i).length = i := List.length_take_of_le hi
  rw [putEntry, putEntry, List.drop_append_of_le_length (by omega), List.drop_take, List.drop_drop]
  congr 3
  omega

theorem mem_putEntry {de' : Dirent} (h : de' ∈ putEntry es i de) : de' = de ∨ de' ∈ es := by
  rcases List.mem_append.1 h with h | h
  · exact .inr (List.mem_of_mem_take h)
  · rcases List.mem_cons.1 h with h | h
    · exact .inl h
    · exact .inr (List.mem_of_mem_drop h)

/-- What is counted of the entry that was there is counted of the new one instead. -/
theorem countP_putEntry : (putEntry es i de).countP q + (es[i]?.toList).countP q =
    es.countP q + [de].countP q := by
  have hdrop : es.drop i = es[i]?.toList ++ es.drop (i + 1) := by
    rcases Nat.lt_or_ge i es.length with hi | hi
    · rw [List.drop_eq_getElem_cons hi, List.getElem?_eq_getElem hi]
      rfl
    · rw [List.drop_eq_nil_of_le hi, List.drop_eq_nil_of_le (by omega), List.getElem?_eq_none hi]
      rfl
  have hsplit : es.countP q = (es.take i).countP q + (es.drop i).countP q := by
    rw [← List.countP_append, List.take_append_drop]
  rw [hsplit, hdrop, putEntry, ← List.singleton_append, List.countP_append, List.countP_append,
    List.countP_append]
  omega

end FileSystem
