import CourseProjects.FileSystem.Boot
import CourseProjects.FileSystem.Tree

/-!
# The disk that mkfs makes

* `tree_mkfs`: its one directory has an entry for each file, and the links are as many as the
  entries.
-/

namespace FileSystem

open CString Function

variable {files : List (List UInt8 × List UInt8)} {a b : List UInt8} {des : List Dirent} {k n : ℕ}

/-! ### Entries one after the other -/

theorem entries_append (ha : a.length = 16 * k) : entries (a ++ b) = entries a ++ entries b := by
  refine List.ext_getElem? fun i => ?_
  have hlen : (entries a).length = k := by
    rw [length_entries, ha, Nat.mul_div_cancel_left _ (by decide)]
  rcases Nat.lt_or_ge i k with hi | hi
  · have hat : direntAt (a ++ b) i = direntAt a i := by
      rw [direntAt, direntAt, List.drop_append_of_le_length (by omega),
        List.take_append_of_le_length (by rw [List.length_drop]; omega)]
    rw [List.getElem?_append_left (by omega), getElem?_entries, getElem?_entries, hat,
      List.length_append, if_pos (by omega), if_pos (by omega)]
  · have hat : direntAt (a ++ b) i = direntAt b (i - k) := by
      rw [direntAt, direntAt, List.drop_append, List.drop_eq_nil_of_le (by omega), List.nil_append]
      congr 2
      omega
    rw [List.getElem?_append_right (by omega), hlen, getElem?_entries, getElem?_entries, hat,
      List.length_append]
    congr 1
    rw [eq_iff_iff]
    omega

theorem length_flatMap_bytes : (des.flatMap Dirent.bytes).length = 16 * des.length := by
  induction des with
  | nil => rfl
  | cons de des ih =>
    rw [List.flatMap_cons, List.length_append, Dirent.length_bytes, ih, List.length_cons]
    omega

theorem entries_bytes {de : Dirent} (hi : de.inum < 2 ^ 16) (hname : IsName de.name) :
    entries de.bytes = [de] := by
  have hat : direntAt de.bytes 0 = de.bytes := by
    rw [direntAt, Nat.mul_zero, List.drop_zero, List.take_of_length_le (Dirent.length_bytes de).le]
  rw [entries, Dirent.length_bytes]
  change [Dirent.ofBytes (direntAt de.bytes 0)] = [de]
  rw [hat, Dirent.ofBytes_bytes hi hname.nonul hname.length_le]

theorem entries_flatMap_bytes (h : ∀ de ∈ des, de.inum < 2 ^ 16 ∧ IsName de.name) :
    entries (des.flatMap Dirent.bytes) = des := by
  induction des with
  | nil => rfl
  | cons de des ih =>
    obtain ⟨hi, hname⟩ := h de List.mem_cons_self
    rw [List.flatMap_cons, entries_append (k := 1) (Dirent.length_bytes de), entries_bytes hi hname,
      ih fun de hde => h de (List.mem_cons_of_mem _ hde), List.singleton_append]

/-- The rest of a block is not in use. -/
theorem inum_zeros {de : Dirent} (h : de ∈ entries (List.replicate n 0)) : de.inum = 0 := by
  obtain ⟨i, -, rfl⟩ := List.mem_map.1 h
  have hat : ∀ j, (direntAt (List.replicate n 0) i).getD j 0 = 0 := by
    intro j
    rw [direntAt, List.drop_replicate, List.take_replicate, List.getD_eq_getElem?_getD,
      List.getElem?_replicate]
    split
    · rfl
    · rfl
  rw [Dirent.ofBytes]
  dsimp only
  rw [hat, hat]
  rfl

/-! ### The root directory -/

/-- The files have names, and there are inodes and blocks for them. -/
structure Fits (files : List (List UInt8 × List UInt8)) : Prop where
  name : ∀ file ∈ files, IsName file.1 ∧ file.1 ≠ dot ∧ file.1 ≠ dotdot
  inodes : files.length + 2 ≤ ninodes
  used : usedBlocks (mkfs files) ≤ nblocks

/-- The entries for the files. -/
def fileEntries (files : List (List UInt8 × List UInt8)) : List Dirent :=
  (files.map Prod.fst).zipIdx.map fun a => ⟨a.2 + 2, a.1⟩

theorem mem_fileEntries {de : Dirent} (h : de ∈ fileEntries files) :
    ∃ i, ∃ file, files[i]? = some file ∧ de = ⟨i + 2, file.1⟩ := by
  obtain ⟨⟨name, i⟩, hmem, rfl⟩ := List.mem_map.1 h
  rw [List.mk_mem_zipIdx_iff_getElem?, List.getElem?_map, Option.map_eq_some_iff] at hmem
  obtain ⟨file, hfile, rfl⟩ := hmem
  exact ⟨i, file, hfile, rfl⟩

/-- The root directory: `.` and `..`, the files, and what is not in use. -/
theorem entries_mkfsRoot (h : Fits files) : ∃ rest, (∀ de ∈ rest, de.inum = 0) ∧
    entries (mkfs files rootino).data =
      ⟨rootino, dot⟩ :: ⟨rootino, dotdot⟩ :: (fileEntries files ++ rest) := by
  have hdes : ∀ de ∈ ⟨rootino, dot⟩ :: ⟨rootino, dotdot⟩ :: fileEntries files,
      de.inum < 2 ^ 16 ∧ IsName de.name := by
    intro de hde
    rcases List.mem_cons.1 hde with rfl | hde
    · exact ⟨by decide, by decide, by decide, by decide⟩
    · rcases List.mem_cons.1 hde with rfl | hde
      · exact ⟨by decide, by decide, by decide, by decide⟩
      · obtain ⟨i, file, hfile, rfl⟩ := mem_fileEntries hde
        obtain ⟨hlt, -⟩ := List.getElem?_eq_some_iff.1 hfile
        have := h.inodes
        refine ⟨?_, (h.name file (List.mem_of_getElem? hfile)).1⟩
        change i + 2 < 65536
        have : ninodes = 200 := rfl
        omega
  have hall : ∀ j, entries ((⟨rootino, dot⟩ :: ⟨rootino, dotdot⟩ :: fileEntries files).flatMap
      Dirent.bytes ++ List.replicate j 0) = ⟨rootino, dot⟩ :: ⟨rootino, dotdot⟩ ::
        (fileEntries files ++ entries (List.replicate j 0)) := by
    intro j
    rw [entries_append length_flatMap_bytes, entries_flatMap_bytes hdes]
    rfl
  exact ⟨_, fun de hde => inum_zeros hde, hall _⟩

theorem linkedDir_mkfs : (mkfs files n).LinkedDir ↔ n = rootino := by
  constructor
  · intro h
    by_contra hn
    rw [mkfs, if_neg hn] at h
    split at h
    · cases h.1
    · split at h
      · cases h.1
      · cases h.1
  · rintro rfl
    rw [mkfs, if_pos rfl]
    exact ⟨rfl, one_ne_zero⟩

theorem mkfs_file {i : ℕ} {file : List UInt8 × List UInt8} (h : files[i]? = some file) :
    mkfs files (i + 2) = mkfsInode .file file.2 := by
  have hroot : i + 2 ≠ rootino := by
    change i + 2 ≠ 1
    omega
  rw [mkfs, if_neg hroot, if_neg (by omega), Nat.add_sub_cancel, h]

/-- The inodes in use are the root directory and the files. -/
theorem type_mkfs (h : (mkfs files n).type ≠ .free) :
    n = rootino ∨ ∃ i file, n = i + 2 ∧ files[i]? = some file := by
  by_cases hn : n = rootino
  · exact .inl hn
  · rw [mkfs, if_neg hn] at h
    split at h
    · exact absurd rfl h
    · split at h
      · rename_i hn0 file hfile
        have : rootino = 1 := rfl
        exact .inr ⟨n - 2, file, by omega, hfile⟩
      · exact absurd rfl h

theorem naming_mkfs : naming (mkfs files) n = (mkfs files rootino).naming n := by
  refine Finset.sum_eq_single_of_mem rootino (Finset.mem_range.2 (by decide)) fun m _ hm => ?_
  exact naming_of_not_linkedDir fun hd => hm (linkedDir_mkfs.1 hd)

theorem countP_rest {rest : List Dirent} (h : ∀ de ∈ rest, de.inum = 0) (hn : n ≠ 0) :
    rest.countP (Dirent.links n) = 0 := by
  refine List.countP_eq_zero.2 fun de hde hlinks => ?_
  rw [Dirent.links, decide_eq_true_eq, h de hde] at hlinks
  exact hn hlinks.1.symm

/-- A name has one entry. -/
theorem countP_zipIdx {names : List (List UInt8)} (h : ∀ name ∈ names, name ≠ dot) :
    ((names.zipIdx k).map fun a => (⟨a.2 + 2, a.1⟩ : Dirent)).countP (Dirent.links n) =
      if k + 2 ≤ n ∧ n < k + 2 + names.length then 1 else 0 := by
  induction names generalizing k with
  | nil =>
    rw [if_neg (by rw [List.length_nil]; omega)]
    rfl
  | cons name names ih =>
    have hlinks : Dirent.links n ⟨k + 2, name⟩ = decide (k + 2 = n) := by
      rw [Dirent.links, decide_eq_decide, and_iff_left (h name List.mem_cons_self)]
    rw [List.zipIdx_cons, List.map_cons, List.countP_cons, hlinks,
      ih fun name hname => h name (List.mem_cons_of_mem _ hname), List.length_cons]
    simp only [decide_eq_true_eq]
    split
    · split
      · omega
      · rw [if_pos (by omega)]
    · split
      · rw [if_pos (by omega)]
      · rw [if_neg (by omega)]

/-- A file has one entry. -/
theorem countP_fileEntries (h : Fits files) : (fileEntries files).countP (Dirent.links n) =
    if 2 ≤ n ∧ n < files.length + 2 then 1 else 0 := by
  have hname : ∀ name ∈ files.map Prod.fst, name ≠ dot := by
    intro name hmem
    obtain ⟨file, hfile, rfl⟩ := List.mem_map.1 hmem
    exact (h.name file hfile).2.1
  rw [fileEntries, countP_zipIdx hname, List.length_map, Nat.zero_add, Nat.add_comm 2]

/-- The links that the root directory makes. -/
theorem naming_root (h : Fits files) (hn : n ≠ 0) : (mkfs files rootino).naming n =
    (if n = rootino then 1 else 0) + if 2 ≤ n ∧ n < files.length + 2 then 1 else 0 := by
  obtain ⟨rest, hrest, hentries⟩ := entries_mkfsRoot h
  have hdot : Dirent.links n ⟨rootino, dot⟩ = false := by simp [Dirent.links]
  have hdotdot : Dirent.links n ⟨rootino, dotdot⟩ = decide (n = rootino) := by
    rw [Dirent.links, decide_eq_decide, and_iff_left (show dotdot ≠ dot by decide)]
    exact eq_comm
  rw [naming_of_linkedDir (linkedDir_mkfs.2 rfl), hentries,
    List.countP_cons_of_neg (by rw [hdot]; decide), List.countP_cons, hdotdot, List.countP_append,
    countP_rest hrest hn, countP_fileEntries h, add_zero, add_comm]
  simp only [decide_eq_true_eq]

/-- The directories form a tree. -/
theorem shape_mkfs (h : Fits files) : Shape 0 (mkfs files) := by
  obtain ⟨rest, hrest, hentries⟩ := entries_mkfsRoot h
  have hroot : (mkfs files rootino).LinkedDir := linkedDir_mkfs.2 rfl
  have hup : (mkfs files rootino).up = rootino := by
    rw [Dinode.up, hentries]
    rfl
  constructor
  case root => exact hroot
  case rootUp => exact hup
  case inum =>
    intro m hm
    rw [linkedDir_mkfs.1 hm]
    decide
  case size =>
    intro m hm
    have hlen : (mkfs files rootino).size = (mkfsRoot (files.map Prod.fst)).length := rfl
    have hin := h.inodes
    rw [linkedDir_mkfs.1 hm, hlen, mkfsRoot]
    rw [List.length_append, List.length_replicate, length_flatMap_bytes]
    simp only [List.length_cons, List.length_map, List.length_zipIdx]
    have h1 : ninodes = 200 := rfl
    have h2 : bsize = 512 := rfl
    have h3 : maxfile * bsize = 69120 := rfl
    rw [h2] at h3 ⊢
    omega
  case dots =>
    intro m hm
    obtain rfl := linkedDir_mkfs.1 hm
    rw [hentries, hup]
    rfl
  case up =>
    intro m hm
    rw [linkedDir_mkfs.1 hm, hup]
    exact hroot
  case upNe => exact fun m hm hne => absurd (linkedDir_mkfs.1 hm) hne
  case kid =>
    intro m hm de hde hde0
    obtain rfl := linkedDir_mkfs.1 hm
    rw [Dinode.kids, hentries] at hde
    rcases List.mem_append.1 hde with hde | hde
    · obtain ⟨i, file, hfile, rfl⟩ := mem_fileEntries hde
      obtain ⟨hlt, -⟩ := List.getElem?_eq_some_iff.1 hfile
      obtain ⟨-, hdot, hdotdot⟩ := h.name file (List.mem_of_getElem? hfile)
      have hin := h.inodes
      dsimp only
      rw [mkfs_file hfile]
      refine ⟨hdot, hdotdot, by omega, ⟨?_, one_ne_zero⟩, ?_⟩
      · intro htype
        cases htype
      · intro hdir
        cases hdir
    · exact absurd (hrest de hde) hde0
  case once => exact fun m hm hne => absurd (linkedDir_mkfs.1 hm) hne

/-- The disk that `mkfs` makes is a tree. -/
theorem tree_mkfs (h : Fits files) : Tree (mkfs files) := by
  refine ⟨shape_mkfs h, fun n hn hn' hfree => ?_⟩
  rw [naming_mkfs, naming_root h (by omega)]
  rcases type_mkfs hfree with rfl | ⟨i, file, rfl, hfile⟩
  · rw [if_pos rfl, if_neg fun h => absurd h.1 (by decide)]
    rfl
  · obtain ⟨hlt, -⟩ := List.getElem?_eq_some_iff.1 hfile
    rw [mkfs_file hfile, if_neg (by change i + 2 ≠ 1; omega), if_pos (by omega)]
    rfl

end FileSystem
