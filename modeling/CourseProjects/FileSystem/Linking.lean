import CourseProjects.FileSystem.Tree

/-!
# Links that come and go

What `create`, `link` and `unlink` do to the disk keeps the directory tree.

* `Tree.create`: a free inode becomes a new one with an entry;
* `Tree.link`: an inode that is no directory gets one more entry;
* `Tree.unlink`: an inode loses an entry, and a directory, which is empty, its `..`.
-/

namespace FileSystem

open CString Function

variable {disk : ℕ → Dinode} {x m n k i : ℕ} {d : Dinode} {name : List UInt8} {type : InodeType}
  {major minor : ℤ}

/-- The number of links of an inode fits into a `short`. -/
theorem short_eq {a : ℤ} (h : -1 ≤ a) (h' : a ≤ 30113) : short a = a := by
  rw [short, Int.bmod_def]
  have : a % (2 ^ 16 : ℕ) = if a < 0 then a + 2 ^ 16 else a := by
    split <;> omega
  omega

/-! ### Entries that are written -/

/-- A directory of the tree can take an entry with a name that it does not have yet. -/
structure Dinode.Room (d : Dinode) (name : List UInt8) : Prop where
  dir : d.LinkedDir
  isName : IsName name
  fresh : findEntry name d.data = none
  full : d.size % 16 = 0
  size : 16 * emptyEntry d.data + 16 ≤ maxfile * bsize

namespace Shape

variable (h : Shape x disk)
include h

/-- `.` and `..` are in use. -/
theorem two_le_emptyEntry (hm : (disk m).LinkedDir) : 2 ≤ emptyEntry (disk m).data := by
  have h1 := (h.inum m hm).1
  have h2 := h.up_pos hm
  rw [emptyEntry, h.entries_eq hm, List.findIdx_cons, List.findIdx_cons]
  simp only [decide_eq_false (show m ≠ 0 by omega),
    decide_eq_false (show (disk m).up ≠ 0 by omega), cond_false]
  omega

/-- A name that is not there is neither `.` nor `..`. -/
theorem name_ne (hr : (disk m).Room name) : name ≠ dot ∧ name ≠ dotdot := by
  have h1 := (h.inum m hr.dir).1
  have h2 := h.up_pos hr.dir
  have hnone := hr.fresh
  rw [findEntry_none, h.entries_eq hr.dir] at hnone
  have hself : namecmp dot dot = 0 ∧ namecmp dotdot dotdot = 0 := by decide
  constructor
  · rintro rfl
    exact hnone _ List.mem_cons_self ⟨by dsimp only; omega, hself.1⟩
  · rintro rfl
    exact hnone _ (List.mem_cons_of_mem _ List.mem_cons_self) ⟨by dsimp only; omega, hself.2⟩

/-- `dirlink` puts an entry at a place. -/
theorem putEntry_link (hr : (disk m).Room name) (hn : n < 2 ^ 16) (hd : d.LinkedDir)
    (hdata : d.data = linkData (disk m).data name n) :
    PutEntry (disk m) (emptyEntry (disk m).data) ⟨n, name⟩ d where
  dir := hr.dir
  dir' := hd
  size := by
    have hle := emptyEntry_le (disk m).data
    rw [length_entries] at hle
    have hlt := h.size m hr.dir
    rw [Dinode.size] at hlt
    rw [Dinode.size, hdata, linkData, length_splice (Dirent.length_bytes _) (by omega)]
    exact max_le hlt hr.size
  entries := by rw [hdata, entries_linkData_put hr.full hn hr.isName]
  two_le := h.two_le_emptyEntry hr.dir
  le := emptyEntry_le _

end Shape

theorem inum_getElem_emptyEntry {data : List UInt8} :
    ∀ de ∈ (entries data)[emptyEntry data]?, de.inum = 0 := by
  intro de hde
  obtain ⟨hlt, rfl⟩ := List.getElem?_eq_some_iff.1 hde
  exact inum_emptyEntry hlt

/-- The entry that is overwritten is no link. -/
theorem countP_emptyEntry {data : List UInt8} (hn : n ≠ 0) :
    ((entries data)[emptyEntry data]?.toList).countP (Dirent.links n) = 0 := by
  refine List.countP_eq_zero.2 fun de hde => ?_
  rw [Dirent.links_eq_false]
  · exact Bool.false_ne_true
  · rw [inum_getElem_emptyEntry de (Option.mem_toList.1 hde)]
    exact hn.symm

theorem countP_singleton_links (hname : name ≠ dot) :
    [(⟨n, name⟩ : Dirent)].countP (Dirent.links k) = if n = k then 1 else 0 := by
  rw [List.countP_singleton]
  simp only [Dirent.links, decide_eq_true_eq, and_iff_left hname]

/-! ### A new inode -/

theorem entries_dotsData (hn : n ≠ 0) (hn' : n < 2 ^ 16) (hm : m < 2 ^ 16) :
    entries (dotsData n m) = [⟨n, dot⟩, ⟨m, dotdot⟩] := by
  have hdot : IsName dot := ⟨by decide, by decide, by decide⟩
  have hdotdot : IsName dotdot := ⟨by decide, by decide, by decide⟩
  have hentries : entries (linkData [] dot n) = [⟨n, dot⟩] := entries_linkData rfl hn' hdot
  have hempty : emptyEntry (linkData [] dot n) = 1 := by
    rw [emptyEntry, hentries, List.findIdx_singleton, if_neg (by simpa using hn)]
  rw [dotsData, entries_linkData (size_linkData rfl) hm hdotdot, hempty, hentries]
  rfl

/-- The entries of a new directory. -/
theorem entries_newInode (hn : n ≠ 0) (hn' : n < 2 ^ 16) (hm : m < 2 ^ 16) :
    entries (newInode .dir major minor n m).data = [⟨n, dot⟩, ⟨m, dotdot⟩] :=
  entries_dotsData hn hn' hm

/-- A new inode may be put where one is free. -/
theorem Shape.birth (h : Shape 0 disk) (hfree : (disk n).type = .free) (hn : 1 ≤ n)
    (hn' : n < ninodes) (hm : (disk m).LinkedDir) :
    Shape n (update disk n (newInode type major minor n m)) := by
  have hl : ¬ (disk n).Linked := fun hl => hl.1 hfree
  have hne : ∀ k, (disk k).LinkedDir → k ≠ n := by
    rintro k hk rfl
    exact hl hk.linked
  have hm' := h.inum m hm
  refine h.weaken.set hn (hne _ h.root).symm (fun k hk _ => ?_) fun hv => ?_
  · exact ⟨hne _ (h.up k hk), h.kids_eq_zero hk (by omega) hl⟩
  · obtain rfl : type = .dir := hv.1
    have hentries : entries (newInode .dir major minor n m).data = [⟨n, dot⟩, ⟨m, dotdot⟩] :=
      entries_newInode (by omega) (hn'.trans (by decide)) (hm'.2.trans (by decide))
    have hup : (newInode .dir major minor n m).up = m := by
      rw [Dinode.up, hentries]
      rfl
    constructor
    case lt => exact hn'
    case size =>
      have hlen : (newInode .dir major minor n m).size = 32 :=
        length_dotsData (by omega) (hn'.trans (by decide))
      rw [hlen]
      decide
    case dots =>
      rw [hentries, hup]
      rfl
    case ne =>
      rw [hup]
      exact hne m hm
    case up =>
      rw [hup]
      exact hm
    case kids =>
      rw [Dinode.kids, hentries]
      rfl

/-- The links that a new inode makes. -/
theorem naming_newInode (hn : n ≠ 0) (hn' : n < 2 ^ 16) (hm : m < 2 ^ 16) :
    (newInode type major minor n m).naming k = if type = .dir ∧ m = k then 1 else 0 := by
  by_cases htype : type = .dir
  · subst htype
    have hdir : (newInode .dir major minor n m).LinkedDir := ⟨rfl, one_ne_zero⟩
    have hdot : Dirent.links k ⟨n, dot⟩ = false := by simp [Dirent.links]
    rw [naming_of_linkedDir hdir, entries_newInode hn hn' hm,
      List.countP_cons_of_neg (by rw [hdot]; decide), countP_singleton_links (by decide)]
    simp
  · rw [naming_of_not_linkedDir fun hd => htype hd.1, if_neg fun h => htype h.1]

/-- The links of an inode are counted with a `short`. -/
theorem Tree.short_links (h : Tree disk) (hused : usedBlocks disk ≤ nblocks) (hm : 1 ≤ m)
    (hm' : m < ninodes) (hl : (disk m).type ≠ .free) :
    short ((disk m).nlink + 1) = naming disk m + 1 ∧
      short ((disk m).nlink - 1) = naming disk m - 1 := by
  have hle : naming disk m ≤ 30112 := naming_le hused
  rw [h.links m hm hm' hl]
  exact ⟨short_eq (by omega) (by omega), short_eq (by omega) (by omega)⟩

theorem newDisk_eq (hnm : n ≠ m) : newDisk disk type major minor m n name =
    update (update disk n (newInode type major minor n m)) m
      (parentInode (disk m) type name n) :=
  update_comm hnm.symm _ _ _

variable (type) in
/-- The directory has an entry more, and a link for `..` of a new directory. -/
theorem Tree.parent_create (h : Tree disk) (hused : usedBlocks disk ≤ nblocks) (hn : n < ninodes)
    (hr : (disk m).Room name) :
    PutEntry (disk m) (emptyEntry (disk m).data) ⟨n, name⟩ (parentInode (disk m) type name n) := by
  have hm := h.inum m hr.dir
  have hshort := (h.short_links hused hm.1 hm.2 hr.dir.linked.1).1
  refine h.putEntry_link hr (hn.trans (by decide)) ⟨hr.dir.1, ?_⟩ rfl
  rw [parentInode]
  dsimp only
  split
  · omega
  · exact hr.dir.2

section Create

variable (h : Tree disk) (hused : usedBlocks disk ≤ nblocks) (hfree : (disk n).type = .free)
  (hn : 1 ≤ n) (hn' : n < ninodes) (hr : (disk m).Room name)
include h hused hfree hn hn' hr

theorem Tree.naming_create (hk : k ≠ 0) :
    naming (newDisk disk type major minor m n name) k =
      naming disk k + (if n = k then 1 else 0) + if type = .dir ∧ m = k then 1 else 0 := by
  have hm := h.inum m hr.dir
  have hnm : n ≠ m := fun hnm => hr.dir.linked.1 (hnm ▸ hfree)
  have h₁ := naming_update disk k (newInode type major minor n m) hn'
  have h₂ := naming_update (update disk n (newInode type major minor n m)) k
    (parentInode (disk m) type name n) hm.2
  have h₃ := (h.parent_create type hused hn' hr).naming (n := k)
  rw [naming_of_not_linkedDir fun hd => hd.linked.1 hfree,
    naming_newInode (by omega) (hn'.trans (by decide)) (hm.2.trans (by decide))] at h₁
  rw [update_of_ne hnm.symm, ← newDisk_eq hnm] at h₂
  rw [countP_emptyEntry hk, countP_singleton_links (h.name_ne hr).1] at h₃
  omega

theorem Tree.shape_create (htype : type ≠ .free) :
    Shape 0 (newDisk disk type major minor m n name) := by
  have hl : ¬ (disk n).Linked := fun hl => hl.1 hfree
  have hm := h.inum m hr.dir
  have hnm : n ≠ m := fun hnm => hr.dir.linked.1 (hnm ▸ hfree)
  obtain ⟨hdot, hdotdot⟩ := h.name_ne hr
  have hput := h.parent_create type hused hn' hr
  have hroot : n ≠ rootino := by
    rintro rfl
    exact hl h.root.linked
  have hup : type = .dir → (newInode type major minor n m).up = m := by
    rintro rfl
    rw [Dinode.up, entries_newInode (by omega) (hn'.trans (by decide)) (hm.2.trans (by decide))]
    rfl
  have hA : update disk n (newInode type major minor n m) m = disk m := update_of_ne hnm.symm _ _
  have hput' : PutEntry (update disk n (newInode type major minor n m) m)
      (emptyEntry (disk m).data) ⟨n, name⟩ (parentInode (disk m) type name n) := by
    rw [hA]
    exact hput
  have hshape : Shape n (newDisk disk type major minor m n name) := by
    rw [newDisk_eq hnm]
    refine (h.birth hfree hn hn' hr.dir).put hput' (fun de hde => ?_)
      (.inr ⟨rfl, hdot, hdotdot, hn', ?_⟩)
    · rw [hA] at hde
      exact .inl (inum_getElem_emptyEntry de hde)
    · rw [update_self]
      exact ⟨⟨htype, one_ne_zero⟩, fun hd => ⟨hroot, hup hd⟩⟩
  refine hshape.complete fun hd _ => ?_
  rw [newDisk, update_self] at hd ⊢
  have hcount := hput.countP_kids (n := n)
  rw [h.kids_eq_zero hr.dir (by omega) hl, countP_emptyEntry (by omega),
    countP_singleton_links hdot, if_pos rfl] at hcount
  rw [hup hd.1, update_of_ne hnm.symm, update_self]
  exact hcount

/-- What `create` leaves is a tree. -/
theorem Tree.create (htype : type ≠ .free) : Tree (newDisk disk type major minor m n name) := by
  have hl : ¬ (disk n).Linked := fun hl => hl.1 hfree
  have hm := h.inum m hr.dir
  have hnm : n ≠ m := fun hnm => hr.dir.linked.1 (hnm ▸ hfree)
  refine ⟨h.shape_create hused hfree hn hn' hr htype, fun k hk hk' hkfree => ?_⟩
  rw [h.naming_create hused hfree hn hn' hr (by omega)]
  by_cases hkn : n = k
  · subst hkn
    rw [newDisk, update_self, h.naming_eq_zero (by omega) hl, if_pos rfl,
      if_neg fun h => hnm h.2.symm, zero_add, add_zero, Nat.cast_one, newInode]
  · rw [newDisk, update_of_ne (Ne.symm hkn)] at hkfree ⊢
    rw [if_neg hkn, add_zero]
    by_cases hkm : m = k
    · subst hkm
      have hlinks := h.links m hk hk' hr.dir.linked.1
      have hshort := (h.short_links hused hk hk' hr.dir.linked.1).1
      rw [update_self, parentInode, Nat.cast_add]
      by_cases htype : type = .dir
      · rw [if_pos htype, if_pos ⟨htype, rfl⟩, hshort, Nat.cast_one]
      · rw [if_neg htype, if_neg fun h => htype h.1, hlinks, Nat.cast_zero, add_zero]
    · rw [update_of_ne (Ne.symm hkm)] at hkfree ⊢
      rw [if_neg fun h => hkm h.2, add_zero, h.links k hk hk' hkfree]

end Create

/-! ### One more link -/

/-- The inode has one link more. -/
def Dinode.raise (d : Dinode) : Dinode := { d with nlink := short (d.nlink + 1) }

/-- The inode has one link less. -/
def Dinode.lower (d : Dinode) : Dinode := { d with nlink := short (d.nlink - 1) }

section Link

variable (h : Tree disk) (hused : usedBlocks disk ≤ nblocks) (hn : 1 ≤ n) (hn' : n < ninodes)
  (hfree : (disk n).type ≠ .free) (hdir : (disk n).type ≠ .dir)
include h hused hn hn' hfree

/-- The link count alone says nothing about the directories. -/
theorem Tree.sameShape_raise : (disk n).Linked → (disk n).SameShape (disk n).raise := by
  intro hl
  have hshort := (h.short_links hused hn hn' hfree).1
  have hne : short ((disk n).nlink + 1) ≠ 0 := by omega
  exact ⟨and_congr_right fun _ => iff_of_true hne hl.2, fun _ => rfl, fun hl => ⟨⟨hl.1, hne⟩, rfl⟩⟩

theorem Tree.shape_raise (hl : (disk n).Linked) : Shape 0 (update disk n (disk n).raise) :=
  h.toShape.congr (forall_update .refl (h.sameShape_raise hused hn hn' hfree hl))

/-- A link that is not made after all is taken back. -/
theorem Tree.lower_raise : (disk n).raise.lower = disk n := by
  have hle : naming disk n ≤ 30112 := naming_le hused
  have hlinks := h.links n hn hn' hfree
  have hshort := (h.short_links hused hn hn' hfree).1
  rw [Dinode.raise, Dinode.lower]
  dsimp only
  rw [hshort, short_eq (by omega) (by omega), add_sub_cancel_right, ← hlinks]

include hdir

/-- What `link` leaves is a tree. -/
theorem Tree.link (hl : (disk n).Linked) (hr : (disk m).Room name) :
    Tree (update (update disk n (disk n).raise) m
      { disk m with data := linkData (disk m).data name n }) := by
  have hm := h.inum m hr.dir
  have hnm : n ≠ m := fun hnm => hdir (hnm ▸ hr.dir.1)
  obtain ⟨hdot, hdotdot⟩ := h.name_ne hr
  have hA : update disk n (disk n).raise m = disk m := update_of_ne hnm.symm _ _
  have hput : PutEntry (disk m) (emptyEntry (disk m).data) ⟨n, name⟩
      { disk m with data := linkData (disk m).data name n } :=
    h.putEntry_link hr (hn'.trans (by decide)) hr.dir rfl
  have hput' : PutEntry (update disk n (disk n).raise m) (emptyEntry (disk m).data) ⟨n, name⟩
      { disk m with data := linkData (disk m).data name n } := by
    rw [hA]
    exact hput
  have hsame := h.sameShape_raise hused hn hn' hfree hl
  have hnaming : ∀ k, k ≠ 0 → naming (update (update disk n (disk n).raise) m
      { disk m with data := linkData (disk m).data name n }) k =
        naming disk k + if n = k then 1 else 0 := by
    intro k hk
    have h₁ := naming_update (update disk n (disk n).raise) k
      { disk m with data := linkData (disk m).data name n } hm.2
    have h₂ := hput.naming (n := k)
    rw [hA, naming_congr (forall_update .refl hsame)] at h₁
    rw [countP_emptyEntry hk, countP_singleton_links hdot] at h₂
    omega
  have hshape : Shape n (update (update disk n (disk n).raise) m
      { disk m with data := linkData (disk m).data name n }) := by
    refine (h.shape_raise hused hn hn' hfree hl).weaken.put hput' (fun de hde => ?_)
      (.inr ⟨rfl, hdot, hdotdot, hn', ?_⟩)
    · rw [hA] at hde
      exact .inl (inum_getElem_emptyEntry de hde)
    · rw [update_self]
      exact ⟨(hsame.2.2 hl).1, fun hd => absurd hd hdir⟩
  refine ⟨hshape.complete fun hd => ?_, fun k hk hk' hkfree => ?_⟩
  · rw [update_of_ne hnm, update_self] at hd
    exact absurd hd.1 hdir
  · rw [hnaming k (by omega)]
    by_cases hkm : k = m
    · subst hkm
      rw [update_self, if_neg hnm, add_zero]
      exact h.links k hk hk' hr.dir.linked.1
    · rw [update_of_ne hkm] at hkfree ⊢
      by_cases hkn : k = n
      · subst hkn
        rw [update_self, if_pos rfl, Nat.cast_add, Nat.cast_one]
        exact (h.short_links hused hk hk' hfree).1
      · rw [update_of_ne hkn] at hkfree ⊢
        rw [if_neg (Ne.symm hkn), add_zero]
        exact h.links k hk hk' hkfree

end Link

/-! ### One link less -/

/-- The directory that an entry is removed from. -/
def Dinode.bereft (d : Dinode) (type : InodeType) (i : ℕ) : Dinode :=
  { d with
    data := clearData d.data i
    nlink := if type = .dir then short (d.nlink - 1) else d.nlink }

/-- The disk after the entry for the inode `n` has been removed from the directory `m`. -/
def unlinkDisk (disk : ℕ → Dinode) (m n i : ℕ) : ℕ → Dinode :=
  update (update disk m ((disk m).bereft (disk n).type i)) n (disk n).lower

/-- The entry of a directory of the tree may be removed. -/
structure Removable (disk : ℕ → Dinode) (m n i : ℕ) : Prop where
  dir : (disk m).LinkedDir
  two_le : 2 ≤ i
  entry : ∃ de ∈ (entries (disk m).data)[i]?, de.inum = n
  ne : n ≠ 0
  empty : (disk n).type = .dir → isdirempty (disk n) = true

theorem Removable.kid (hr : Removable disk m n i) : ∃ de ∈ (disk m).kids, de.inum = n ∧
    (entries (disk m).data)[i]? = some de := by
  obtain ⟨de, hde, hden⟩ := hr.entry
  refine ⟨de, ?_, hden, hde⟩
  have hi : (disk m).kids[i - 2]? = (entries (disk m).data)[i]? := by
    rw [Dinode.kids, List.getElem?_drop, Nat.add_sub_cancel' hr.two_le]
  exact List.mem_of_getElem? (hi.trans hde)

section Unlink

variable (h : Tree disk) (hr : Removable disk m n i)
include h hr

/-- The inode is in the tree, and a directory is below the other one. -/
theorem Tree.removable_linked : n < ninodes ∧ (disk n).Linked ∧ n ≠ m ∧
    ((disk n).type = .dir → n ≠ rootino ∧ (disk n).up = m) := by
  obtain ⟨de, hde, rfl, -⟩ := hr.kid
  obtain ⟨-, -, hlt, hl, hd⟩ := h.kid m hr.dir de hde hr.ne
  refine ⟨hlt, hl, ?_, hd⟩
  intro hm
  obtain ⟨hroot, hup⟩ := hd (hm ▸ hr.dir.1)
  exact h.upNe _ ⟨hm ▸ hr.dir.1, hl.2⟩ hroot (hup.trans hm.symm)

/-- Nothing is below an empty directory. -/
theorem Tree.up_ne_of_empty (hd : (disk n).type = .dir) (hk : (disk k).LinkedDir) :
    (disk k).up ≠ n ∧ ∀ c, c ≠ 0 → (disk n).kids.countP (Dirent.links c) = 0 := by
  have hkids : ∀ c, c ≠ 0 → (disk n).kids.countP (Dirent.links c) = 0 := by
    intro c hc
    refine List.countP_eq_zero.2 fun de hde hlinks => ?_
    have hzero := List.all_eq_true.1 (hr.empty hd) de hde
    rw [Dirent.links, decide_eq_true_eq] at hlinks
    rw [decide_eq_true_eq] at hzero
    exact hc (hlinks.1 ▸ hzero)
  refine ⟨fun hup => ?_, hkids⟩
  have hroot := ((h.removable_linked hr).2.2.2 hd).1
  by_cases hkr : k = rootino
  · subst hkr
    exact hroot (hup.symm.trans h.rootUp)
  · have hk0 : k ≠ 0 := by
      have := (h.inum k hk).1
      omega
    have honce := h.once k hk hkr hk0
    rw [hup, hkids k hk0] at honce
    exact absurd honce (by decide)

/-- An empty directory has one link. -/
theorem Tree.naming_empty (hd : (disk n).type = .dir) : naming disk n = 1 := by
  obtain ⟨hlt, hl, -, hdir⟩ := h.removable_linked hr
  obtain ⟨hroot, hup⟩ := hdir hd
  have hother : ∀ k ∈ Finset.range ninodes, k ≠ m → (disk k).naming n = 0 := by
    intro k _ hkm
    by_cases hk : (disk k).LinkedDir
    · rw [h.naming_dir hk, if_neg (h.up_ne_of_empty hr hd hk).1, zero_add]
      refine List.countP_eq_zero.2 fun de hde hlinks => hkm ?_
      rw [Dirent.links, decide_eq_true_eq] at hlinks
      obtain ⟨rfl, -⟩ := hlinks
      exact (((h.kid k hk de hde hr.ne).2.2.2.2 hd).2).symm.trans hup
    · exact naming_of_not_linkedDir hk
  have hm := h.inum m hr.dir
  have honce := h.once n ⟨hd, hl.2⟩ hroot hr.ne
  rw [hup] at honce
  rw [naming, Finset.sum_eq_single_of_mem m (Finset.mem_range.2 hm.2) hother,
    h.naming_dir hr.dir, if_neg (h.up_ne_of_empty hr hd hr.dir).1, honce]

/-- The directory has another link than the `..` of the one below it. -/
theorem Tree.two_le_naming (hd : (disk n).type = .dir) : 2 ≤ naming disk m := by
  obtain ⟨hlt, hl, hnm, hdir⟩ := h.removable_linked hr
  obtain ⟨hroot, hup⟩ := hdir hd
  have hm := h.inum m hr.dir
  have hn1 : (disk n).naming m = 1 := by
    rw [h.naming_dir ⟨hd, hl.2⟩, if_pos hup,
      (h.up_ne_of_empty hr hd hr.dir).2 m (by omega)]
  by_cases hmr : m = rootino
  · have hself : 1 ≤ (disk m).naming m := by
      have hrootUp := h.rootUp
      rw [← hmr] at hrootUp
      rw [h.naming_dir hr.dir, if_pos hrootUp]
      omega
    have := add_le_naming disk m hlt hm.2 hnm
    omega
  · have hupm : 1 ≤ (disk (disk m).up).naming m := by
      rw [h.naming_dir (h.up m hr.dir), h.once m hr.dir hmr (by omega)]
      omega
    have := add_le_naming disk m hlt (h.up_lt hr.dir)
      (h.up_ne_of_empty hr hd hr.dir).1.symm
    omega

variable (hused : usedBlocks disk ≤ nblocks)
include hused

/-- The directory stays in the tree. -/
theorem Tree.parent_unlink : PutEntry (disk m) i (.ofBytes zeroDirent)
    ((disk m).bereft (disk n).type i) := by
  have hm := h.inum m hr.dir
  have hshort := (h.short_links hused hm.1 hm.2 hr.dir.linked.1).2
  obtain ⟨de, -, -, hde⟩ := hr.kid
  obtain ⟨hlt, -⟩ := List.getElem?_eq_some_iff.1 hde
  constructor
  case dir => exact hr.dir
  case dir' =>
    refine ⟨hr.dir.1, ?_⟩
    rw [Dinode.bereft]
    dsimp only
    split
    · rename_i hd
      have := h.two_le_naming hr hd
      omega
    · exact hr.dir.2
  case size =>
    rw [Dinode.size, Dinode.bereft, size_clearData hlt]
    exact h.size m hr.dir
  case entries => exact entries_clearData_put hlt
  case two_le => exact hr.two_le
  case le => exact hlt.le

theorem Tree.shape_bereft :
    Shape n (update disk m ((disk m).bereft (disk n).type i)) := by
  refine h.toShape.weaken.put (h.parent_unlink hr hused) (fun de hde => ?_) (.inl rfl)
  obtain ⟨de', -, hn, hde'⟩ := hr.kid
  rw [hde'] at hde
  cases hde
  exact .inr hn

theorem Tree.naming_bereft (hk : k ≠ 0) :
    naming (update disk m ((disk m).bereft (disk n).type i)) k + (if n = k then 1 else 0) =
      naming disk k := by
  have hm := h.inum m hr.dir
  have h₁ := naming_update disk k ((disk m).bereft (disk n).type i) hm.2
  have h₂ := (h.parent_unlink hr hused).naming (n := k)
  have hzero : [Dirent.ofBytes zeroDirent].countP (Dirent.links k) = 0 := by
    refine List.countP_eq_zero.2 fun de hde => ?_
    rw [List.mem_singleton.1 hde, Dirent.links_eq_false hk.symm]
    exact Bool.false_ne_true
  obtain ⟨⟨a, nm⟩, hmem, rfl, hde⟩ := hr.kid
  have hname := (h.kid m hr.dir _ hmem hr.ne).1
  rw [hde, hzero, Option.toList_some, countP_singleton_links hname] at h₂
  dsimp only at h₁ h₂ ⊢
  omega

/-- The links after the entry has been removed, and the `..` of a directory with it. -/
theorem Tree.naming_unlink (hk : k ≠ 0) :
    naming (unlinkDisk disk m n i) k + (if n = k then 1 else 0) +
      (if (disk n).type = .dir ∧ m = k then 1 else 0) = naming disk k := by
  obtain ⟨hlt, hl, hnm, hdir⟩ := h.removable_linked hr
  have hshort := (h.short_links hused (by have := hr.ne; omega) hlt hl.1).2
  have h₁ := naming_update (update disk m ((disk m).bereft (disk n).type i)) k
    (disk n).lower hlt
  have h₂ := h.naming_bereft hr hused hk
  rw [update_of_ne hnm] at h₁
  by_cases hd : (disk n).type = .dir
  · have hlower : ¬ (disk n).lower.LinkedDir := by
      rintro ⟨-, hne⟩
      rw [Dinode.lower, hshort, h.naming_empty hr hd] at hne
      exact hne rfl
    rw [naming_of_not_linkedDir hlower, h.naming_dir ⟨hd, hl.2⟩, (hdir hd).2,
      (h.up_ne_of_empty hr hd hr.dir).2 k hk] at h₁
    rw [unlinkDisk]
    simp only [hd, true_and] at h₁ h₂ ⊢
    omega
  · have hlower : ¬ (disk n).lower.LinkedDir := fun hlower => hd hlower.1
    rw [naming_of_not_linkedDir hlower, naming_of_not_linkedDir fun hl => hd hl.1] at h₁
    have hdir' : ¬ ((disk n).type = .dir ∧ m = k) := fun h => hd h.1
    rw [unlinkDisk, if_neg hdir']
    omega

theorem Tree.shape_unlink : Shape 0 (unlinkDisk disk m n i) := by
  obtain ⟨hlt, hl, hnm, hdir⟩ := h.removable_linked hr
  have hn1 : 1 ≤ n := Nat.one_le_iff_ne_zero.2 hr.ne
  have hshort := (h.short_links hused hn1 hlt hl.1).2
  have hbereft := h.shape_bereft hr hused
  have hnaming := h.naming_bereft hr hused hr.ne
  rw [if_pos rfl] at hnaming
  have hat : update disk m ((disk m).bereft (disk n).type i) n = disk n := update_of_ne hnm _ _
  have hlower : (disk n).lower.nlink = naming disk n - 1 := hshort
  -- a directory is not in the tree any more
  have hplain : ¬ (disk n).lower.LinkedDir := by
    rintro ⟨hd, hne⟩
    rw [hlower, h.naming_empty hr hd] at hne
    exact hne rfl
  have hshape : Shape n (unlinkDisk disk m n i) := by
    by_cases hz : naming disk n = 1
    · have hroot : n ≠ rootino := by
        intro hroot
        by_cases hd : (disk n).type = .dir
        · exact (hdir hd).1 hroot
        · exact hd (hroot ▸ h.root.1)
      exact hbereft.set hn1 hroot (hbereft.unnamed (by omega)) fun hd => absurd hd hplain
    · have hfile : (disk n).type ≠ .dir := fun hd => hz (h.naming_empty hr hd)
      refine hbereft.congr (forall_update .refl ?_)
      rw [hat]
      refine ⟨iff_of_false hplain fun hd => hfile hd.1, fun _ => rfl, fun hl => ⟨⟨hl.1, ?_⟩, rfl⟩⟩
      omega
  refine hshape.complete fun hd => ?_
  rw [unlinkDisk, update_self] at hd
  exact absurd hd hplain

/-- What `unlink` leaves is a tree. -/
theorem Tree.unlink : Tree (unlinkDisk disk m n i) := by
  obtain ⟨hlt, hl, hnm, hdir⟩ := h.removable_linked hr
  have hm := h.inum m hr.dir
  have hn1 : 1 ≤ n := Nat.one_le_iff_ne_zero.2 hr.ne
  refine ⟨h.shape_unlink hr hused, fun k hk hk' hkfree => ?_⟩
  have hnaming := h.naming_unlink hr hused (k := k) (by omega)
  by_cases hkn : k = n
  · subst hkn
    have hshort : (disk k).lower.nlink = naming disk k - 1 := (h.short_links hused hn1 hlt hl.1).2
    rw [if_pos rfl, if_neg fun h => hnm h.2.symm] at hnaming
    rw [unlinkDisk, update_self, hshort, ← unlinkDisk]
    omega
  · rw [if_neg (Ne.symm hkn)] at hnaming
    rw [unlinkDisk, update_of_ne hkn] at hkfree ⊢
    rw [← unlinkDisk]
    by_cases hkm : k = m
    · subst hkm
      have hlinks := h.links k hk hk' hr.dir.linked.1
      have hshort := (h.short_links hused hk hk' hr.dir.linked.1).2
      rw [update_self, Dinode.bereft]
      dsimp only
      by_cases hd : (disk n).type = .dir
      · rw [if_pos ⟨hd, rfl⟩] at hnaming
        rw [if_pos hd, hshort]
        omega
      · rw [if_neg fun h => hd h.1] at hnaming
        rw [if_neg hd, hlinks]
        omega
    · rw [if_neg fun h => hkm h.2.symm] at hnaming
      rw [update_of_ne hkm] at hkfree ⊢
      rw [h.links k hk hk' hkfree]
      omega

end Unlink

end FileSystem
