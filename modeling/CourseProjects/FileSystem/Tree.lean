import CourseProjects.FileSystem.Creating

/-!
# The directory tree

What the disk looks like when its directories form a tree: each one names itself and the one
above it, which has exactly one entry for it, and the links of an inode are the entries for it
(`naming`), its own `.` not counted. A directory without links is not in the tree, though a file
may still be open on it, and its entries are no links: `unlink` has taken back its `..`.

* `Tree.create`, `Tree.link`, `Tree.unlink`: the tree after an inode has been entered into a
  directory, an entry added for one, and an entry removed;
* `Tree.congr`: it does not depend on the rights nor on what is in files, and an inode without
  links may be freed.
-/

namespace FileSystem

open CString Function

/-- The inode is in the tree. -/
def Dinode.Linked (d : Dinode) : Prop := d.type ≠ .free ∧ d.nlink ≠ 0

/-- A directory of the tree. -/
def Dinode.LinkedDir (d : Dinode) : Prop := d.type = .dir ∧ d.nlink ≠ 0

instance (d : Dinode) : Decidable d.Linked := inferInstanceAs (Decidable (_ ∧ _))

instance (d : Dinode) : Decidable d.LinkedDir := inferInstanceAs (Decidable (_ ∧ _))

theorem Dinode.LinkedDir.linked {d : Dinode} (h : d.LinkedDir) : d.Linked :=
  ⟨(nomatch h.1.symm.trans ·), h.2⟩

/-- The entries of a directory after `.` and `..`. -/
def Dinode.kids (d : Dinode) : List Dirent := (entries d.data).drop 2

/-- The directory that `..` names. -/
def Dinode.up (d : Dinode) : ℕ := (entries d.data)[1]?.elim 0 Dirent.inum

/-- The entry is a link to an inode. -/
def Dirent.links (n : ℕ) (de : Dirent) : Bool := de.inum = n ∧ de.name ≠ dot

/-- The links to an inode that are entries of a directory of the tree. -/
def Dinode.naming (d : Dinode) (n : ℕ) : ℕ :=
  if d.LinkedDir then (entries d.data).countP (Dirent.links n) else 0

/-- The entries, other than `.`, of the directories of the tree that name an inode. -/
def naming (disk : ℕ → Dinode) (n : ℕ) : ℕ := ∑ m ∈ Finset.range ninodes, (disk m).naming n

/-- The blocks of a disk that are in use. -/
def usedBlocks (disk : ℕ → Dinode) : ℕ := ((List.range ninodes).map fun n => (disk n).blocks).sum

/-- The directories form a tree, but for `x` none of them may have an entry. -/
structure Shape (x : ℕ) (disk : ℕ → Dinode) : Prop where
  root : (disk rootino).LinkedDir
  rootUp : (disk rootino).up = rootino
  inum : ∀ m, (disk m).LinkedDir → 1 ≤ m ∧ m < ninodes
  size : ∀ m, (disk m).LinkedDir → (disk m).size ≤ maxfile * bsize
  dots : ∀ m, (disk m).LinkedDir →
    (entries (disk m).data).take 2 = [⟨m, dot⟩, ⟨(disk m).up, dotdot⟩]
  up : ∀ m, (disk m).LinkedDir → (disk (disk m).up).LinkedDir
  upNe : ∀ m, (disk m).LinkedDir → m ≠ rootino → (disk m).up ≠ m
  kid : ∀ m, (disk m).LinkedDir → ∀ de ∈ (disk m).kids, de.inum ≠ 0 →
    de.name ≠ dot ∧ de.name ≠ dotdot ∧ de.inum < ninodes ∧ (disk de.inum).Linked ∧
      ((disk de.inum).type = .dir → de.inum ≠ rootino ∧ (disk de.inum).up = m)
  once : ∀ m, (disk m).LinkedDir → m ≠ rootino → m ≠ x →
    (disk (disk m).up).kids.countP (Dirent.links m) = 1

/-- The directories form a tree, and each inode has the links that the entries make. -/
structure Tree (disk : ℕ → Dinode) : Prop extends Shape 0 disk where
  links : ∀ n, 1 ≤ n → n < ninodes → (disk n).type ≠ .free → (disk n).nlink = naming disk n

variable {disk disk' : ℕ → Dinode} {x m n k i : ℕ} {d v : Dinode} {name : List UInt8}

/-! ### Counting the links -/

variable (disk n v) in
theorem naming_update (hk : k < ninodes) :
    naming (update disk k v) n + (disk k).naming n = naming disk n + v.naming n := by
  have hmem : k ∈ Finset.range ninodes := Finset.mem_range.2 hk
  have hcongr : ∀ m ∈ Finset.range ninodes \ {k},
      (update disk k v m).naming n = (disk m).naming n := by
    intro m hm
    rw [update_of_ne (by simpa using (Finset.mem_sdiff.1 hm).2)]
  rw [naming, naming, Finset.sum_eq_add_sum_sdiff_singleton_of_mem hmem,
    Finset.sum_eq_add_sum_sdiff_singleton_of_mem hmem fun m => (disk m).naming n,
    Finset.sum_congr rfl hcongr, update_self]
  omega

theorem naming_of_not_linkedDir (h : ¬ d.LinkedDir) : d.naming n = 0 := if_neg h

theorem naming_of_linkedDir (h : d.LinkedDir) :
    d.naming n = (entries d.data).countP (Dirent.links n) := if_pos h

/-- The blocks leave room for no more links than this. -/
theorem naming_le (h : usedBlocks disk ≤ nblocks) : naming disk n ≤ 30112 := by
  have hblocks : ∀ m, (disk m).naming n ≤ 32 * (disk m).blocks := by
    intro m
    rw [Dinode.naming]
    split
    · have hdiv : (disk m).data.length / 16 ≤ 32 * (((disk m).data.length + 511) / 512) := by omega
      refine List.countP_le_length.trans ?_
      rw [length_entries]
      refine hdiv.trans (Nat.mul_le_mul_left 32 ?_)
      rw [Dinode.blocks, Dinode.size]
      split
      · exact le_rfl
      · exact Nat.le_succ _
    · exact Nat.zero_le _
  have hused : ∑ m ∈ Finset.range ninodes, (disk m).blocks = usedBlocks disk := rfl
  calc naming disk n ≤ ∑ m ∈ Finset.range ninodes, 32 * (disk m).blocks :=
        Finset.sum_le_sum fun m _ => hblocks m
    _ = 32 * usedBlocks disk := by rw [← Finset.mul_sum, hused]
    _ ≤ 32 * nblocks := Nat.mul_le_mul_left 32 h

variable (disk n) in
/-- A link is counted in its directory. -/
theorem le_naming (hm : m < ninodes) : (disk m).naming n ≤ naming disk n :=
  Finset.single_le_sum (f := fun m => (disk m).naming n) (fun _ _ => Nat.zero_le _)
    (Finset.mem_range.2 hm)

variable (disk n) in
theorem add_le_naming (hm : m < ninodes) (hk : k < ninodes) (hne : m ≠ k) :
    (disk m).naming n + (disk k).naming n ≤ naming disk n := by
  have hsub : ({m, k} : Finset ℕ) ⊆ Finset.range ninodes := by
    intro j hj
    rcases Finset.mem_insert.1 hj with rfl | hj
    · exact Finset.mem_range.2 hm
    · exact Finset.mem_range.2 (Finset.mem_singleton.1 hj ▸ hk)
  calc _ = ∑ j ∈ {m, k}, (disk j).naming n := (Finset.sum_pair hne).symm
    _ ≤ naming disk n := Finset.sum_le_sum_of_subset hsub

namespace Shape

variable (h : Shape x disk)
include h

theorem entries_eq (hm : (disk m).LinkedDir) :
    entries (disk m).data = ⟨m, dot⟩ :: ⟨(disk m).up, dotdot⟩ :: (disk m).kids := by
  have := List.take_append_drop 2 (entries (disk m).data)
  rw [h.dots m hm] at this
  exact this.symm

theorem up_pos (hm : (disk m).LinkedDir) : 1 ≤ (disk m).up := (h.inum _ (h.up m hm)).1

theorem up_lt (hm : (disk m).LinkedDir) : (disk m).up < ninodes := (h.inum _ (h.up m hm)).2

/-- The links of a directory: `..`, and what comes after it. -/
theorem naming_dir (hm : (disk m).LinkedDir) :
    (disk m).naming n = (if (disk m).up = n then 1 else 0) +
      (disk m).kids.countP (Dirent.links n) := by
  have hdot : Dirent.links n ⟨m, dot⟩ = false := by simp [Dirent.links]
  have hdotdot : Dirent.links n ⟨(disk m).up, dotdot⟩ = decide ((disk m).up = n) := by
    rw [Dirent.links, decide_eq_decide, and_iff_left (show dotdot ≠ dot by decide)]
  rw [naming_of_linkedDir hm, h.entries_eq hm, List.countP_cons_of_neg (by rw [hdot]; decide),
    List.countP_cons, hdotdot]
  simp only [decide_eq_true_eq]
  omega

/-- What is not in the tree is not named. -/
theorem kids_eq_zero (hm : (disk m).LinkedDir) (hn : n ≠ 0) (hl : ¬ (disk n).Linked) :
    (disk m).kids.countP (Dirent.links n) = 0 := by
  refine List.countP_eq_zero.2 fun de hde hlinks => hl ?_
  rw [Dirent.links, decide_eq_true_eq] at hlinks
  obtain ⟨rfl, -⟩ := hlinks
  exact (h.kid m hm de hde hn).2.2.2.1

theorem naming_eq_zero (hn : n ≠ 0) (hl : ¬ (disk n).Linked) : naming disk n = 0 := by
  refine Finset.sum_eq_zero fun m _ => ?_
  by_cases hm : (disk m).LinkedDir
  · rw [h.naming_dir hm, h.kids_eq_zero hm hn hl, add_zero, if_neg]
    exact fun hup => hl (hup ▸ (h.up m hm).linked)
  · exact naming_of_not_linkedDir hm

end Shape

/-! ### Changes that keep the tree -/

/-- A change of an inode that the shape does not depend on. -/
def Dinode.SameShape (d d' : Dinode) : Prop :=
  (d'.LinkedDir ↔ d.LinkedDir) ∧ (d.LinkedDir → d'.data = d.data) ∧
    (d.Linked → d'.Linked ∧ d'.type = d.type)

/-- A change that the links do not depend on either: of the rights or of the bytes of a file, or
an inode without links is freed. -/
def Dinode.Alike (d d' : Dinode) : Prop :=
  d'.type = d.type ∧ d'.nlink = d.nlink ∧ (d.LinkedDir → d'.data = d.data) ∨
    d.nlink = 0 ∧ d'.type = .free

theorem Dinode.SameShape.refl (d : Dinode) : d.SameShape d :=
  ⟨Iff.rfl, fun _ => rfl, fun h => ⟨h, rfl⟩⟩

theorem Dinode.SameShape.naming {d' : Dinode} (h : d.SameShape d') : d'.naming n = d.naming n := by
  by_cases hd : d.LinkedDir
  · rw [naming_of_linkedDir hd, naming_of_linkedDir (h.1.2 hd), h.2.1 hd]
  · rw [naming_of_not_linkedDir hd, naming_of_not_linkedDir fun hd' => hd (h.1.1 hd')]

theorem Dinode.Alike.sameShape {d' : Dinode} (h : d.Alike d') : d.SameShape d' := by
  rcases h with ⟨ht, hl, hd⟩ | ⟨hl, ht⟩
  · rw [SameShape, Linked, Linked, LinkedDir, ht, hl]
    exact ⟨Iff.rfl, hd, fun h => ⟨h, rfl⟩⟩
  · refine ⟨iff_of_false ?_ fun h => h.2 hl, fun h => absurd hl h.2, fun h => absurd hl h.2⟩
    exact fun h => nomatch ht.symm.trans h.1

theorem Dinode.Alike.refl (d : Dinode) : d.Alike d := .inl ⟨rfl, rfl, fun _ => rfl⟩

theorem naming_congr (hs : ∀ m, (disk m).SameShape (disk' m)) : naming disk' n = naming disk n :=
  Finset.sum_congr rfl fun m _ => (hs m).naming

/-- One inode is changed. -/
theorem forall_update {P : Dinode → Dinode → Prop} (hrefl : ∀ d, P d d) (h : P (disk k) v) (m : ℕ) :
    P (disk m) (update disk k v m) := by
  by_cases hm : m = k
  · subst hm
    rw [update_self]
    exact h
  · rw [update_of_ne hm]
    exact hrefl _

namespace Shape

theorem congr (h : Shape x disk) (hs : ∀ m, (disk m).SameShape (disk' m)) : Shape x disk' := by
  have hdata : ∀ m, (disk m).LinkedDir → (disk' m).data = (disk m).data := fun m => (hs m).2.1
  have hup : ∀ m, (disk m).LinkedDir → (disk' m).up = (disk m).up := fun m hm => by
    rw [Dinode.up, hdata m hm, Dinode.up]
  have hkids : ∀ m, (disk m).LinkedDir → (disk' m).kids = (disk m).kids := fun m hm => by
    rw [Dinode.kids, hdata m hm, Dinode.kids]
  constructor
  case root => exact (hs _).1.2 h.root
  case rootUp => rw [hup _ h.root, h.rootUp]
  case inum => exact fun m hm => h.inum m ((hs m).1.1 hm)
  case size =>
    intro m hm
    have hm := (hs m).1.1 hm
    rw [Dinode.size, hdata m hm]
    exact h.size m hm
  case dots =>
    intro m hm
    have hm := (hs m).1.1 hm
    rw [hdata m hm, hup m hm]
    exact h.dots m hm
  case up =>
    intro m hm
    have hm := (hs m).1.1 hm
    rw [hup m hm]
    exact (hs _).1.2 (h.up m hm)
  case upNe =>
    intro m hm
    have hm := (hs m).1.1 hm
    rw [hup m hm]
    exact h.upNe m hm
  case kid =>
    intro m hm de hde hn
    have hm := (hs m).1.1 hm
    rw [hkids m hm] at hde
    obtain ⟨h₁, h₂, h₃, hl, hd⟩ := h.kid m hm de hde hn
    obtain ⟨hl', ht⟩ := (hs _).2.2 hl
    refine ⟨h₁, h₂, h₃, hl', fun hdir => ?_⟩
    rw [ht] at hdir
    rw [hup _ ⟨hdir, hl.2⟩]
    exact hd hdir
  case once =>
    intro m hm hroot hx
    have hm := (hs m).1.1 hm
    rw [hup m hm, hkids _ (h.up m hm)]
    exact h.once m hm hroot hx

theorem weaken (h : Shape 0 disk) : Shape x disk :=
  { h with once := fun m hm hroot _ => h.once m hm hroot (by have := (h.inum m hm).1; omega) }

/-- Nothing is missing when the inode is no directory, or has its entry. -/
theorem complete (h : Shape n disk)
    (hn : (disk n).LinkedDir → n ≠ rootino → (disk (disk n).up).kids.countP (Dirent.links n) = 1) :
    Shape 0 disk :=
  { h with
    once := by
      intro m hm hroot _
      by_cases hmn : m = n
      · subst hmn
        exact hn hm hroot
      · exact h.once m hm hroot hmn }

end Shape

/-- The rights, the bytes of files, and what is not linked, do not matter. -/
theorem Tree.congr (h : Tree disk) (ha : ∀ m, (disk m).Alike (disk' m)) : Tree disk' where
  toShape := h.toShape.congr fun m => (ha m).sameShape
  links n hn hn' hfree := by
    rw [naming_congr fun m => (ha m).sameShape]
    rcases ha n with ⟨ht, hl, -⟩ | ⟨-, ht⟩
    · rw [hl]
      exact h.links n hn hn' (ht ▸ hfree)
    · exact absurd ht hfree

/-! ### An inode that is not named -/

/-- No directory names the inode. -/
def Unnamed (disk : ℕ → Dinode) (n : ℕ) : Prop :=
  ∀ m, (disk m).LinkedDir → m ≠ n → (disk m).up ≠ n ∧ (disk m).kids.countP (Dirent.links n) = 0

/-- The inode is no directory of the tree, or an empty one below another one. -/
structure Dinode.Plain (disk : ℕ → Dinode) (n : ℕ) (v : Dinode) : Prop where
  lt : n < ninodes
  size : v.size ≤ maxfile * bsize
  dots : (entries v.data).take 2 = [⟨n, dot⟩, ⟨v.up, dotdot⟩]
  ne : v.up ≠ n
  up : (disk v.up).LinkedDir
  kids : v.kids = []

theorem Shape.inum_kid (h : Shape x disk) (hm : (disk m).LinkedDir) {de : Dirent}
    (hde : de ∈ (disk m).kids) (hn : de.inum ≠ 0) (hk : (disk m).kids.countP (Dirent.links k) = 0) :
    de.inum ≠ k := by
  rintro rfl
  have := List.countP_eq_zero.1 hk de hde
  rw [Dirent.links, decide_eq_true_eq] at this
  exact this ⟨rfl, (h.kid m hm de hde hn).1⟩

/-- Nothing names an inode that has no links. -/
theorem Shape.unnamed (h : Shape x disk) (hz : naming disk n = 0) : Unnamed disk n := by
  intro m hm _
  have hle := le_naming disk n (h.inum m hm).2
  rw [hz, h.naming_dir hm] at hle
  constructor
  · intro hup
    rw [if_pos hup] at hle
    omega
  · omega

/-- An inode that is not named may become anything but a directory, or a new one. -/
theorem Shape.set (h : Shape n disk) (hn : 1 ≤ n) (hroot : n ≠ rootino) (hun : Unnamed disk n)
    (hv : v.LinkedDir → v.Plain disk n) : Shape n (update disk n v) := by
  have hold : ∀ m, (update disk n v m).LinkedDir → m ≠ n → (disk m).LinkedDir := fun m hm hmn => by
    rwa [update_of_ne hmn] at hm
  constructor
  case root =>
    rw [update_of_ne hroot.symm]
    exact h.root
  case rootUp =>
    rw [update_of_ne hroot.symm]
    exact h.rootUp
  case inum =>
    intro m hm
    by_cases hmn : m = n
    · subst hmn
      rw [update_self] at hm
      exact ⟨hn, (hv hm).lt⟩
    · exact h.inum m (hold m hm hmn)
  case size =>
    intro m hm
    by_cases hmn : m = n
    · subst hmn
      rw [update_self] at hm ⊢
      exact (hv hm).size
    · rw [update_of_ne hmn]
      exact h.size m (hold m hm hmn)
  case dots =>
    intro m hm
    by_cases hmn : m = n
    · subst hmn
      rw [update_self] at hm ⊢
      exact (hv hm).dots
    · rw [update_of_ne hmn]
      exact h.dots m (hold m hm hmn)
  case up =>
    intro m hm
    by_cases hmn : m = n
    · subst hmn
      rw [update_self] at hm ⊢
      rw [update_of_ne (hv hm).ne]
      exact (hv hm).up
    · have hm := hold m hm hmn
      rw [update_of_ne hmn, update_of_ne (hun m hm hmn).1]
      exact h.up m hm
  case upNe =>
    intro m hm hroot
    by_cases hmn : m = n
    · subst hmn
      rw [update_self] at hm ⊢
      exact (hv hm).ne
    · rw [update_of_ne hmn]
      exact h.upNe m (hold m hm hmn) hroot
  case kid =>
    intro m hm de hde hde0
    by_cases hmn : m = n
    · subst hmn
      rw [update_self] at hm hde
      rw [(hv hm).kids] at hde
      exact absurd hde List.not_mem_nil
    · have hm := hold m hm hmn
      rw [update_of_ne hmn] at hde
      rw [update_of_ne (h.inum_kid hm hde hde0 (hun m hm hmn).2)]
      exact h.kid m hm de hde hde0
  case once =>
    intro m hm hroot hmn
    have hm := hold m hm hmn
    rw [update_of_ne hmn, update_of_ne (hun m hm hmn).1]
    exact h.once m hm hroot hmn

/-! ### An entry that changes -/

/-- What a directory may get as an entry: nothing, or a name for the inode. -/
def Entry (disk : ℕ → Dinode) (m n : ℕ) (de : Dirent) : Prop :=
  de.inum = 0 ∨ de.inum = n ∧ de.name ≠ dot ∧ de.name ≠ dotdot ∧ n < ninodes ∧ (disk n).Linked ∧
    ((disk n).type = .dir → n ≠ rootino ∧ (disk n).up = m)

/-- A directory of the tree with another entry at a place. -/
structure PutEntry (d : Dinode) (i : ℕ) (de : Dirent) (d' : Dinode) : Prop where
  dir : d.LinkedDir
  dir' : d'.LinkedDir
  size : d'.size ≤ maxfile * bsize
  entries : entries d'.data = putEntry (FileSystem.entries d.data) i de
  two_le : 2 ≤ i
  le : i ≤ (FileSystem.entries d.data).length

namespace PutEntry

variable {d' : Dinode} {de : Dirent} (h : PutEntry d i de d')
include h

theorem take_two : (FileSystem.entries d'.data).take 2 = (FileSystem.entries d.data).take 2 := by
  rw [h.entries, take_putEntry h.two_le h.le]

theorem up : d'.up = d.up := by
  have htake : ∀ es : List Dirent, es[1]? = (es.take 2)[1]? := fun es =>
    (List.getElem?_take_of_lt (by decide)).symm
  rw [Dinode.up, htake, h.take_two, ← htake, Dinode.up]

theorem kids : d'.kids = putEntry d.kids (i - 2) de := by
  rw [Dinode.kids, h.entries, drop_putEntry h.two_le h.le, Dinode.kids]

/-- The links that the directory makes. -/
theorem naming : d'.naming n + ((FileSystem.entries d.data)[i]?.toList).countP (Dirent.links n) =
    d.naming n + [de].countP (Dirent.links n) := by
  rw [naming_of_linkedDir h.dir', naming_of_linkedDir h.dir, h.entries]
  exact countP_putEntry

theorem countP_kids : d'.kids.countP (Dirent.links n) +
    ((FileSystem.entries d.data)[i]?.toList).countP (Dirent.links n) =
      d.kids.countP (Dirent.links n) + [de].countP (Dirent.links n) := by
  have hi : d.kids[i - 2]? = (FileSystem.entries d.data)[i]? := by
    rw [Dinode.kids, List.getElem?_drop, Nat.add_sub_cancel' h.two_le]
  rw [h.kids, ← hi]
  exact countP_putEntry

end PutEntry

theorem Dirent.links_eq_false {de : Dirent} (h : de.inum ≠ n) : Dirent.links n de = false := by
  rw [Dirent.links, decide_eq_false_iff_not]
  exact fun h' => h h'.1

/-- Entries of the inode `n` may come and go. -/
theorem Shape.put {d' : Dinode} {de : Dirent} (h : Shape n disk) (hput : PutEntry (disk m) i de d')
    (hold : ∀ de' ∈ (entries (disk m).data)[i]?, de'.inum = 0 ∨ de'.inum = n)
    (hnew : Entry disk m n de) : Shape n (update disk m d') := by
  have hm := hput.dir
  have hlinked : ∀ k, (update disk m d' k).LinkedDir ↔ (disk k).LinkedDir := by
    refine forall_update (P := fun d d' => d'.LinkedDir ↔ d.LinkedDir) (fun _ => Iff.rfl) ?_
    exact iff_of_true hput.dir' hm
  have hup : ∀ k, (update disk m d' k).up = (disk k).up :=
    forall_update (P := fun d d' => d'.up = d.up) (fun _ => rfl) hput.up
  have hsame : ∀ k, ((disk k).Linked → (update disk m d' k).Linked) ∧
      (update disk m d' k).type = (disk k).type := by
    refine forall_update (P := fun d d' => (d.Linked → d'.Linked) ∧ d'.type = d.type)
      (fun _ => ⟨id, rfl⟩) ⟨fun _ => hput.dir'.linked, ?_⟩
    rw [hm.1, hput.dir'.1]
  -- the entries of other inodes are the same
  have hcount : ∀ k c, c ≠ 0 → c ≠ n → (update disk m d' k).kids.countP (Dirent.links c) =
      (disk k).kids.countP (Dirent.links c) := by
    intro k c hc0 hcn
    refine forall_update (P := fun d d' => d'.kids.countP (Dirent.links c) =
      d.kids.countP (Dirent.links c)) (fun _ => rfl) ?_ k
    have hcountP := hput.countP_kids (n := c)
    have hzero : [de].countP (Dirent.links c) = 0 := by
      refine List.countP_eq_zero.2 fun a ha => ?_
      rw [List.mem_singleton.1 ha, Dirent.links_eq_false]
      · exact Bool.false_ne_true
      · rcases hnew with h0 | ⟨rfl, -⟩
        · omega
        · exact hcn.symm
    have hzero' : ((entries (disk m).data)[i]?.toList).countP (Dirent.links c) = 0 := by
      refine List.countP_eq_zero.2 fun a ha => ?_
      rw [Dirent.links_eq_false]
      · exact Bool.false_ne_true
      · rcases hold a (Option.mem_toList.1 ha) with h0 | rfl
        · omega
        · exact hcn.symm
    omega
  constructor
  case root => exact (hlinked _).2 h.root
  case rootUp => rw [hup, h.rootUp]
  case inum => exact fun k hk => h.inum k ((hlinked k).1 hk)
  case size =>
    intro k hk
    have hk := (hlinked k).1 hk
    exact forall_update (P := fun d d' => d.size ≤ maxfile * bsize → d'.size ≤ maxfile * bsize)
      (fun _ => id) (fun _ => hput.size) k (h.size k hk)
  case dots =>
    intro k hk
    have hk := (hlinked k).1 hk
    rw [hup, ← h.dots k hk]
    exact forall_update (P := fun d d' => (entries d'.data).take 2 = (entries d.data).take 2)
      (fun _ => rfl) hput.take_two k
  case up =>
    intro k hk
    rw [hup]
    exact (hlinked _).2 (h.up k ((hlinked k).1 hk))
  case upNe =>
    intro k hk
    rw [hup]
    exact h.upNe k ((hlinked k).1 hk)
  case kid =>
    intro k hk de' hde hde0
    have hk := (hlinked k).1 hk
    have hmem : de' ∈ (disk k).kids ∨ k = m ∧ de' = de := by
      by_cases hkm : k = m
      · subst hkm
        rw [update_self, hput.kids] at hde
        exact (mem_putEntry hde).symm.imp_right fun hde => ⟨rfl, hde⟩
      · rw [update_of_ne hkm] at hde
        exact .inl hde
    rw [hup, (hsame _).2]
    rcases hmem with hde | ⟨rfl, rfl⟩
    · obtain ⟨h₁, h₂, h₃, hl, hd⟩ := h.kid k hk de' hde hde0
      exact ⟨h₁, h₂, h₃, (hsame _).1 hl, hd⟩
    · obtain h0 | ⟨rfl, h₁, h₂, h₃, hl, hd⟩ := hnew
      · exact absurd h0 hde0
      · exact ⟨h₁, h₂, h₃, (hsame _).1 hl, hd⟩
  case once =>
    intro k hk hroot hkn
    have hk := (hlinked k).1 hk
    rw [hup, hcount _ k (by have := (h.inum k hk).1; omega) hkn]
    exact h.once k hk hroot hkn

end FileSystem
