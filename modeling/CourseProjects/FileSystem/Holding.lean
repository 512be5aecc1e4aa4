import CourseProjects.FileSystem.Linking
import CourseProjects.Lib.Contract

/-!
# The inodes that a call holds

While a call runs it has references to a few entries of the cache (`Hold`). Between the state
`b` in which it started and the state it has come to, each `ref` has grown by the references
that it holds, and the entries that were in use go on holding their inodes (`Holds`).

* `Holds.namexLoop`, `Holds.namei`, `Holds.nameiparent`: from directories of the tree a path
  leads to inodes of the tree, and the disk stays as it is.
-/

namespace FileSystem

open CString Function Tx

/-- An entry of the cache that a call has a reference to, the inode that it holds, and whether
the inode has been read. -/
structure Hold where
  ip : Fin ninode
  inum : ℕ
  read : Bool

/-- The state has come from `b` with this disk, and the call holds these references. -/
structure Holds (b : Fs) (disk : ℕ → Dinode) (l : List Hold) (s : Fs) : Prop where
  disk : s.disk = disk
  cwd : s.cwd = b.cwd
  ftable : s.ftable = b.ftable
  inum : ∀ a ∈ l, (s.icache a.ip).inum = a.inum ∧ (a.read = true → (s.icache a.ip).valid = true)
  ref : ∀ jp, (s.icache jp).ref = (b.icache jp).ref + (l.map Hold.ip).count jp
  kept : ∀ jp, 1 ≤ (b.icache jp).ref → (s.icache jp).inum = (b.icache jp).inum ∧
    ((b.icache jp).valid = true → (s.icache jp).valid = true)

/-- What a call relies on: no `ref` is negative, and the current directories are the root
directory. -/
structure Base (b : Fs) : Prop where
  ref : ∀ ip, 0 ≤ (b.icache ip).ref
  cwd : ∀ p ip, b.cwd p = some ip → (b.icache ip).inum = rootino ∧ 1 ≤ (b.icache ip).ref

variable {b s s' : Fs} {disk disk' : ℕ → Dinode} {l l' : List Hold} {a : Hold} {ip dp : Fin ninode}
  {n m i : ℕ} {r : Bool} {name : List UInt8}

namespace Holds

theorem init : Holds s s.disk [] s where
  disk := rfl
  cwd := rfl
  ftable := rfl
  inum := fun _ ha => absurd ha List.not_mem_nil
  ref := fun jp => by rw [List.map_nil, List.count_nil, Nat.cast_zero, add_zero]
  kept := fun _ _ => ⟨rfl, id⟩

theorem inode_eq (h : Holds b disk l s) (ha : a ∈ l) : s.inode a.ip = disk a.inum := by
  rw [Fs.inode, h.disk, (h.inum a ha).1]

theorem one_le_ref (h : Holds b disk l s) (hb : Base b) (ha : a ∈ l) :
    1 ≤ (s.icache a.ip).ref := by
  have hcount : 1 ≤ (l.map Hold.ip).count a.ip :=
    List.one_le_count_iff.2 (List.mem_map_of_mem ha)
  have := h.ref a.ip
  have := hb.ref a.ip
  omega

/-- An entry changes, and the references that the call holds with it. -/
theorem setSlot {v : Slot} (h : Holds b disk l s)
    (hl : ∀ a ∈ l', if a.ip = ip then v.inum = a.inum ∧ (a.read = true → v.valid = true) else a ∈ l)
    (hother : ∀ jp, jp ≠ ip → (l'.map Hold.ip).count jp = (l.map Hold.ip).count jp)
    (href : v.ref = (b.icache ip).ref + (l'.map Hold.ip).count ip)
    (hkept : 1 ≤ (b.icache ip).ref → v.inum = (s.icache ip).inum ∧
      ((s.icache ip).valid = true → v.valid = true)) : Holds b disk l' (s.setSlot ip v) := by
  constructor
  case disk => exact h.disk
  case cwd => exact h.cwd
  case ftable => exact h.ftable
  case inum =>
    intro a ha
    have hla := hl a ha
    by_cases hip : a.ip = ip
    · rw [if_pos hip] at hla
      rw [hip, Fs.icache_setSlot_self]
      exact hla
    · rw [if_neg hip] at hla
      rw [Fs.icache_setSlot_of_ne hip]
      exact h.inum a hla
  case ref =>
    intro jp
    by_cases hjp : jp = ip
    · subst hjp
      rw [Fs.icache_setSlot_self]
      exact href
    · rw [Fs.icache_setSlot_of_ne hjp, hother jp hjp]
      exact h.ref jp
  case kept =>
    intro jp hjp1
    by_cases hjp : jp = ip
    · subst hjp
      rw [Fs.icache_setSlot_self]
      obtain ⟨hi, hv⟩ := h.kept jp hjp1
      obtain ⟨hi', hv'⟩ := hkept hjp1
      exact ⟨hi'.trans hi, fun h => hv' (hv h)⟩
    · rw [Fs.icache_setSlot_of_ne hjp]
      exact h.kept jp hjp1

/-- The disk changes. -/
theorem setDisk (h : Holds b disk l s) (d : Dinode) :
    Holds b (update disk n d) l (s.setDisk n d) :=
  { h with disk := by rw [Fs.setDisk, h.disk] }

theorem setInode (h : Holds b disk l s) (ha : a ∈ l) (d : Dinode) :
    Holds b (update disk a.inum d) l (s.setInode a.ip d) := by
  rw [Fs.setInode, (h.inum a ha).1]
  exact h.setDisk d

theorem birth (h : Holds b disk l s) (n : ℕ) (type : InodeType) :
    Holds b (update disk n { Dinode.zero with type := type }) l (s.birth n type) :=
  { h with disk := by rw [← h.disk]; rfl }

theorem dup (h : Holds b disk l s) (hn : (s.icache ip).inum = n) :
    Holds b disk (⟨ip, n, false⟩ :: l) (s.dup ip) := by
  refine h.setSlot (fun a ha => ?_) (fun jp hjp => ?_) ?_ fun _ => ⟨rfl, id⟩
  · rcases List.mem_cons.1 ha with rfl | ha
    · rw [if_pos rfl]
      exact ⟨hn, nofun⟩
    · split
      · rename_i hip
        exact hip ▸ h.inum a ha
      · exact ha
  · rw [List.map_cons, List.count_cons_of_ne hjp.symm]
  · rw [List.map_cons, List.count_cons_self, h.ref ip, Nat.cast_add, Nat.cast_one, add_assoc]

/-- An entry that nobody refers to is taken. -/
theorem recycle (h : Holds b disk l s) (hb : Base b) (h0 : (s.icache ip).ref = 0) :
    Holds b disk (⟨ip, n, false⟩ :: l) (s.recycle ip n) := by
  have href := h.ref ip
  have hnone := hb.ref ip
  refine h.setSlot (fun a ha => ?_) (fun jp hjp => ?_) ?_ fun h1 => ?_
  · rcases List.mem_cons.1 ha with rfl | hmem
    · rw [if_pos rfl]
      exact ⟨rfl, nofun⟩
    · have hip : a.ip ≠ ip := by
        intro hip
        have := h.one_le_ref hb hmem
        rw [hip] at this
        omega
      rw [if_neg hip]
      exact hmem
  · rw [List.map_cons, List.count_cons_of_ne hjp.symm]
  · rw [List.map_cons, List.count_cons_self]
    dsimp only
    omega
  · omega

theorem lock (h : Holds b disk (⟨ip, n, r⟩ :: l) s) :
    Holds b disk (⟨ip, n, true⟩ :: l) (s.lock ip) := by
  refine h.setSlot (fun a ha => ?_) (fun jp _ => rfl) (h.ref ip) fun _ => ⟨rfl, fun _ => rfl⟩
  rcases List.mem_cons.1 ha with rfl | ha
  · rw [if_pos rfl]
    exact ⟨(h.inum _ List.mem_cons_self).1, fun _ => rfl⟩
  · split
    · rename_i hip
      exact ⟨hip ▸ (h.inum a (List.mem_cons_of_mem _ ha)).1, fun _ => rfl⟩
    · exact List.mem_cons_of_mem _ ha

theorem unlock (h : Holds b disk l s) : Holds b disk l (s.unlock ip) := by
  refine h.setSlot (fun a ha => ?_) (fun jp _ => rfl) (h.ref ip) fun _ => ⟨rfl, id⟩
  split
  · rename_i hip
    exact hip ▸ h.inum a ha
  · exact ha

/-- A reference is given back. -/
theorem put_of_not_last (h : Holds b disk (⟨ip, n, r⟩ :: l) s) (hlast : ¬ s.Last ip) :
    Holds b disk l (s.put ip) := by
  rw [Fs.put, if_neg hlast]
  refine h.setSlot (fun a ha => ?_) (fun jp hjp => ?_) ?_ fun _ => ⟨rfl, id⟩
  · split
    · rename_i hip
      exact hip ▸ h.inum a (List.mem_cons_of_mem _ ha)
    · exact List.mem_cons_of_mem _ ha
  · rw [List.map_cons, List.count_cons_of_ne hjp.symm]
  · have href := h.ref ip
    rw [List.map_cons, List.count_cons_self] at href
    dsimp only
    omega

/-- The last reference to an inode without links is given back: the inode is freed. -/
theorem put_of_last (h : Holds b disk (⟨ip, n, r⟩ :: l) s) (hb : Base b) (hlast : s.Last ip) :
    Holds b (update disk n { disk n with type := .free, data := [] }) l (s.put ip) := by
  have href := h.ref ip
  have hnone := hb.ref ip
  rw [List.map_cons, List.count_cons_self, hlast.2.2] at href
  have hn := (h.inum _ List.mem_cons_self).1
  have hinode : s.inode ip = disk n := h.inode_eq List.mem_cons_self
  rw [Fs.put, if_pos hlast, hinode, hn]
  refine (h.setDisk _).setSlot (fun a ha => ?_) (fun jp hjp => ?_) ?_ fun h1 => ?_
  · have hip : a.ip ≠ ip := by
      rintro rfl
      have : 1 ≤ (l.map Hold.ip).count a.ip := List.one_le_count_iff.2 (List.mem_map_of_mem ha)
      omega
    rw [if_neg hip]
    exact List.mem_cons_of_mem _ ha
  · rw [List.map_cons, List.count_cons_of_ne hjp.symm]
  · have := hlast.2.2
    dsimp only
    omega
  · omega

/-- An inode with links stays as it is. -/
theorem put (h : Holds b disk (⟨ip, n, r⟩ :: l) s) (hl : (disk n).nlink ≠ 0) :
    Holds b disk l (s.put ip) := by
  refine h.put_of_not_last fun hlast => hl ?_
  have hinode : s.inode ip = disk n := h.inode_eq List.mem_cons_self
  exact hinode ▸ hlast.2.1

theorem perm (h : Holds b disk l s) (hp : l.Perm l') : Holds b disk l' s :=
  { h with
    inum := fun a ha => h.inum a (hp.mem_iff.2 ha)
    ref := fun jp => by rw [h.ref jp, (hp.map Hold.ip).count_eq] }

theorem swap {c : Hold} (h : Holds b disk (a :: c :: l) s) : Holds b disk (c :: a :: l) s :=
  h.perm (.swap c a l)

end Holds

/-! ### What the functions on inodes yield -/

section Yields

variable (hb : Base b) {α : Type} {Q : α → Fs → Prop} {x : α}

namespace Holds

include hb in
theorem iget (h : Holds b disk l s) :
    Yields (iget n) s fun ip t => Holds b disk (⟨ip, n, false⟩ :: l) t := by
  intro ip t hrun
  rcases iget_eq_ok.1 hrun with ⟨hc, rfl⟩ | ⟨-, he, rfl⟩
  · have hfind := List.find?_some hc
    rw [decide_eq_true_eq] at hfind
    exact h.dup hfind.2
  · exact h.recycle hb (by simpa using List.find?_some he)

theorem ilock (h : Holds b disk (⟨ip, n, r⟩ :: l) s) :
    Yields (ilock ip) s fun _ t => Holds b disk (⟨ip, n, true⟩ :: l) t := by
  intro _ t hrun
  obtain ⟨-, -, -, heq⟩ := ilock_eq_ok.1 hrun
  cases heq
  exact h.lock

theorem iunlock (h : Holds b disk l s) : Yields (iunlock ip) s fun _ t => Holds b disk l t := by
  intro _ t hrun
  obtain ⟨-, -, heq⟩ := iunlock_eq_ok.1 hrun
  cases heq
  exact h.unlock

theorem iput (h : Holds b disk (⟨ip, n, r⟩ :: l) s) (hl : (disk n).nlink ≠ 0) :
    Yields (iput ip) s fun _ t => Holds b disk l t := by
  intro _ t hrun
  obtain ⟨-, heq⟩ := iput_eq_ok.1 hrun
  cases heq
  exact h.put hl

theorem iunlockput (h : Holds b disk (⟨ip, n, r⟩ :: l) s) (hl : (disk n).nlink ≠ 0) :
    Yields (iunlockput ip) s fun _ t => Holds b disk l t :=
  h.iunlock.bind fun _ _ h => h.iput hl

/-- The end of a path of the code on which an inode is given back. -/
theorem release (h : Holds b disk (⟨ip, n, r⟩ :: l) s) (hl : (disk n).nlink ≠ 0)
    (hQ : ∀ t, Holds b disk l t → Q x t) :
    Yields (FileSystem.iunlockput ip >>= fun _ => Pure.pure x) s Q :=
  (h.iunlockput hl).bind fun _ t h => yields_pure (hQ t h)

theorem iupdate (h : Holds b disk l s) (ha : a ∈ l) (f : Dinode → Dinode) :
    Yields (iupdate a.ip f) s fun _ t => Holds b (update disk a.inum (f (disk a.inum))) l t := by
  intro _ t hrun
  cases iupdate_eq_ok.1 hrun
  rw [h.inode_eq ha]
  exact h.setInode ha _

include hb in
theorem dirlookup (h : Holds b disk l s) (ha : a ∈ l) :
    Yields (dirlookup a.ip name) s fun o t => (disk a.inum).type = .dir ∧
      match o with
      | some (ip, i) => findEntry name (disk a.inum).data = some i ∧
        Holds b disk (⟨ip, (entryAt (disk a.inum).data i).inum, false⟩ :: l) t
      | none => findEntry name (disk a.inum).data = none ∧ (disk a.inum).size % 16 = 0 ∧
        Holds b disk l t := by
  intro o t hrun
  obtain ⟨hdir, ho⟩ := dirlookup_eq_ok.1 hrun
  rw [h.inode_eq ha] at hdir ho
  refine ⟨hdir, ?_⟩
  rcases o with _ | ⟨ip, i⟩
  · obtain ⟨hnone, hsize, rfl⟩ := ho
    exact ⟨hnone, hsize, h⟩
  · exact ⟨ho.1, h.iget hb ip t ho.2⟩

end Holds

/-! ### Paths -/

/-- The number of an inode that is in the tree. -/
structure InTree (disk : ℕ → Dinode) (n : ℕ) : Prop where
  one_le : 1 ≤ n
  lt : n < ninodes
  linked : (disk n).Linked

/-- The entries of the directories of the tree are for inodes of the tree. -/
structure Closed (disk : ℕ → Dinode) : Prop where
  root : InTree disk rootino
  entry : ∀ m, (disk m).LinkedDir → ∀ de ∈ entries (disk m).data, de.inum ≠ 0 →
    InTree disk de.inum

theorem Shape.inTree {x : ℕ} (h : Shape x disk) (hm : (disk m).LinkedDir) : InTree disk m :=
  ⟨(h.inum m hm).1, (h.inum m hm).2, hm.linked⟩

theorem Shape.closed {x : ℕ} (h : Shape x disk) : Closed disk where
  root := h.inTree h.root
  entry m hm de hde hn := by
    rw [h.entries_eq hm] at hde
    rcases List.mem_cons.1 hde with rfl | hde
    · exact h.inTree hm
    · rcases List.mem_cons.1 hde with rfl | hde
      · exact h.inTree (h.up m hm)
      · obtain ⟨-, -, hlt, hl, -⟩ := h.kid m hm de hde hn
        exact ⟨Nat.one_le_iff_ne_zero.2 hn, hlt, hl⟩

/-- The inode that a name leads to. -/
theorem Closed.inTree_entryAt (h : Closed disk) (hm : (disk m).LinkedDir)
    (hfind : findEntry name (disk m).data = some i) :
    InTree disk (entryAt (disk m).data i).inum := by
  obtain ⟨hlt, hnamed⟩ := findEntry_some hfind
  exact h.entry m hm _ (List.mem_of_getElem? (getElem?_entryAt hlt)) hnamed.1

/-- The elements of a path are names. -/
theorem isName_elements {k : ℕ} {path : List UInt8} (h : 0 ∉ path)
    (hname : name ∈ elements k path) :
    IsName name := by
  induction k generalizing path with
  | zero => exact absurd hname List.not_mem_nil
  | succ k ih =>
    rw [elements] at hname
    cases hskip : skipelem path with
    | none =>
      rw [hskip] at hname
      exact absurd hname List.not_mem_nil
    | some r =>
      obtain ⟨elem, rest⟩ := r
      rw [hskip] at hname
      have hsub : ∀ c ∈ path.dropWhile (· = slash), c ∈ path := fun c hc =>
        (List.dropWhile_sublist _).subset hc
      rw [skipelem] at hskip
      split at hskip
      · cases hskip
      · rename_i hne
        simp only [Option.some.injEq, Prod.mk.injEq] at hskip
        obtain ⟨rfl, rfl⟩ := hskip
        rcases List.mem_cons.1 hname with rfl | hname
        · constructor
          case ne_nil =>
            obtain ⟨c, cs, hc⟩ := List.exists_cons_of_ne_nil hne
            have hslash : c ≠ slash := by
              have hhead := List.head?_dropWhile_not (· = slash) path
              rw [hc] at hhead
              simpa using hhead
            rw [hc, List.takeWhile_cons_of_pos (by simpa using hslash)]
            simp
          case nonul =>
            intro h0
            exact h (hsub 0 ((List.takeWhile_sublist _).subset (List.mem_of_mem_take h0)))
          case length_le => exact List.length_take_le _ _
        · refine ih (fun h0 => h (hsub 0 ?_)) hname
          exact (List.dropWhile_sublist _).subset ((List.dropWhile_sublist _).subset h0)

namespace Holds

variable {p : Fin nproc} {path : CharPtr} {names : List (List UInt8)}
include hb

/-- The loop over a path goes from one inode of the tree to another. -/
theorem namexLoop (hclosed : Closed disk) {np : Bool} (h : Holds b disk (⟨ip, n, r⟩ :: l) s)
    (hn : InTree disk n) :
    Yields (namexLoop np names ip) s fun o t =>
      match o with
      | none => Holds b disk l t
      | some (jp, name) => ∃ m r', Holds b disk (⟨jp, m, r'⟩ :: l) t ∧ InTree disk m ∧
        (np = true → (disk m).type = .dir ∧ name ∈ names) := by
  induction names generalizing ip n r s with
  | nil =>
    cases np with
    | true => exact (h.iput hn.linked.2).bind fun _ t ht => yields_pure ht
    | false => exact yields_pure ⟨n, r, h, hn, nofun⟩
  | cons name rest ih =>
    refine h.ilock.bind fun _ t ht => yields_get_bind ?_
    have hinode : t.inode ip = disk n := ht.inode_eq List.mem_cons_self
    rw [hinode]
    split
    · exact ht.release hn.linked.2 fun _ ht => ht
    · rename_i hdir
      split
      · exact ht.release hn.linked.2 fun _ ht => ht
      · split
        · rename_i hnp
          refine ht.iunlock.bind fun _ t ht => yields_pure ⟨n, true, ht, hn, fun _ => ?_⟩
          exact ⟨not_not.1 hdir, List.mem_cons_self⟩
        · refine (ht.dirlookup hb List.mem_cons_self).bind fun o t ⟨_, ho⟩ => ?_
          rcases o with _ | ⟨next, i⟩
          · exact ho.2.2.release hn.linked.2 fun _ ht => ht
          · have hnext := hclosed.inTree_entryAt ⟨not_not.1 hdir, hn.linked.2⟩ ho.1
            refine (ho.2.swap.iunlockput hn.linked.2).bind fun _ t ht => (ih ht hnext).mono ?_
            intro o t ho
            rcases o with _ | ⟨jp, name'⟩
            · exact ho
            · obtain ⟨m, r', ht, hm, hdir⟩ := ho
              refine ⟨m, r', ht, hm, fun hnp => ?_⟩
              exact ⟨(hdir hnp).1, List.mem_cons_of_mem _ (hdir hnp).2⟩

theorem start {path : List UInt8} (h : Holds b disk l s) :
    Yields (start p path) s fun ip t => ∃ r, Holds b disk (⟨ip, rootino, r⟩ :: l) t := by
  unfold FileSystem.start
  split
  · exact (h.iget hb).mono fun ip t ht => ⟨false, ht⟩
  · refine yields_get_bind (yields_ofOption_bind fun cwd hcwd => ?_)
    intro ip t hrun
    cases idup_eq_ok.1 hrun
    rw [h.cwd] at hcwd
    obtain ⟨hroot, href⟩ := hb.cwd p cwd hcwd
    exact ⟨false, h.dup ((h.kept cwd href).1.trans hroot)⟩

variable (hclosed : Closed disk)
include hclosed

theorem namei (h : Holds b disk l s) :
    Yields (namei p path) s fun o t =>
      match o with
      | none => Holds b disk l t
      | some ip => ∃ n r, Holds b disk (⟨ip, n, r⟩ :: l) t ∧ InTree disk n := by
  refine Yields.bind ((h.start hb).bind fun ip t ⟨r, ht⟩ => ht.namexLoop hb hclosed hclosed.root)
    fun o t ho => yields_pure ?_
  rcases o with _ | ⟨ip, name⟩
  · exact ho
  · obtain ⟨m, r, ht, hm, -⟩ := ho
    exact ⟨m, r, ht, hm⟩

theorem nameiparent (h : Holds b disk l s) :
    Yields (nameiparent p path) s fun o t =>
      match o with
      | none => Holds b disk l t
      | some (dp, name) => ∃ m r, Holds b disk (⟨dp, m, r⟩ :: l) t ∧ (disk m).LinkedDir ∧
        IsName name := by
  refine ((h.start hb).bind fun ip t ⟨r, ht⟩ => ht.namexLoop hb hclosed hclosed.root).mono ?_
  intro o t ho
  rcases o with _ | ⟨dp, name⟩
  · exact ho
  · obtain ⟨m, r, ht, hm, hdir⟩ := ho
    obtain ⟨hdir, hname⟩ := hdir rfl
    exact ⟨m, r, ht, ⟨hdir, hm.linked.2⟩, isName_elements path.nonul hname⟩

end Holds

end Yields

end FileSystem
