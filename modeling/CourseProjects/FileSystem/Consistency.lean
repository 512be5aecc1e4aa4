import CourseProjects.FileSystem.Holding
import CourseProjects.FileSystem.References

/-!
# States between calls

Between calls the directories form a tree, and an inode that has lost its last link is there
only as long as it is open (`Consistent`). The calls that make inodes and open, close or change
them keep this.

* `Holds.create`: `create` leads from one tree to another;
* `Consistent.put`: the last file that is closed frees an inode without links.
-/

namespace FileSystem

open CString Function Tx

variable {b s s' : Fs} {disk disk' disk'' : ℕ → Dinode} {l : List Hold} {ip dp : Fin ninode}
  {n m k i : ℕ} {r : Bool} {name : List UInt8} {type : InodeType} {major minor : ℤ} {d : Dinode}
  {p : Fin nproc} {path : CharPtr}

/-! ### Disks -/

/-- The directories form a tree, and the blocks are enough. -/
structure Sound (disk : ℕ → Dinode) : Prop extends Tree disk where
  used : usedBlocks disk ≤ nblocks

/-- An allocated inode without links. -/
def Orphan (disk : ℕ → Dinode) (n : ℕ) : Prop :=
  1 ≤ n ∧ n < ninodes ∧ (disk n).type ≠ .free ∧ (disk n).nlink = 0

/-- The disk has become another one on which no inode has lost its last link. -/
structure Grows (disk disk' : ℕ → Dinode) : Prop where
  sound : Sound disk'
  orphan : ∀ n, Orphan disk' n → Orphan disk n

theorem Grows.refl (h : Sound disk) : Grows disk disk := ⟨h, fun _ => id⟩

theorem Grows.trans (h : Grows disk disk') (h' : Grows disk' disk'') : Grows disk disk'' :=
  ⟨h'.sound, fun n hn => h.orphan n (h'.orphan n hn)⟩

theorem Tree.inTree (h : Tree disk) (hm : (disk m).LinkedDir) : InTree disk m := h.toShape.inTree hm

theorem InTree.not_orphan (h : InTree disk n) : ¬ Orphan disk n := fun ho => h.linked.2 ho.2.2.2

theorem blocks_congr {d' : Dinode} (h : d.data.length = d'.data.length) : d.blocks = d'.blocks := by
  rw [Dinode.blocks, Dinode.size, h, Dinode.blocks, Dinode.size]

/-- More blocks are not needed. -/
theorem usedBlocks_update_le {v : Dinode} (h : v.blocks ≤ (disk n).blocks) :
    usedBlocks (update disk n v) ≤ usedBlocks disk := by
  change ∑ m ∈ Finset.range ninodes, (update disk n v m).blocks ≤
    ∑ m ∈ Finset.range ninodes, (disk m).blocks
  refine Finset.sum_le_sum fun m _ => ?_
  exact forall_update (P := fun d d' => d'.blocks ≤ d.blocks) (fun _ => le_rfl) h m

/-- The rights of an inode, the bytes of a file, or an inode without links: the tree is the same. -/
theorem Grows.alike {v : Dinode} (h : Sound disk) (ha : (disk n).Alike v)
    (hused : usedBlocks (update disk n v) ≤ nblocks) : Grows disk (update disk n v) := by
  refine ⟨⟨h.toTree.congr (forall_update .refl ha), hused⟩, fun k ⟨hk, hk', hfree, hzero⟩ => ?_⟩
  by_cases hkn : k = n
  · subst hkn
    rw [update_self] at hfree hzero
    rcases ha with ⟨ht, hl, -⟩ | ⟨-, ht⟩
    · exact ⟨hk, hk', ht ▸ hfree, hl ▸ hzero⟩
    · exact absurd ht hfree
  · rw [update_of_ne hkn] at hfree hzero
    exact ⟨hk, hk', hfree, hzero⟩

/-- The owner of an inode is set, or its permission. -/
theorem Grows.rights {v : Dinode} (h : Sound disk) (ht : v.type = (disk n).type)
    (hl : v.nlink = (disk n).nlink) (hd : v.data = (disk n).data) :
    Grows disk (update disk n v) := by
  exact .alike h (.inl ⟨ht, hl, fun _ => hd⟩)
    ((usedBlocks_update_le (blocks_congr (congrArg List.length hd)).le).trans h.used)

/-- A new inode. -/
theorem Grows.create (h : Sound disk) (hfree : (disk n).type = .free) (hn : 1 ≤ n)
    (hn' : n < ninodes) (hr : (disk m).Room name) (htype : type ≠ .free)
    (hused : usedBlocks (newDisk disk type major minor m n name) ≤ nblocks) :
    Grows disk (newDisk disk type major minor m n name) := by
  refine ⟨⟨h.toTree.create h.used hfree hn hn' hr htype, hused⟩, fun k ⟨hk, hk', hkf, hzero⟩ => ?_⟩
  by_cases hkn : k = n
  · rw [hkn, newDisk, update_self] at hzero
    cases hzero
  · rw [newDisk, update_of_ne hkn] at hkf hzero
    by_cases hkm : k = m
    · rw [hkm, update_self] at hzero
      exact absurd hzero (h.toTree.parent_create type h.used hn' hr).dir'.2
    · rw [update_of_ne hkm] at hkf hzero
      exact ⟨hk, hk', hkf, hzero⟩

variable (major minor) in
/-- The new inode and the directory are in the tree. -/
theorem inTree_create (h : Sound disk) (hn : 1 ≤ n) (hn' : n < ninodes) (hr : (disk m).Room name)
    (hnm : n ≠ m) (htype : type ≠ .free) :
    InTree (newDisk disk type major minor m n name) n ∧
      InTree (newDisk disk type major minor m n name) m := by
  have hm := h.inum m hr.dir
  refine ⟨⟨hn, hn', ?_⟩, ⟨hm.1, hm.2, ?_⟩⟩
  · rw [newDisk, update_self]
    exact ⟨htype, one_ne_zero⟩
  · rw [newDisk, update_of_ne hnm.symm, update_self]
    exact (h.toTree.parent_create type h.used hn' hr).dir'.linked

/-- One more link. -/
theorem Grows.link (h : Sound disk) (hn : InTree disk n) (hdir : (disk n).type ≠ .dir)
    (hr : (disk m).Room name)
    (hused : usedBlocks (update (update disk n (disk n).raise) m
      { disk m with data := linkData (disk m).data name n }) ≤ nblocks) :
    Grows disk (update (update disk n (disk n).raise) m
      { disk m with data := linkData (disk m).data name n }) := by
  refine ⟨⟨h.toTree.link h.used hn.one_le hn.lt hn.linked.1 hdir hn.linked hr, hused⟩, ?_⟩
  rintro k ⟨hk, hk', hkf, hzero⟩
  by_cases hkm : k = m
  · rw [hkm, update_self] at hzero
    exact absurd hzero hr.dir.2
  · rw [update_of_ne hkm] at hkf hzero
    by_cases hkn : k = n
    · rw [hkn, update_self] at hzero
      have hshort := (h.toTree.short_links h.used hn.one_le hn.lt hn.linked.1).1
      have hraise : (disk n).raise.nlink = naming disk n + 1 := hshort
      omega
    · rw [update_of_ne hkn] at hkf hzero
      exact ⟨hk, hk', hkf, hzero⟩

/-! ### States between calls -/

/-- What holds between calls: the disk is sound, no pointer is left out of the `ref` of its
entry, the current directories are the root directory, and an inode without links is held by
those who have it open, with no other reference. -/
structure Consistent (s : Fs) : Prop where
  sound : Sound s.disk
  holders_le : ∀ ip, s.holders ip ≤ (s.icache ip).ref
  cwd : ∀ p ip, s.cwd p = some ip → (s.icache ip).inum = rootino
  orphan : ∀ n, Orphan s.disk n → ∃ ip, (s.icache ip).inum = n ∧ (s.icache ip).valid = true ∧
    (s.icache ip).ref = s.holders ip ∧ 1 ≤ (s.icache ip).ref

theorem files_nonneg (s : Fs) (ip : Fin ninode) : 0 ≤ s.files ip :=
  Finset.sum_nonneg fun f _ => by
    rw [filePointer]
    split <;> decide

theorem one_le_holders_of_cwd (h : s.cwd p = some ip) : 1 ≤ s.holders ip := by
  have hcwds : (if s.cwd p = some ip then (1 : ℤ) else 0) ≤ s.cwds ip :=
    Finset.single_le_sum (f := fun p => if s.cwd p = some ip then (1 : ℤ) else 0)
      (fun _ _ => by split <;> decide) (Finset.mem_univ p)
  rw [if_pos h] at hcwds
  have := files_nonneg s ip
  rw [Fs.holders]
  omega

theorem Consistent.base (h : Consistent s) : Base s where
  ref ip := (holders_nonneg s ip).trans (h.holders_le ip)
  cwd p ip hp := ⟨h.cwd p ip hp, (one_le_holders_of_cwd hp).trans (h.holders_le ip)⟩

/-- Nothing that matters changes. -/
theorem Consistent.congr (h : Consistent s) (hd : s'.disk = s.disk) (hi : s'.icache = s.icache)
    (hh : s'.holders = s.holders) (hc : s'.cwd = s.cwd) : Consistent s' := by
  constructor
  · rw [hd]
    exact h.sound
  · rw [hi, hh]
    exact h.holders_le
  · rw [hi, hc]
    exact h.cwd
  · rw [hd, hi, hh]
    exact h.orphan

theorem Holds.holders (h : Holds b disk l s) : s.holders = b.holders := by
  funext ip
  rw [Fs.holders, Fs.files, Fs.cwds, h.ftable, h.cwd]
  rfl

/-- After a call: an inode without links was one before it, or is held as it should. -/
theorem Holds.consistent_of_orphan (h : Holds b disk' l s) (hc : Consistent b) (hs : Sound disk')
    (hl : ∀ a ∈ l, (disk' a.inum).nlink ≠ 0)
    (ho : ∀ n, Orphan disk' n → Orphan b.disk n ∨ ∃ ip, (s.icache ip).inum = n ∧
      (s.icache ip).valid = true ∧ (s.icache ip).ref = s.holders ip ∧ 1 ≤ (s.icache ip).ref) :
    Consistent s := by
  have hb := hc.base
  constructor
  · rw [h.disk]
    exact hs
  · intro ip
    rw [h.holders, h.ref ip]
    have := hc.holders_le ip
    omega
  · intro p ip hp
    rw [h.cwd] at hp
    obtain ⟨hroot, href⟩ := hb.cwd p ip hp
    exact (h.kept ip href).1.trans hroot
  · intro n hn
    rw [h.disk] at hn
    rcases ho n hn with hn' | hn'
    · obtain ⟨ip, hinum, hvalid, href, hone⟩ := hc.orphan n hn'
      obtain ⟨hi, hv⟩ := h.kept ip hone
      have hcount : (l.map Hold.ip).count ip = 0 := by
        refine List.count_eq_zero.2 fun hmem => ?_
        obtain ⟨a, ha, rfl⟩ := List.mem_map.1 hmem
        have hain := (h.inum a ha).1
        rw [hi, hinum] at hain
        exact hl a ha (hain ▸ hn.2.2.2)
      have hs := h.ref ip
      rw [hcount, Nat.cast_zero, add_zero] at hs
      refine ⟨ip, hi.trans hinum, hv hvalid, ?_, by omega⟩
      rw [h.holders, hs, href]
    · exact hn'

/-- A call may go away with references to inodes that have links. -/
theorem Holds.consistent (h : Holds b disk' l s) (hc : Consistent b) (hg : Grows b.disk disk')
    (hl : ∀ a ∈ l, (disk' a.inum).nlink ≠ 0) : Consistent s :=
  h.consistent_of_orphan hc hg.sound hl fun n hn => .inl (hg.orphan n hn)

/-! ### New inodes -/

theorem createNew_none (h : (createNew type major minor dp name).run s = .ok (none, s')) :
    (iunlockput dp).run s = .ok ((), s') := by
  unfold createNew at h
  rw [get_bind] at h
  split at h
  · obtain ⟨_, t, hp, h⟩ := bind_eq_ok.1 h
    cases pure_eq_ok.1 h
    exact hp
  · obtain ⟨_, _, -, h⟩ := bind_eq_ok.1 h
    obtain ⟨_, _, -, h⟩ := bind_eq_ok.1 h
    obtain ⟨_, _, -, h⟩ := bind_eq_ok.1 h
    obtain ⟨_, _, -, h⟩ := bind_eq_ok.1 h
    rw [get_bind] at h
    obtain ⟨_, _, -, h⟩ := bind_eq_ok.1 h
    obtain ⟨-, h⟩ := failIf_bind_eq_ok.1 h
    obtain ⟨_, _, -, h⟩ := bind_eq_ok.1 h
    cases pure_eq_ok.1 h

theorem ftable_entered : (s.entered type major minor dp ip name).ftable = s.ftable := by
  change (((s.lock ip).fill ip major minor).dots type dp ip).ftable = _
  rw [Fs.dots]
  split
  · rfl
  · rfl

variable (dp name type major minor) in
theorem icache_entered :
    (s.entered type major minor dp ip name).icache = (s.lock ip).icache := by
  rw [Fs.entered, Fs.icache_link, Fs.icache_dots]
  rfl

theorem Holds.congr (h : Holds b disk l s) (hi : s'.icache = s.icache) (hc : s'.cwd = s.cwd)
    (hf : s'.ftable = s.ftable) : Holds b s'.disk l s' where
  disk := rfl
  cwd := hc.trans h.cwd
  ftable := hf.trans h.ftable
  inum a ha := by
    rw [hi]
    exact h.inum a ha
  ref jp := by
    rw [hi]
    exact h.ref jp
  kept jp hjp := by
    rw [hi]
    exact h.kept jp hjp

/-- An inode that a function has made or found, locked, and the disk after it. -/
def Made (b : Fs) (disk : ℕ → Dinode) (l : List Hold) (o : Option (Fin ninode)) (t : Fs) : Prop :=
  match o with
  | none => Holds b disk l t
  | some ip => ∃ disk' n, Grows disk disk' ∧ Holds b disk' (⟨ip, n, true⟩ :: l) t ∧ InTree disk' n

section Calls

variable (hb : Base b) (hs : Sound disk)
include hs

/-- The rights of an inode that has been made are set. -/
theorem Holds.setRights {f : Dinode → Dinode} (h : Holds b disk (⟨ip, n, true⟩ :: l) s)
    (hn : InTree disk n)
    (hf : ∀ d, (f d).type = d.type ∧ (f d).nlink = d.nlink ∧ (f d).data = d.data) :
    Yields (FileSystem.iupdate ip f) s fun _ t => ∃ disk', Grows disk disk' ∧
      Holds b disk' (⟨ip, n, true⟩ :: l) t ∧ InTree disk' n := by
  refine (h.iupdate List.mem_cons_self f).mono fun _ t ht => ?_
  obtain ⟨ht', hl', hd'⟩ := hf (disk n)
  refine ⟨_, .rights hs ht' hl' hd', ht, hn.one_le, hn.lt, ?_⟩
  rw [update_self, Dinode.Linked, ht', hl']
  exact hn.linked

include hb

theorem Holds.createNew (h : Holds b disk (⟨dp, m, r⟩ :: l) s) (hm : (disk m).LinkedDir)
    (hname : IsName name) (hnone : findEntry name (disk m).data = none)
    (hfull : (disk m).size % 16 = 0) (htype : type ≠ .free) :
    Yields (createNew type major minor dp name) s (Made b disk l) := by
  intro o s' hrun
  cases o with
  | none => exact h.iunlockput hm.2 () s' (createNew_none hrun)
  | some ip =>
    have hinode : s.inode dp = disk m := h.inode_eq List.mem_cons_self
    have hinum : (s.icache dp).inum = m := (h.inum _ List.mem_cons_self).1
    obtain ⟨n, t, hfree, hget, hne, hsize, hdisk, hused, rfl⟩ :=
      createNew_disk hrun (hinode ▸ hm.1) (h.one_le_ref hb List.mem_cons_self)
    obtain ⟨hn, hn', hfree⟩ := freeInode_some hfree
    rw [hinode] at hsize
    rw [h.disk, hinum] at hdisk
    rw [h.disk] at hfree
    rw [hinum] at hne
    have hr : (disk m).Room name := ⟨hm, hname, hnone, hfull, hsize⟩
    have hgrows : Grows disk (newDisk disk type major minor m n name) := by
      refine .create hs hfree hn hn' hr htype ?_
      rw [← hdisk]
      exact hused
    have hin := inTree_create major minor hs hn hn' hr hne htype
    have ht := ((h.birth n type).iget hb ip t hget).lock.congr
      (icache_entered dp name type major minor) Fs.cwd_entered ftable_entered
    rw [hdisk] at ht
    exact ⟨_, n, hgrows, ht.swap.unlock.put hin.2.linked.2, hin.1⟩

theorem Holds.create (h : Holds b disk l s) (htype : type ≠ .free) :
    Yields (create p path type major minor) s (Made b disk l) := by
  have hclosed := hs.closed
  refine (h.nameiparent hb hclosed).bind fun o t ho => ?_
  rcases o with _ | ⟨dp, name⟩
  · exact yields_pure ho
  · obtain ⟨m, r, ht, hm, hname⟩ := ho
    refine ht.ilock.bind fun _ t ht =>
      (ht.dirlookup hb List.mem_cons_self).bind fun o t ⟨_, ho⟩ => ?_
    rcases o with _ | ⟨ip, i⟩
    · exact ho.2.2.createNew hb hs hm hname ho.1 ho.2.1 htype
    · -- the name is there
      have hin := hclosed.inTree_entryAt hm ho.1
      refine (ho.2.swap.iunlockput hm.2).bind fun _ t ht => ht.ilock.bind fun _ t ht => ?_
      refine yields_get_bind ?_
      split
      · split
        · exact ht.release hin.linked.2 fun _ ht => ht
        · exact yields_pure ⟨disk, _, .refl hs, ht, hin⟩
      · exact ht.release hin.linked.2 fun _ ht => ht

end Calls

section Consistent

variable (hc : Consistent b)
include hc

theorem consistent_mkdir : Yields (sysMkdir p path) b fun _ => Consistent := by
  have hb := hc.base
  refine ((Holds.init (s := b)).create hb hc.sound (by decide)).bind fun o t ho => ?_
  cases o with
  | none => exact yields_pure (ho.consistent hc (.refl hc.sound) (by simp))
  | some ip =>
    obtain ⟨disk', n, hg, ht, hn⟩ := ho
    refine yields_get_bind ((ht.setRights hg.sound hn ?_).bind ?_)
    · exact fun _ => ⟨rfl, rfl, rfl⟩
    · intro _ t ⟨disk'', hg', ht, hn⟩
      exact ht.release hn.linked.2 fun _ ht => ht.consistent hc (hg.trans hg') (by simp)

theorem consistent_mknod : Yields (sysMknod p path major minor) b fun _ => Consistent := by
  have hb := hc.base
  refine ((Holds.init (s := b)).create hb hc.sound (by decide)).bind fun o t ho => ?_
  cases o with
  | none => exact yields_pure (ho.consistent hc (.refl hc.sound) (by simp))
  | some ip =>
    obtain ⟨disk', n, hg, ht, hn⟩ := ho
    refine (ht.setRights hg.sound hn ?_).bind ?_
    · exact fun _ => ⟨rfl, rfl, rfl⟩
    · intro _ t ⟨disk'', hg', ht, hn⟩
      exact ht.release hn.linked.2 fun _ ht => ht.consistent hc (hg.trans hg') (by simp)

theorem consistent_exec {a : ℤ} : Yields (exec p path a) b fun _ => Consistent := by
  have hb := hc.base
  refine ((Holds.init (s := b)).namei hb hc.sound.closed).bind fun o t ho => ?_
  cases o with
  | none => exact yields_pure (ho.consistent hc (.refl hc.sound) (by simp))
  | some ip =>
    obtain ⟨n, r, ht, hn⟩ := ho
    refine ht.ilock.bind fun _ t ht => yields_get_bind ?_
    split
    · exact ht.release hn.linked.2 fun _ ht => ht.consistent hc (.refl hc.sound) (by simp)
    · exact ht.release hn.linked.2 fun _ ht => ht.consistent hc (.refl hc.sound) (by simp)

theorem consistent_chmod {mode : UInt32} : Yields (sysChmod p path mode) b fun _ => Consistent := by
  have hb := hc.base
  refine ((Holds.init (s := b)).namei hb hc.sound.closed).bind fun o t ho => ?_
  cases o with
  | none => exact yields_pure (ho.consistent hc (.refl hc.sound) (by simp))
  | some ip =>
    obtain ⟨n, r, ht, hn⟩ := ho
    refine ht.ilock.bind fun _ t ht => yields_get_bind ?_
    split
    · exact ht.release hn.linked.2 fun _ ht => ht.consistent hc (.refl hc.sound) (by simp)
    · refine (ht.setRights hc.sound hn ?_).bind ?_
      · exact fun _ => ⟨rfl, rfl, rfl⟩
      · intro _ t ⟨disk', hg, ht, hn⟩
        exact ht.release hn.linked.2 fun _ ht => ht.consistent hc hg (by simp)

/-- The inode that `open` goes on with. -/
theorem made_openInode {omode : UInt32} :
    Yields (openInode p path omode) b (Made b b.disk []) := by
  have hb := hc.base
  unfold openInode
  split
  · refine ((Holds.init (s := b)).create hb hc.sound (by decide)).bind fun o t ho => ?_
    cases o with
    | none => exact yields_pure ho
    | some ip =>
      obtain ⟨disk', n, hg, ht, hn⟩ := ho
      refine yields_get_bind ((ht.setRights hg.sound hn ?_).bind ?_)
      · exact fun _ => ⟨rfl, rfl, rfl⟩
      · intro _ t ⟨disk'', hg', ht, hn⟩
        exact yields_pure ⟨disk'', n, hg.trans hg', ht, hn⟩
  · refine ((Holds.init (s := b)).namei hb hc.sound.closed).bind fun o t ho => ?_
    cases o with
    | none => exact yields_pure ho
    | some ip =>
      obtain ⟨n, r, ht, hn⟩ := ho
      refine ht.ilock.bind fun _ t ht => ?_
      refine Yields.bind (P := fun _ t' => t' = t) ?_ fun d t' ht' => ?_
      · exact yields_get_bind (yields_pure rfl)
      · subst ht'
        split
        · exact ht.release hn.linked.2 fun _ ht => ht
        · exact yields_pure ⟨_, n, .refl hc.sound, ht, hn⟩

end Consistent

/-! ### Open files -/

theorem holders_setFile {f : Fin nfile} {v : Option File} (ip : Fin ninode) :
    (s.setFile f v).holders ip =
      s.holders ip + filePointer v ip - filePointer (s.ftable f) ip := by
  have hsum := sum_update s.ftable f v fun o => filePointer o ip
  rw [Fs.holders, Fs.holders, Fs.files, Fs.setFile]
  change ∑ j, filePointer (update s.ftable f v j) ip + s.cwds ip = _
  rw [hsum, Fs.files]
  abel

/-- A file structure changes, and refers to no other inode without links. -/
theorem Consistent.setFile {f : Fin nfile} {v : Option File} (h : Consistent s)
    (hle : ∀ ip, s.holders ip + filePointer v ip - filePointer (s.ftable f) ip ≤ (s.icache ip).ref)
    (ho : ∀ ip, Orphan s.disk (s.icache ip).inum → filePointer v ip = filePointer (s.ftable f) ip) :
    Consistent (s.setFile f v) := by
  constructor
  · exact h.sound
  · intro ip
    rw [holders_setFile]
    exact hle ip
  · exact h.cwd
  · intro n hn
    obtain ⟨ip, hinum, hvalid, href, hone⟩ := h.orphan n hn
    refine ⟨ip, hinum, hvalid, ?_, hone⟩
    rw [holders_setFile, ho ip (by rw [hinum]; exact hn), add_sub_cancel_right]
    exact href

theorem Consistent.setOfile {fd : Fin nofile} {f : Option (Fin nfile)} (h : Consistent s) :
    Consistent (s.setOfile p fd f) := h.congr rfl rfl rfl rfl

theorem filePointer_openFile {omode : UInt32} (jp : Fin ninode) :
    filePointer (some (openFile ip omode)) jp = if ip = jp then 1 else 0 := by
  simp [filePointer, openFile]

theorem consistent_open {omode : UInt32} (hc : Consistent b) :
    Yields (sysOpen p path omode) b fun _ => Consistent := by
  intro a s h
  rcases sysOpen_cases h with ⟨-, ho | ⟨ip, t, ho, hp⟩⟩ | ⟨ip, t, f, fd, ho, -, -, -, hf, -, -, rfl⟩
  · exact (made_openInode hc none s ho).consistent hc (.refl hc.sound) (by simp)
  · obtain ⟨disk', n, hg, ht, hn⟩ := made_openInode hc (some ip) t ho
    exact (ht.iunlockput hn.linked.2 () s hp).consistent hc hg (by simp)
  · -- the reference goes to the file
    obtain ⟨disk', n, hg, ht, hn⟩ := made_openInode hc (some ip) t ho
    have hu : Holds _ _ _ (t.unlock ip) := ht.unlock
    have hcu := hu.consistent hc hg (by simpa using hn.linked.2)
    have hinum := (hu.inum _ List.mem_cons_self).1
    have hnone : (t.unlock ip).ftable f = none := by
      change t.ftable f = none
      simpa using List.find?_some hf
    refine (hcu.setFile (fun jp => ?_) fun jp hjp => ?_).setOfile
    · have hle := hc.holders_le jp
      rw [hnone, filePointer_openFile, hu.holders, hu.ref jp, List.map_singleton,
        List.count_singleton]
      simp only [beq_iff_eq, filePointer, Option.map_none, reduceCtorEq, if_false]
      split
      · omega
      · omega
    · have hne : ip ≠ jp := by
        rintro rfl
        rw [hinum, hu.disk] at hjp
        exact hn.not_orphan hjp
      rw [hnone, filePointer_openFile, if_neg hne]
      rfl

theorem consistent_dup {fd : ℤ} (hc : Consistent b) :
    Yields (sysDup p fd) b fun _ => Consistent := by
  refine yields_get_bind ?_
  split
  · exact yields_pure hc
  · split
    · exact yields_pure hc
    · rename_i f _ _ fd _
      intro a s h
      rw [set_bind] at h
      obtain ⟨_, t, hd, h⟩ := bind_eq_ok.1 h
      cases pure_eq_ok.1 h
      unfold filedup at hd
      rw [get_bind, ofOption_bind_eq_ok] at hd
      obtain ⟨v, hv, hd⟩ := hd
      rw [failIf_bind_eq_ok] at hd
      cases set_eq_ok.1 hd.2
      have hsame : ∀ ip, filePointer (some { v with ref := v.ref + 1 }) ip =
          filePointer ((b.setOfile p fd (some f)).ftable f) ip := fun ip => by
        rw [hv]
        rfl
      have hc' : Consistent (b.setOfile p fd (some f)) := hc.setOfile
      refine hc'.setFile (fun ip => ?_) fun ip _ => hsame ip
      rw [hsame ip, add_sub_cancel_right]
      exact hc'.holders_le ip

theorem holders_put : (s.put ip).holders = s.holders := by
  rw [Fs.put]
  split
  · rfl
  · rfl

theorem icache_put_of_ne {jp : Fin ninode} (h : jp ≠ ip) :
    (s.put ip).icache jp = s.icache jp := by
  rw [Fs.put]
  split
  · exact Fs.icache_setSlot_of_ne h _
  · exact Fs.icache_setSlot_of_ne h _

variable (s ip) in
theorem ref_put : ((s.put ip).icache ip).ref = (s.icache ip).ref - 1 := by
  rw [Fs.put]
  split
  · rw [Fs.icache_setSlot_self]
  · rw [Fs.icache_setSlot_self]

theorem valid_put (h : ¬ s.Last ip) : ((s.put ip).icache ip).valid = (s.icache ip).valid := by
  rw [Fs.put, if_neg h, Fs.icache_setSlot_self]

theorem blocks_of_nil (h : d.data = []) : d.blocks = 0 := by
  rw [Dinode.blocks, Dinode.size, h]
  rfl

variable (ip) in
/-- The disk after a reference has been given back. -/
theorem grows_put (hs : Sound s.disk) : Grows s.disk (s.put ip).disk ∧
    (s.Last ip → ¬ Orphan (s.put ip).disk (s.icache ip).inum) := by
  rw [Fs.put]
  split
  · rename_i hlast
    refine ⟨.alike hs (.inr ⟨hlast.2.1, rfl⟩) ((usedBlocks_update_le ?_).trans hs.used),
      fun _ ho => ho.2.2.1 ?_⟩
    · rw [blocks_of_nil rfl]
      exact Nat.zero_le _
    · exact congrArg Dinode.type (update_self (s.icache ip).inum _ s.disk)
  · rename_i hlast
    exact ⟨.refl hs, fun h => absurd h hlast⟩

/-- A reference that a file had is given back: the last one frees an inode without links. -/
theorem Consistent.put {f : Fin nfile} (h : Consistent s)
    (hf : (s.ftable f).map File.type = some (.inode ip)) :
    Consistent ((s.setFile f none).put ip) := by
  obtain ⟨hg, hlast⟩ := grows_put ip (show Sound (s.setFile f none).disk from h.sound)
  have hholders : ∀ jp, ((s.setFile f none).put ip).holders jp =
      s.holders jp - if ip = jp then 1 else 0 := by
    intro jp
    have hpointer : filePointer (s.ftable f) jp = if ip = jp then 1 else 0 := by
      rw [filePointer, hf]
      simp
    rw [holders_put, holders_setFile, hpointer]
    simp only [filePointer, Option.map_none, reduceCtorEq, if_false, add_zero]
  constructor
  · exact hg.sound
  · intro jp
    have hle := h.holders_le jp
    rw [hholders]
    by_cases hjp : jp = ip
    · subst hjp
      rw [ref_put, if_pos rfl]
      exact sub_le_sub_right hle 1
    · rw [icache_put_of_ne hjp, if_neg (Ne.symm hjp), sub_zero]
      exact hle
  · intro p jp hp
    rw [Fs.cwd_put] at hp
    rw [Fs.inum_put]
    exact h.cwd p jp hp
  · intro n hn
    obtain ⟨jp, hinum, hvalid, href, hone⟩ := h.orphan n (hg.orphan n hn)
    refine ⟨jp, (Fs.inum_put jp).trans hinum, ?_⟩
    rw [hholders]
    by_cases hjp : jp = ip
    · subst hjp
      have hnot : ¬ (s.setFile f none).Last jp := fun hl => hlast hl (hinum ▸ hn)
      have hzero : ((s.setFile f none).inode jp).nlink = 0 := by
        change (s.disk (s.icache jp).inum).nlink = 0
        rw [hinum]
        exact (hg.orphan n hn).2.2.2
      have hne : (s.icache jp).ref ≠ 1 := fun h1 => hnot ⟨hvalid, hzero, h1⟩
      have hput : (((s.setFile f none).put jp).icache jp).ref = (s.icache jp).ref - 1 :=
        ref_put _ jp
      rw [valid_put hnot, hput, if_pos rfl]
      exact ⟨hvalid, by omega, by omega⟩
    · rw [icache_put_of_ne hjp, if_neg (Ne.symm hjp), sub_zero]
      exact ⟨hvalid, href, hone⟩

theorem consistent_close {fd : ℤ} (hc : Consistent b) :
    Yields (sysClose p fd) b fun _ => Consistent := by
  refine yields_get_bind ?_
  split
  · exact yields_pure hc
  · rename_i fd f _
    intro a s h
    rw [set_bind] at h
    obtain ⟨_, t, hclose, h⟩ := bind_eq_ok.1 h
    cases pure_eq_ok.1 h
    have hc' : Consistent (b.setOfile p fd none) := hc.setOfile
    unfold fileclose at hclose
    rw [get_bind, ofOption_bind_eq_ok] at hclose
    obtain ⟨v, hv, hclose⟩ := hclose
    rw [failIf_bind_eq_ok] at hclose
    obtain ⟨-, hclose⟩ := hclose
    split at hclose
    · cases set_eq_ok.1 hclose
      have hsame : ∀ ip, filePointer (some { v with ref := v.ref - 1 }) ip =
          filePointer ((b.setOfile p fd none).ftable f) ip := fun ip => by
        rw [hv]
        rfl
      refine hc'.setFile (fun ip => ?_) fun ip _ => hsame ip
      rw [hsame ip, add_sub_cancel_right]
      exact hc'.holders_le ip
    · rw [set_bind] at hclose
      have hother : (∀ ip, v.type ≠ .inode ip) →
          Consistent ((b.setOfile p fd none).setFile f none) := by
        intro htype
        have hsame : ∀ ip, filePointer none ip =
            filePointer ((b.setOfile p fd none).ftable f) ip := fun ip => by
          rw [hv]
          simp [filePointer, htype]
        refine hc'.setFile (fun ip => ?_) fun ip _ => hsame ip
        rw [hsame ip, add_sub_cancel_right]
        exact hc'.holders_le ip
      split at hclose
      · rename_i ip htype
        obtain ⟨-, heq⟩ := iput_eq_ok.1 hclose
        cases heq
        exact hc'.put (by rw [hv, Option.map_some, htype])
      · rename_i htype
        cases pure_eq_ok.1 hclose
        refine hother fun ip hip => ?_
        cases htype.symm.trans hip
      · rename_i htype
        cases pure_eq_ok.1 hclose
        refine hother fun ip hip => ?_
        cases htype.symm.trans hip

end FileSystem
