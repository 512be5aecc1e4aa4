import CourseProjects.FileSystem.Consistency

/-!
# The references that a call takes

A call that starts in any state `b` takes references and gives them back. As long as `ref` of
each entry of the cache has grown by the references that the call holds (`Grip`), it frees no
inode that was in use before, and none that has links (`Spared`).

* `Grip.iget`, `Grip.put`: an inode that was in use is held through an entry that had it;
* `Walk.namexLoop`, `Walk.namei`, `Walk.nameiparent`: what a path leaves as it is;
* `Walk.create`: what a new directory leaves as it is.
-/

namespace FileSystem

open CString Function Tx

variable {b s s' t : Fs} {l : List (Fin ninode)} {ip jp dp : Fin ninode} {n m k : ℕ}
  {name : List UInt8} {p : Fin nproc} {path : CharPtr} {disk : ℕ → Dinode}
  {type : InodeType} {major minor : ℤ}

/-! ### Entries of the cache -/

/-- Some entry in use holds the inode. -/
def InUse (b : Fs) (k : ℕ) : Prop := ∃ ip, 1 ≤ (b.icache ip).ref ∧ (b.icache ip).inum = k

instance (b : Fs) : DecidablePred (InUse b) := fun k =>
  inferInstanceAs (Decidable (∃ ip, 1 ≤ (b.icache ip).ref ∧ (b.icache ip).inum = k))

/-- A call that has started in the state `b` holds the references `l`. The inodes of the entries in
use then are still there, and the call refers to them through such entries. -/
structure Grip (b : Fs) (l : List (Fin ninode)) (s : Fs) : Prop where
  cwd : s.cwd = b.cwd
  ref : ∀ ip, (s.icache ip).ref = (b.icache ip).ref + l.count ip
  inum : ∀ ip, 1 ≤ (b.icache ip).ref → (s.icache ip).inum = (b.icache ip).inum
  used : ∀ ip ∈ l, InUse b (s.icache ip).inum → 1 ≤ (b.icache ip).ref

namespace Grip

theorem init (s : Fs) : Grip s [] s :=
  ⟨rfl, fun _ => by simp, fun _ _ => rfl, fun _ h => absurd h List.not_mem_nil⟩

/-- An entry changes. -/
theorem setSlot {l' : List (Fin ninode)} {v : Slot} (h : Grip b l s)
    (hl : ∀ a ∈ l', a = ip ∨ a ∈ l)
    (hcount : ∀ a, a ≠ ip → l'.count a = l.count a)
    (href : v.ref = (b.icache ip).ref + l'.count ip)
    (hinum : 1 ≤ (b.icache ip).ref → v.inum = (s.icache ip).inum)
    (hused : ip ∈ l' → InUse b v.inum → 1 ≤ (b.icache ip).ref) : Grip b l' (s.setSlot ip v) := by
  refine ⟨h.cwd, fun a => ?_, fun a ha => ?_, fun a ha hk => ?_⟩
  · by_cases hip : a = ip
    · subst hip
      rw [Fs.icache_setSlot_self, href]
    · rw [Fs.icache_setSlot_of_ne hip, hcount a hip]
      exact h.ref a
  · by_cases hip : a = ip
    · subst hip
      rw [Fs.icache_setSlot_self, hinum ha]
      exact h.inum a ha
    · rw [Fs.icache_setSlot_of_ne hip]
      exact h.inum a ha
  · by_cases hip : a = ip
    · subst hip
      rw [Fs.icache_setSlot_self] at hk
      exact hused ha hk
    · rw [Fs.icache_setSlot_of_ne hip] at hk
      exact h.used a ((hl a ha).resolve_left hip) hk

/-- Nothing else matters. -/
theorem congr (h : Grip b l s) (hc : t.cwd = s.cwd) (hi : t.icache = s.icache) : Grip b l t :=
  ⟨hc.trans h.cwd, fun a => hi ▸ h.ref a, fun a => hi ▸ h.inum a, fun a => hi ▸ h.used a⟩

theorem setInode (h : Grip b l s) (d : Dinode) : Grip b l (s.setInode ip d) := h.congr rfl rfl

theorem perm {l' : List (Fin ninode)} (h : Grip b l s) (hp : l.Perm l') : Grip b l' s :=
  { h with
    ref := fun a => by rw [h.ref a, hp.count_eq]
    used := fun a ha => h.used a (hp.mem_iff.2 ha) }

theorem swap (h : Grip b (ip :: jp :: l) s) : Grip b (jp :: ip :: l) s := h.perm (.swap jp ip l)

/-- An entry that has come into use is held by the call. -/
theorem one_le_ref (h : Grip b l s) (hip : 0 < (s.icache ip).ref)
    (hk : InUse b (s.icache ip).inum) : 1 ≤ (b.icache ip).ref := by
  by_contra hb
  refine hb (h.used ip ?_ hk)
  rw [← List.one_le_count_iff]
  have := h.ref ip
  omega

/-- Another reference to an entry that a process has. -/
theorem dup (h : Grip b l s) (hip : InUse b (s.icache ip).inum → 1 ≤ (b.icache ip).ref) :
    Grip b (ip :: l) (s.dup ip) := by
  refine h.setSlot (fun a => List.mem_cons.1) (fun a ha => List.count_cons_of_ne ha.symm) ?_
    (fun _ => rfl) fun _ => hip
  have := h.ref ip
  rw [List.count_cons_self]
  dsimp only
  omega

/-- An entry without references does not hold an inode that was in use. -/
theorem recycle (h : Grip b l s) (he : (s.icache ip).ref = 0) (hc : s.cached n = none) :
    Grip b (ip :: l) (s.recycle ip n) := by
  have href := h.ref ip
  refine h.setSlot (fun a => List.mem_cons.1) (fun a ha => List.count_cons_of_ne ha.symm) ?_
    (fun h1 => by omega) fun _ hk => ?_
  · rw [List.count_cons_self]
    dsimp only
    omega
  · obtain ⟨c, hc1, hcn⟩ := hk
    have hcref := h.ref c
    refine absurd ?_ (List.find?_eq_none.1 hc c (List.mem_finRange c))
    rw [decide_eq_true_eq]
    exact ⟨by omega, (h.inum c hc1).trans hcn⟩

theorem lock (h : Grip b l s) : Grip b l (s.lock ip) :=
  h.setSlot (fun _ => .inr) (fun _ _ => rfl) (h.ref ip) (fun _ => rfl) (h.used ip)

theorem unlock (h : Grip b l s) : Grip b l (s.unlock ip) :=
  h.setSlot (fun _ => .inr) (fun _ _ => rfl) (h.ref ip) (fun _ => rfl) (h.used ip)

/-- A reference that the call holds is not the last one to an inode that was in use. -/
theorem not_inUse (h : Grip b (ip :: l) s) (hlast : s.Last ip) : ¬ InUse b (s.icache ip).inum := by
  intro hk
  have h1 := h.used ip List.mem_cons_self hk
  have href := h.ref ip
  rw [List.count_cons_self, hlast.2.2] at href
  omega

theorem put (h : Grip b (ip :: l) s) : Grip b l (s.put ip) := by
  have hslot : ∀ {u : Fs} {v : Slot}, Grip b (ip :: l) u → v.inum = (u.icache ip).inum →
      v.ref = (u.icache ip).ref - 1 → Grip b l (u.setSlot ip v) := by
    intro u v hu hi hr
    refine hu.setSlot (fun a ha => .inr (List.mem_cons_of_mem _ ha))
      (fun a ha => (List.count_cons_of_ne ha.symm).symm) ?_ (fun _ => hi) fun hip hk => ?_
    · have := hu.ref ip
      rw [List.count_cons_self] at this
      omega
    · exact hu.used ip List.mem_cons_self (hi ▸ hk)
  rw [Fs.put]
  split
  · exact hslot (h.congr rfl rfl) rfl rfl
  · exact hslot h rfl rfl

theorem iget (h : Grip b l s) : Yields (iget n) s fun ip t => Grip b (ip :: l) t := by
  intro ip t hrun
  rcases iget_eq_ok.1 hrun with ⟨hc, rfl⟩ | ⟨hc, he, rfl⟩
  · have hfind := List.find?_some hc
    rw [decide_eq_true_eq] at hfind
    exact h.dup (h.one_le_ref hfind.1)
  · exact h.recycle (by simpa using List.find?_some he) hc

theorem entered (h : Grip b l s) : Grip b l (s.entered type major minor dp ip name) := by
  have hlock : Grip b l (s.lock ip) := h.lock
  refine hlock.congr Fs.cwd_entered ?_
  rw [Fs.entered, Fs.icache_link, Fs.icache_dots]
  rfl

end Grip

/-! ### Paths -/

/-- From the state `b` on, no inode has changed but those without links that were not in use, and
none of them takes more blocks; the table of the users is the same. -/
structure Spared (b₀ b s : Fs) : Prop where
  info : s.info = b.info
  disk : ∀ k, s.disk k = b.disk k ∨ ¬ InUse b₀ k ∧ (b.disk k).nlink = 0
  blocks : usedBlocks s.disk ≤ usedBlocks b.disk

/-- A call that has started in the state `b₀` goes along a path since the state `b`. -/
structure Walk (b₀ b : Fs) (l : List (Fin ninode)) (s : Fs) : Prop
    extends Grip b₀ l s, Spared b₀ b s

variable {b₀ : Fs}

theorem Spared.refl (s : Fs) : Spared b₀ s s := ⟨rfl, fun _ => .inl rfl, le_rfl⟩

theorem Spared.inUse (h : Spared b₀ b s) (hk : InUse b₀ k) : s.disk k = b.disk k :=
  (h.disk k).resolve_right fun h => h.1 hk

theorem Spared.linked (h : Spared b₀ b s) (hk : (b.disk k).nlink ≠ 0) : s.disk k = b.disk k :=
  (h.disk k).resolve_right fun h => hk h.2

theorem Fs.info_put : (s.put ip).info = s.info := by
  rw [put]
  split
  · rfl
  · rfl

theorem Fs.info_entered : (s.entered type major minor dp ip name).info = s.info := by
  change (((s.lock ip).fill ip major minor).dots type dp ip).info = _
  rw [Fs.dots]
  split
  · rfl
  · rfl

/-- An inode that is freed gives its blocks back. -/
theorem usedBlocks_put_le : usedBlocks (s.put ip).disk ≤ usedBlocks s.disk := by
  rw [Fs.put]
  split
  · exact usedBlocks_update_le (by rw [blocks_of_nil rfl]; exact Nat.zero_le _)
  · exact le_rfl

/-- What a path needs of the current directory when it starts there: it is held. -/
def Homed (b : Fs) (p : Fin nproc) (path : List UInt8) : Prop :=
  path.head? ≠ some slash → ∀ ip, b.cwd p = some ip → 1 ≤ (b.icache ip).ref

namespace Walk

theorem init (h : Grip b₀ l s) : Walk b₀ s l s := { h, Spared.refl s with }

/-- The disk and the users stay as they are. -/
theorem keep (h : Walk b₀ b l s) {l' : List (Fin ninode)} (hr : Grip b₀ l' t)
    (hd : t.disk = s.disk) (hi : t.info = s.info) : Walk b₀ b l' t :=
  { hr with
    info := hi.trans h.info
    disk := fun k => by rw [hd]; exact h.disk k
    blocks := by rw [hd]; exact h.blocks }

theorem swap (h : Walk b₀ b (ip :: jp :: l) s) : Walk b₀ b (jp :: ip :: l) s :=
  h.keep h.toGrip.swap rfl rfl

theorem iget (h : Walk b₀ b l s) : Yields (iget n) s fun ip t => Walk b₀ b (ip :: l) t :=
  fun ip t hrun => h.keep (h.toGrip.iget ip t hrun) (iget_disk hrun) (iget_info hrun)

theorem ilock (h : Walk b₀ b l s) : Yields (ilock ip) s fun _ t => Walk b₀ b l t := by
  intro _ t hrun
  obtain ⟨-, -, -, heq⟩ := ilock_eq_ok.1 hrun
  cases heq
  exact h.keep h.toGrip.lock rfl rfl

theorem iunlock (h : Walk b₀ b l s) : Yields (iunlock ip) s fun _ t => Walk b₀ b l t := by
  intro _ t hrun
  obtain ⟨-, -, heq⟩ := iunlock_eq_ok.1 hrun
  cases heq
  exact h.keep h.toGrip.unlock rfl rfl

/-- Only an inode without links is freed, which was not in use. -/
theorem put (h : Walk b₀ b (ip :: l) s) : Walk b₀ b l (s.put ip) := by
  refine { h.toGrip.put with
    info := Fs.info_put.trans h.info, disk := fun k => ?_
    blocks := usedBlocks_put_le.trans h.blocks }
  by_cases hlast : s.Last ip
  · by_cases hk : k = (s.icache ip).inum
    · subst hk
      rcases h.disk (s.icache ip).inum with heq | hfree
      · exact .inr ⟨h.toGrip.not_inUse hlast, heq ▸ hlast.2.1⟩
      · exact .inr hfree
    · rw [Fs.disk_put_of_ne hk]
      exact h.disk k
  · rw [Fs.put, if_neg hlast]
    exact h.disk k

theorem iput (h : Walk b₀ b (ip :: l) s) : Yields (iput ip) s fun _ t => Walk b₀ b l t := by
  intro _ t hrun
  obtain ⟨-, heq⟩ := iput_eq_ok.1 hrun
  cases heq
  exact h.put

theorem iunlockput (h : Walk b₀ b (ip :: l) s) :
    Yields (iunlockput ip) s fun _ t => Walk b₀ b l t :=
  h.iunlock.bind fun _ _ h => h.iput

/-- The end of a path of the code on which an inode is given back. -/
theorem release {α : Type} {x : α} {Q : α → Fs → Prop} (h : Walk b₀ b (ip :: l) s)
    (hQ : ∀ t, Walk b₀ b l t → Q x t) :
    Yields (FileSystem.iunlockput ip >>= fun _ => Pure.pure x) s Q :=
  h.iunlockput.bind fun _ t h => yields_pure (hQ t h)

theorem dirlookup (h : Walk b₀ b l s) :
    Yields (dirlookup dp name) s fun o t => Walk b₀ b ((o.map Prod.fst).toList ++ l) t := by
  intro o t hrun
  have ho := (dirlookup_eq_ok.1 hrun).2
  rcases o with _ | ⟨ip, i⟩
  · rw [ho.2.2]
    exact h
  · exact h.iget ip t ho.2

/-- The loop over a path gives back each directory but the last. -/
theorem namexLoop {names : List (List UInt8)} {np : Bool} (h : Walk b₀ b (ip :: l) s) :
    Yields (namexLoop np names ip) s fun o t => Walk b₀ b ((o.map Prod.fst).toList ++ l) t ∧
      ∀ r, o = some r → np = true → r.2 ∈ names := by
  induction names generalizing ip s with
  | nil =>
    cases np with
    | true => exact h.iput.bind fun _ t ht => yields_pure ⟨ht, nofun⟩
    | false => exact yields_pure ⟨h, nofun⟩
  | cons name rest ih =>
    refine h.ilock.bind fun _ t ht => yields_get_bind ?_
    split
    · exact ht.release fun _ ht => ⟨ht, nofun⟩
    · split
      · exact ht.release fun _ ht => ⟨ht, nofun⟩
      · split
        · refine ht.iunlock.bind fun _ t ht => yields_pure ⟨ht, ?_⟩
          intro r hr _
          cases hr
          exact List.mem_cons_self
        · refine ht.dirlookup.bind fun o t ht => ?_
          rcases o with _ | ⟨next, i⟩
          · exact ht.release fun _ ht => ⟨ht, nofun⟩
          · refine (Walk.swap ht).iunlockput.bind fun _ t ht => (ih ht).mono fun o t ht => ?_
            exact ⟨ht.1, fun r hr hnp => List.mem_cons_of_mem _ (ht.2 r hr hnp)⟩

/-- The number of the inode where a path starts. -/
def startInum (b : Fs) (p : Fin nproc) (path : List UInt8) : Option ℕ :=
  if path.head? = some slash then some rootino else (b.cwd p).map fun ip => (b.icache ip).inum

theorem start {path : List UInt8} (h : Walk b₀ b l s) (hp : Homed b₀ p path) :
    Yields (start p path) s fun ip t => Walk b₀ b (ip :: l) t ∧
      startInum b₀ p path = some (t.icache ip).inum := by
  unfold FileSystem.start startInum
  split
  · intro ip t hrun
    exact ⟨h.iget ip t hrun, congrArg some (iget_inum hrun).symm⟩
  · rename_i hslash
    refine yields_get_bind (yields_ofOption_bind fun cwd hcwd => ?_)
    intro ip t hrun
    cases idup_eq_ok.1 hrun
    rw [h.cwd] at hcwd
    have href := hp hslash cwd hcwd
    refine ⟨h.keep (h.toGrip.dup fun _ => href) rfl rfl, ?_⟩
    rw [hcwd, Option.map_some, Fs.dup, Fs.icache_setSlot_self]
    exact congrArg some (h.inum cwd href).symm

theorem namei (h : Walk b₀ b l s) (hp : Homed b₀ p path.bytes) :
    Yields (namei p path) s fun o t => Walk b₀ b (o.toList ++ l) t := by
  have hx : Yields (namex p path false) s fun o t =>
      Walk b₀ b ((o.map Prod.fst).toList ++ l) t :=
    (h.start hp).bind fun ip t ht => ht.1.namexLoop.mono fun o t ho => ho.1
  exact hx.bind fun o t ho => yields_pure ho

theorem nameiparent (h : Walk b₀ b l s) (hp : Homed b₀ p path.bytes) :
    Yields (nameiparent p path) s fun o t => Walk b₀ b ((o.map Prod.fst).toList ++ l) t ∧
      ∀ r, o = some r → IsName r.2 := by
  refine (h.start hp).bind fun ip t ht => ?_
  refine ht.1.namexLoop.mono fun o t ho => ⟨ho.1, fun r hr => ?_⟩
  exact isName_elements path.nonul (ho.2 r hr rfl)

end Walk

/-! ### New inodes -/

/-- What `create` has made in the directory `k`, when it has given that back: the inode `m`. -/
structure Created (b₀ s : Fs) (type : InodeType) (name : List UInt8) (k m : ℕ)
    (l : List (Fin ninode)) (ip : Fin ninode) (t : Fs) : Prop where
  grip : Grip b₀ (ip :: l) t
  info : t.info = s.info
  inum : (t.icache ip).inum = m
  lt : 1 ≤ m ∧ m < ninodes
  free : (s.disk m).type = .free
  dir : (s.disk k).type = .dir
  isName : IsName name
  fresh : findEntry name (s.disk k).data = none
  full : (s.disk k).size % 16 = 0
  disk : ∀ j, j ≠ k ∨ InUse b₀ j ∨ (newDisk s.disk type 0 0 k m name j).nlink ≠ 0 →
    t.disk j = newDisk s.disk type 0 0 k m name j
  used : usedBlocks t.disk ≤ nblocks

namespace Created

variable (h : Created b₀ s type name k m l ip t)
include h

theorem ne : m ≠ k := by
  rintro rfl
  have := h.dir
  rw [h.free] at this
  cases this

theorem new : t.disk m = newInode type 0 0 m k := by
  rw [h.disk m (.inl h.ne), newDisk, update_self]

/-- The other inodes stay. -/
theorem disk_of_ne {j : ℕ} (hk : j ≠ k) (hj : (s.disk j).type ≠ .free) : t.disk j = s.disk j := by
  have hm : j ≠ m := by
    rintro rfl
    exact hj h.free
  rw [h.disk j (.inl hk), newDisk, update_of_ne hm, update_of_ne hk]

/-- The directory that is in use has the new entry. -/
theorem disk_dir (hk : InUse b₀ k) : t.disk k = parentInode (s.disk k) type name m := by
  rw [h.disk k (.inr (.inl hk)), newDisk, update_of_ne h.ne.symm, update_self]

end Created

theorem created_createNew (h : Grip b₀ (dp :: l) s) (hdir : (s.inode dp).type = .dir)
    (href : 1 ≤ (s.icache dp).ref) (hname : IsName name)
    (hnone : findEntry name (s.inode dp).data = none) (hfull : (s.inode dp).size % 16 = 0) :
    Yields (createNew type 0 0 dp name) s fun o t => ∀ jp, o = some jp →
      ∃ m, Created b₀ s type name (s.icache dp).inum m l jp t := by
  rintro o t hrun jp rfl
  obtain ⟨m, u, hfree, hget, hne, -, hdisk, hused, rfl⟩ := createNew_disk hrun hdir href
  obtain ⟨h1, hlt, hfree⟩ := freeInode_some hfree
  have hbirth : Grip b₀ (dp :: l) (s.birth m type) := h.congr rfl rfl
  have hent : Grip b₀ (jp :: dp :: l) (u.entered type 0 0 dp jp name) :=
    (hbirth.iget jp u hget).entered
  have hu : Grip b₀ (dp :: jp :: l) ((u.entered type 0 0 dp jp name).unlock dp) :=
    hent.swap.unlock
  have hdp : (((u.entered type 0 0 dp jp name).unlock dp).icache dp).inum = (s.icache dp).inum := by
    rw [Fs.inum_unlock, Fs.inum_entered, iget_of_ref hget href]
    rfl
  refine ⟨m, hu.put, ?_, ?_, ⟨h1, hlt⟩, hfree, hdir, hname, hnone, hfull, fun j hj => ?_,
    usedBlocks_put_le.trans hused⟩
  · rw [Fs.info_put]
    have hinfo : u.info = (s.birth m type).info := iget_info hget
    have hent : (u.entered type 0 0 dp jp name).info = u.info := Fs.info_entered
    exact hent.trans hinfo
  · rw [Fs.inum_put, Fs.inum_unlock, Fs.inum_entered, iget_inum hget]
  · rw [← hdisk] at hj ⊢
    by_cases hk : j = (s.icache dp).inum
    · -- the directory is not freed
      subst hk
      rw [← hdp] at hj ⊢
      have hlast : ¬ ((u.entered type 0 0 dp jp name).unlock dp).Last dp := fun hlast => by
        rcases hj with hj | hj | hj
        · exact hj rfl
        · exact hu.not_inUse hlast hj
        · exact hj hlast.2.1
      rw [Fs.put, if_neg hlast]
      rfl
    · rw [Fs.disk_put_of_ne (by rwa [hdp])]
      rfl

/-- A new inode is entered into a directory that the path leads to. -/
theorem Walk.create (h : Walk b₀ b l s) (hp : Homed b₀ p path.bytes) :
    Yields (create p path .dir 0 0) s fun o t => ∀ ip, o = some ip →
      ∃ u name k m, Spared b₀ b u ∧ Created b₀ u .dir name k m l ip t := by
  rintro o t hrun ip rfl
  rcases create_some hrun with ⟨dp, name, u, v, hn, hl, hd, hc⟩ | ⟨htype, -⟩
  · obtain ⟨hu, hname⟩ := h.nameiparent hp _ u hn
    obtain ⟨hdir, hnone, hfull, rfl⟩ := dirlookup_eq_ok.1 hd
    obtain ⟨href, -⟩ := ilock_eq_ok.1 hl
    obtain ⟨m, hm⟩ := created_createNew (l := l) hu.toGrip.lock hdir
      (by simpa [Fs.lock] using href) (hname _ rfl) hnone hfull _ t hc ip rfl
    exact ⟨u.lock dp, name, _, m, ⟨hu.info, hu.disk, hu.blocks⟩, hm⟩
  · cases htype

end FileSystem
