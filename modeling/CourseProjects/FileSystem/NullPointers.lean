import CourseProjects.FileSystem.UserCalls

/-!
# Inodes that are not there

`sys_myopen` and `sys_addUser` use the inode that `create` returns without a check whether there
is one. It is not there when the name is, when a directory on the way to it is missing, and when
the user has no right to write to the directory.

* `Sees.create`: where a path lacks its last name only, and an entry may be made, there is an
  inode;
* `missing_inode_unused`: as long as `tmp` can be made at each `myopen`, and the home directory
  at each `addUser` that enters a user without one, no null pointer is used. An `addUser` that
  fails leaves the table and the file as they were.
-/

namespace FileSystem

open CString Function Tx

variable {b s s' t : Fs} {l : List (Fin ninode)} {ip jp dp : Fin ninode} {n m k i : ℕ}
  {name : List UInt8} {names : List (List UInt8)} {p : Fin nproc} {path : CharPtr}
  {info info' : UserInfo} {disk : ℕ → Dinode} {type : InodeType} {major minor : ℤ}
  {typed : List UInt8}

/-! ### Functions that check their pointers -/

theorem never_panic (c : Prop) [Decidable c] (message : String) :
    Never .nullPointer (failIf c (.panic message) : Op PUnit) := never_failIf nofun

theorem never_sleeping (c : Prop) [Decidable c] :
    Never .nullPointer (failIf c .sleeping : Op PUnit) := never_failIf nofun

theorem never_iget : Never .nullPointer (iget n) := by
  refine never_get.bind fun s => ?_
  split
  · exact (never_set _).bind fun _ => never_pure _
  · split
    · exact (never_set _).bind fun _ => never_pure _
    · exact never_throw nofun

theorem never_idup : Never .nullPointer (idup ip) :=
  never_get.bind fun _ => (never_set _).bind fun _ => never_pure _

theorem never_ilock : Never .nullPointer (ilock ip) :=
  never_get.bind fun _ => (never_panic _ _).bind fun _ => (never_sleeping _).bind fun _ =>
    (never_panic _ _).bind fun _ => never_set _

theorem never_iunlock : Never .nullPointer (iunlock ip) :=
  never_get.bind fun _ => (never_panic _ _).bind fun _ => never_set _

theorem never_iput : Never .nullPointer (iput ip) := by
  refine never_get.bind fun s => (never_sleeping _).bind fun _ => ?_
  split
  · exact never_set _
  · exact never_set _

theorem never_iunlockput : Never .nullPointer (iunlockput ip) :=
  never_iunlock.bind fun _ => never_iput

theorem never_release {α : Type} (a : α) :
    Never .nullPointer (iunlockput ip >>= fun _ => (pure a : Op α)) :=
  never_iunlockput.bind fun _ => never_pure a

theorem never_iupdate {f : Dinode → Dinode} : Never .nullPointer (iupdate ip f) := never_modify _

theorem never_inode : Never .nullPointer (inode ip) := never_get.bind fun _ => never_pure _

theorem never_ialloc : Never .nullPointer (ialloc type) := by
  refine never_get.bind fun s => ?_
  split
  · exact (never_set _).bind fun _ => never_iget
  · exact never_throw nofun

theorem never_writei {src : List UInt8} {off : ℕ} : Never .nullPointer (writei ip src off) := by
  refine never_get.bind fun s => ?_
  split
  · exact never_pure _
  · split
    · exact never_pure _
    · exact (never_panic _ _).bind fun _ => (never_set _).bind fun _ => never_pure _

theorem never_dirlookup : Never .nullPointer (dirlookup dp name) := by
  refine never_inode.bind fun d => (never_panic _ _).bind fun _ => ?_
  split
  · exact never_iget.bind fun _ => never_pure _
  · exact (never_panic _ _).bind fun _ => never_pure _

theorem never_dirlink : Never .nullPointer (dirlink dp name n) := by
  refine never_dirlookup.bind fun o => ?_
  split
  · exact never_iput.bind fun _ => never_pure _
  · exact never_inode.bind fun _ => never_writei.bind fun _ => (never_panic _ _).bind fun _ =>
      never_pure _

theorem never_namexLoop {np : Bool} : Never .nullPointer (namexLoop np names ip) := by
  induction names generalizing ip with
  | nil =>
    cases np with
    | true => exact never_iput.bind fun _ => never_pure _
    | false => exact never_pure _
  | cons name rest ih =>
    refine never_ilock.bind fun _ => never_get.bind fun s => ?_
    split
    · exact never_release _
    · split
      · exact never_release _
      · split
        · exact never_iunlock.bind fun _ => never_pure _
        · refine never_dirlookup.bind fun o => ?_
          split
          · exact never_release _
          · exact never_iunlockput.bind fun _ => ih

theorem never_createFound : Never .nullPointer (createFound type dp ip) := by
  refine never_iunlockput.bind fun _ => never_ilock.bind fun _ => never_get.bind fun s => ?_
  split
  · split
    · exact never_release _
    · exact never_pure _
  · exact never_release _

theorem never_createDots : Never .nullPointer (createDots type dp ip) := by
  unfold createDots
  split
  · exact never_iupdate.bind fun _ => never_get.bind fun _ => never_dirlink.bind fun _ =>
      (never_panic _ _).bind fun _ => never_dirlink.bind fun _ => never_panic _ _
  · exact never_pure _

theorem never_createNew : Never .nullPointer (createNew type major minor dp name) := by
  refine never_get.bind fun s => ?_
  split
  · exact never_release _
  · exact never_ialloc.bind fun _ => never_ilock.bind fun _ => never_iupdate.bind fun _ =>
      never_createDots.bind fun _ => never_get.bind fun _ => never_dirlink.bind fun _ =>
        (never_panic _ _).bind fun _ => never_release _

theorem never_updateUserS : Never .nullPointer (updateUserS ip) :=
  never_get.bind fun _ => never_writei.bind fun _ => never_pure _

theorem never_dropDotdot : Never .nullPointer (dropDotdot type dp) := by
  unfold dropDotdot
  split
  · exact never_iupdate
  · exact never_pure _

/-! ### Paths -/

/-- The elements of a path. -/
def CharPtr.elements (path : CharPtr) : List (List UInt8) :=
  FileSystem.elements path.bytes.length path.bytes

/-- An inode that no path frees: it was in use, or it has links. -/
def Lasting (b : Fs) (disk : ℕ → Dinode) (k : ℕ) : Prop := InUse b k ∨ (disk k).nlink ≠ 0

instance (b : Fs) (disk : ℕ → Dinode) (k : ℕ) : Decidable (Lasting b disk k) :=
  inferInstanceAs (Decidable (_ ∨ _))

/-- A directory in which the user may look a name up. -/
def Searchable (t : UserInfo) (d : Dinode) : Prop :=
  d.type = .dir ∧ getModeBit t d modeXusr modeXoth ≠ 0

instance (t : UserInfo) (d : Dinode) : Decidable (Searchable t d) :=
  inferInstanceAs (Decidable (_ ∧ _))

/-- The inode to which names lead from a directory. -/
def follow (b : Fs) (t : UserInfo) (disk : ℕ → Dinode) : List (List UInt8) → ℕ → Option ℕ
  | [], k => some k
  | name :: rest, k =>
    if Lasting b disk k ∧ Searchable t (disk k) then
      (findEntry name (disk k).data).bind fun i =>
        follow b t disk rest (entryAt (disk k).data i).inum
    else none

/-- A directory in which the user may make an entry with a name that is not there yet. -/
structure Vacant (b : Fs) (t : UserInfo) (disk : ℕ → Dinode) (name : List UInt8) (k : ℕ) :
    Prop where
  lasting : Lasting b disk k
  searchable : Searchable t (disk k)
  fresh : findEntry name (disk k).data = none
  writable : getModeBit t (disk k) modeWusr modeWoth = 1

instance (b : Fs) (t : UserInfo) (disk : ℕ → Dinode) (name : List UInt8) (k : ℕ) :
    Decidable (Vacant b t disk name k) :=
  decidable_of_iff (Lasting b disk k ∧ Searchable t (disk k) ∧
      findEntry name (disk k).data = none ∧ getModeBit t (disk k) modeWusr modeWoth = 1)
    ⟨fun h => ⟨h.1, h.2.1, h.2.2.1, h.2.2.2⟩, fun h => ⟨h.1, h.2, h.3, h.4⟩⟩

/-- Of the names only the last one is not there, and the user may make it. -/
def Lacks (b : Fs) (t : UserInfo) (disk : ℕ → Dinode) (names : List (List UInt8)) (k : ℕ) : Prop :=
  ∃ name ∈ names.getLast?, ∃ m ∈ follow b t disk names.dropLast k, Vacant b t disk name m

/-- In a directory that may be written there is room for each new inode. -/
theorem createNew_isSome (h : getModeBit s.info (s.inode dp) modeWusr modeWoth = 1) :
    Yields (createNew type major minor dp name) s fun o _ => o.isSome = true := by
  refine yields_get_bind ?_
  rw [if_neg (not_not.2 h)]
  refine yields_bind fun ip _ => yields_bind fun _ _ => yields_bind fun _ _ => ?_
  refine yields_bind fun _ _ => yields_bind fun _ _ => yields_bind fun _ _ => ?_
  exact yields_bind fun _ _ => yields_bind fun _ _ => yields_pure rfl

/-- What a call that has started in the state `b` sees: the table and the disk, but for the inodes
that its own paths have freed. -/
structure Sees (b : Fs) (t : UserInfo) (disk : ℕ → Dinode) (l : List (Fin ninode)) (s : Fs) :
    Prop extends Grip b l s where
  info : s.info = t
  disk : ∀ k, Lasting b disk k → s.disk k = disk k

namespace Sees

theorem init (s : Fs) : Sees s s.info s.disk [] s := ⟨.init s, rfl, fun _ _ => rfl⟩

theorem walk (h : Sees b info disk l s) : Walk b s l s := .init h.toGrip

theorem of_walk {l' : List (Fin ninode)} (h : Sees b info disk l s) (hw : Walk b s l' t) :
    Sees b info disk l' t := by
  refine ⟨hw.toGrip, hw.info.trans h.info, fun k hk => ?_⟩
  have heq := h.disk k hk
  rw [← heq]
  rcases hk with hk | hk
  · exact hw.toSpared.inUse hk
  · exact hw.toSpared.linked (heq ▸ hk)

/-- A directory on a path. -/
theorem down {np : Bool} {rest : List (List UInt8)}
    {Q : Option (Fin ninode × List UInt8) → Fs → Prop} (h : Sees b info disk (ip :: l) s)
    (hk : (s.icache ip).inum = k) (hl : Lasting b disk k) (hs : Searchable info (disk k))
    (hnp : np = true → rest ≠ []) (hi : findEntry name (disk k).data = some i)
    (hrest : ∀ next t, Sees b info disk (next :: l) t →
      (t.icache next).inum = (entryAt (disk k).data i).inum →
      Yields (namexLoop np rest next) t Q) : Yields (namexLoop np (name :: rest) ip) s Q := by
  intro r s' hrun
  obtain ⟨_, u, hlock, hrun⟩ := bind_eq_ok.1 hrun
  have hu := h.of_walk ((Walk.ilock h.walk) _ u hlock)
  obtain ⟨-, -, -, heq⟩ := ilock_eq_ok.1 hlock
  cases heq
  have hinode : (s.lock ip).inode ip = disk k := by
    rw [Fs.inode, Fs.inum_lock, hk, hu.disk k hl]
  rw [get_bind, hinode, hu.info, if_neg (not_not.2 hs.1), if_neg hs.2,
    if_neg fun h => hnp h.1 h.2] at hrun
  obtain ⟨o, v, hd, hrun⟩ := bind_eq_ok.1 hrun
  have hv := Walk.dirlookup hu.walk o v hd
  have hfind := (dirlookup_eq_ok.1 hd).2
  rw [hinode] at hfind
  rcases o with _ | ⟨next, j⟩
  · cases hi.symm.trans hfind.1
  · cases hi.symm.trans hfind.1
    obtain ⟨_, w, hp, hrun⟩ := bind_eq_ok.1 hrun
    have hw := Walk.iunlockput (Walk.swap hv) _ w hp
    refine hrest next w (hu.of_walk hw) ?_ r s' hrun
    obtain ⟨-, -, heq⟩ := iunlockput_eq_ok.1 hp
    cases heq
    rw [Fs.inum_put, Fs.inum_unlock, iget_inum hfind.2]

theorem follow_cons {rest : List (List UInt8)} (h : follow b info disk (name :: rest) k = some m) :
    Lasting b disk k ∧ Searchable info (disk k) ∧ ∃ i, findEntry name (disk k).data = some i ∧
      follow b info disk rest (entryAt (disk k).data i).inum = some m := by
  rw [follow] at h
  split at h
  · rename_i hk
    exact ⟨hk.1, hk.2, Option.bind_eq_some_iff.1 h⟩
  · cases h

/-- The names lead to an inode. -/
theorem namexLoop (h : Sees b info disk (ip :: l) s) (hk : (s.icache ip).inum = k)
    (hf : follow b info disk names k = some m) :
    Yields (FileSystem.namexLoop false names ip) s fun o t => ∃ jp, o = some (jp, []) ∧
      (t.icache jp).inum = m ∧ Sees b info disk (jp :: l) t := by
  induction names generalizing ip s k with
  | nil =>
    cases hf
    exact yields_pure ⟨ip, rfl, hk, h⟩
  | cons name rest ih =>
    obtain ⟨hl, hs, i, hi, hf⟩ := follow_cons hf
    exact h.down hk hl hs nofun hi fun next t ht hinum => ih ht hinum hf

/-- All the names but the last lead to a directory. -/
theorem namexLoop_parent (h : Sees b info disk (ip :: l) s) (hk : (s.icache ip).inum = k)
    (hf : follow b info disk names k = some m) (hl : Lasting b disk m)
    (hs : Searchable info (disk m)) :
    Yields (FileSystem.namexLoop true (names ++ [name]) ip) s fun o t => ∃ dp,
      o = some (dp, name) ∧ (t.icache dp).inum = m ∧ Sees b info disk (dp :: l) t := by
  induction names generalizing ip s k with
  | nil =>
    cases hf
    intro r s' hrun
    obtain ⟨_, u, hlock, hrun⟩ := bind_eq_ok.1 hrun
    have hu := h.of_walk ((Walk.ilock h.walk) _ u hlock)
    obtain ⟨-, -, -, heq⟩ := ilock_eq_ok.1 hlock
    cases heq
    have hinode : (s.lock ip).inode ip = disk m := by
      rw [Fs.inode, Fs.inum_lock, hk, hu.disk m hl]
    rw [get_bind, hinode, hu.info, if_neg (not_not.2 hs.1), if_neg hs.2,
      if_pos ⟨rfl, rfl⟩] at hrun
    obtain ⟨_, v, hunlock, hrun⟩ := bind_eq_ok.1 hrun
    have hv := hu.of_walk ((Walk.iunlock hu.walk) _ v hunlock)
    obtain ⟨-, -, heq⟩ := iunlock_eq_ok.1 hunlock
    cases heq
    cases pure_eq_ok.1 hrun
    exact ⟨ip, rfl, by rw [Fs.inum_unlock, Fs.inum_lock, hk], hv⟩
  | cons name' rest ih =>
    obtain ⟨hl', hs', i, hi, hf⟩ := follow_cons hf
    exact h.down hk hl' hs' (fun _ => by simp) hi fun next t ht hinum => ih ht hinum hf

theorem start {path : List UInt8} (h : Sees b info disk l s) (hp : Homed b p path) :
    Yields (start p path) s fun ip t => Sees b info disk (ip :: l) t ∧
      Walk.startInum b p path = some (t.icache ip).inum :=
  (Walk.start h.walk hp).mono fun _ _ ht => ⟨h.of_walk ht.1, ht.2⟩

theorem namei (h : Sees b info disk l s) (hp : Homed b p path.bytes)
    (hk : Walk.startInum b p path.bytes = some k)
    (hf : follow b info disk path.elements k = some m) :
    Yields (namei p path) s fun o t => ∃ ip, o = some ip ∧ (t.icache ip).inum = m ∧
      Sees b info disk (ip :: l) t := by
  refine (h.start hp).bind (Q := fun o t => ∃ jp, o = some (jp, []) ∧
    (t.icache jp).inum = m ∧ Sees b info disk (jp :: l) t) (fun ip t ht => ?_) |>.bind ?_
  · rw [hk] at ht
    exact ht.1.namexLoop (Option.some.inj ht.2).symm hf
  · rintro o t ⟨jp, rfl, hinum, ht⟩
    exact yields_pure ⟨jp, rfl, hinum, ht⟩

/-- There is a new inode, where a path lacks its last name only. -/
theorem create (h : Sees b info disk l s) (hp : Homed b p path.bytes)
    (hk : Walk.startInum b p path.bytes = some k) (hf : Lacks b info disk path.elements k) :
    Yields (create p path type 0 0) s fun o t => ∃ ip, o = some ip ∧
      ∃ name ∈ path.elements.getLast?, ∃ m ∈ follow b info disk path.elements.dropLast k,
        ∃ dp u n, Sees b info disk (dp :: l) u ∧ Created b u type name m n l ip t := by
  obtain ⟨name, hname, m, hm, hv⟩ := hf
  have hsplit := List.dropLast_append_getLast? name hname
  have hparent : Yields (nameiparent p path) s fun o t => ∃ dp, o = some (dp, name) ∧
      (t.icache dp).inum = m ∧ Sees b info disk (dp :: l) t := by
    refine (h.start hp).bind fun ip t ht => ?_
    rw [hk] at ht
    change Yields (FileSystem.namexLoop true path.elements ip) t _
    rw [← hsplit]
    exact ht.1.namexLoop_parent (Option.some.inj ht.2).symm hm hv.lasting hv.searchable
  refine hparent.bind ?_
  rintro o t ⟨dp, rfl, hinum, ht⟩
  intro r s' hrun
  obtain ⟨_, u, hlock, hrun⟩ := bind_eq_ok.1 hrun
  have hu := ht.of_walk ((Walk.ilock ht.walk) _ u hlock)
  obtain ⟨href, -, -, heq⟩ := ilock_eq_ok.1 hlock
  cases heq
  have hdp : ((t.lock dp).icache dp).inum = m := (Fs.inum_lock dp).trans hinum
  have hinode : (t.lock dp).inode dp = disk m := by rw [Fs.inode, hdp, hu.disk m hv.lasting]
  obtain ⟨o, v, hd, hrun⟩ := bind_eq_ok.1 hrun
  obtain ⟨hdir, hfind⟩ := dirlookup_eq_ok.1 hd
  rcases o with _ | ⟨next, i⟩
  · obtain ⟨hfresh, hfull, rfl⟩ := hfind
    have hisName : IsName name := isName_elements path.nonul (List.mem_of_mem_getLast? hname)
    have hsome := createNew_isSome (by rw [hu.info, hinode]; exact hv.writable) r s' hrun
    obtain ⟨ip, rfl⟩ := Option.isSome_iff_exists.1 hsome
    obtain ⟨n, hn⟩ := created_createNew hu.toGrip hdir (by simpa [Fs.lock] using href) hisName
      hfresh hfull _ s' hrun ip rfl
    rw [hdp] at hn
    exact ⟨ip, rfl, name, hname, m, hm, dp, _, n, hu, hn⟩
  · rw [hinode, hv.fresh] at hfind
    cases hfind.1

end Sees

/-! ### The file userS -/

/-- The disk after the table has been written to an inode. -/
def saved (disk : ℕ → Dinode) (n : ℕ) (t : UserInfo) : ℕ → Dinode :=
  if (disk n).type = .dev then disk else update disk n ((disk n).save t)

theorem saved_of_ne (h : k ≠ n) : saved disk n info k = disk k := by
  rw [saved]
  split
  · rfl
  · exact update_of_ne h ..

theorem saved_self : saved disk n info n =
    if (disk n).type = .dev then disk n else (disk n).save info := by
  rw [saved]
  split
  · rfl
  · exact update_self ..

theorem nlink_saved : (saved disk n info k).nlink = (disk k).nlink := by
  by_cases h : k = n
  · subst h
    rw [saved_self]
    split
    · rfl
    · rfl
  · rw [saved_of_ne h]

theorem updateUserS_saved : Yields (updateUserS ip) s fun _ t =>
    t = { s with disk := saved s.disk (s.icache ip).inum s.info } := by
  refine yields_get_bind ?_
  intro _ t hrun
  obtain ⟨r, u, hw, hrun⟩ := bind_eq_ok.1 hrun
  cases pure_eq_ok.1 hrun
  rw [saved]
  by_cases hdev : (s.disk (s.icache ip).inum).type = .dev
  · rw [if_pos hdev]
    rcases writei_cases hw with ⟨-, rfl⟩ | ⟨hne, -⟩
    · rfl
    · exact absurd hdev hne
  · rw [if_neg hdev]
    exact (writei_inside hw hdev (Nat.zero_le _) (by rw [UserInfo.length_bytes]; decide)).2

namespace Sees

theorem setInfo (h : Sees b info disk l s) : Sees b info' disk l { s with info := info' } :=
  ⟨h.toGrip.congr rfl rfl, rfl, h.disk⟩

/-- The table is written to the file. -/
theorem updateUserS (h : Sees b info disk l s) (hn : (s.icache ip).inum = n) :
    Yields (updateUserS ip) s fun _ t => Sees b info (saved disk n info) l t := by
  intro _ t hrun
  have heq := updateUserS_saved _ t hrun
  subst heq
  refine ⟨h.toGrip.congr rfl rfl, h.info, fun k hk => ?_⟩
  rw [Lasting, nlink_saved] at hk
  have hk := h.disk k hk
  dsimp only
  rw [hn, h.info]
  by_cases hkn : k = n
  · subst hkn
    rw [saved_self, saved_self, hk]
  · rw [saved_of_ne hkn, saved_of_ne hkn, hk]

end Sees

/-! ### Home directories -/

theorem startInum_congr {path : List UInt8} (hc : t.cwd = s.cwd) :
    Walk.startInum t p path ≠ none ↔ Walk.startInum s p path ≠ none := by
  rw [Walk.startInum, Walk.startInum, hc]
  split
  · simp
  · simp

/-- A path that starts somewhere. -/
theorem avoids_start {path : List UInt8} (h : Walk.startInum s p path ≠ none) :
    Avoids .nullPointer (start p path) s := by
  rw [Walk.startInum] at h
  unfold start
  split
  · exact never_iget s
  · rename_i hslash
    rw [if_neg hslash] at h
    refine avoids_get_bind ((avoids_ofOption fun hcwd => ?_).bind fun _ _ _ => never_idup _)
    rw [hcwd] at h
    exact h rfl

theorem avoids_namex {np : Bool} (h : Walk.startInum s p path.bytes ≠ none) :
    Avoids .nullPointer (namex p path np) s :=
  (avoids_start h).bind fun _ _ _ => never_namexLoop _

theorem avoids_namei (h : Walk.startInum s p path.bytes ≠ none) :
    Avoids .nullPointer (namei p path) s := (avoids_namex h).bind fun _ _ _ => never_pure _ _

theorem avoids_create (h : Walk.startInum s p path.bytes ≠ none) :
    Avoids .nullPointer (create p path type major minor) s := by
  refine (avoids_namex h).bind fun o t _ => ?_
  split
  · exact never_pure _ _
  · refine (never_ilock _).bind fun _ _ _ => (never_dirlookup _).bind fun _ _ _ => ?_
    split
    · exact never_createFound _
    · exact never_createNew _

/-- The path leads to an inode, or it lacks its last name only. -/
def Ends (b : Fs) (t : UserInfo) (disk : ℕ → Dinode) (p : Fin nproc) (path : CharPtr) : Prop :=
  Homed b p path.bytes ∧ ∃ k ∈ Walk.startInum b p path.bytes,
    (follow b t disk path.elements k).isSome = true ∨ Lacks b t disk path.elements k

theorem Sees.avoids_makeHome {username : CharPtr} (h : Sees b info disk [] s)
    (he : Ends b info disk p username) : Avoids .nullPointer (makeHome p username) s := by
  obtain ⟨hp, k, hk, he⟩ := he
  have hstart : ∀ {t : Fs}, t.cwd = b.cwd → Walk.startInum t p username.bytes ≠ none :=
    fun hc => (startInum_congr hc).2 fun hn => by cases hk.symm.trans hn
  refine (avoids_namei (hstart h.cwd)).bind fun o t hn => ?_
  cases o with
  | some ip => exact never_iput t
  | none =>
    have ht := h.of_walk ((Walk.namei h.walk hp) _ t hn)
    rcases he with he | he
    · obtain ⟨m, hm⟩ := Option.isSome_iff_exists.1 he
      obtain ⟨ip, hip, -⟩ := h.namei hp hk hm _ t hn
      cases hip
    · refine (avoids_create (hstart ht.cwd)).bind fun o u hc => ?_
      obtain ⟨ip, rfl, -⟩ := ht.create hp hk he o u hc
      refine (avoids_ofOption (Option.some_ne_none ip)).bind fun _ _ _ => ?_
      exact (never_iupdate.bind fun _ => never_iunlockput) _

/-! ### sys_addUser -/

theorem startInum_userS : Walk.startInum s p userSPath.bytes = some rootino := if_pos rfl

theorem homed_userS : Homed s p userSPath.bytes := fun hn => absurd rfl hn

/-- The home directory of the user that is added is there, or it can be made. -/
def MayAdd (s : Fs) (p : Fin nproc) (username : CharPtr) (info : UserInfo) : Prop :=
  ∃ n ∈ follow s s.info s.disk userSPath.elements rootino,
    Ends s info (saved s.disk n info) p username

theorem avoids_addUser {username password : CharPtr}
    (h : s.info.IsRoot → s.HasUserS → (s.info.addUser username.str password.str).1 = 0 →
      MayAdd s p username (s.info.addUser username.str password.str).2) :
    Avoids .nullPointer (sysAddUser p username password) s := by
  have hs := Sees.init s
  refine avoids_get_bind ?_
  split
  · exact never_pure _ s
  rename_i hroot
  have hstart : Walk.startInum s p userSPath.bytes ≠ none := by
    rw [startInum_userS]
    exact Option.some_ne_none _
  refine (avoids_namei hstart).bind fun o t hn => ?_
  cases o with
  | none => exact never_pure _ t
  | some userS =>
    have ht := (Walk.namei hs.walk homed_userS) _ t hn
    refine (never_ilock t).bind fun _ u hu => (never_iunlock u).bind fun _ v hv =>
      (never_ilock v).bind fun _ w hw => avoids_get_bind ?_
    have hwalk := (Walk.ilock ((Walk.iunlock ((Walk.ilock ht) _ u hu)) _ v hv)) _ w hw
    dsimp only
    split
    · exact never_release _ w
    · rename_i hr
      rw [hwalk.info] at hr ⊢
      obtain ⟨n, hfollow, hends⟩ := h (not_not.1 hroot) ((FileSystem.namei_userS hn).1 rfl)
        (not_not.1 hr)
      obtain ⟨ip, hip, hinum, -⟩ := hs.namei homed_userS startInum_userS hfollow _ t hn
      cases hip
      have hwn : (w.icache userS).inum = n := by
        obtain ⟨-, -, -, heq⟩ := ilock_eq_ok.1 hw
        cases heq
        obtain ⟨-, -, heq⟩ := iunlock_eq_ok.1 hv
        cases heq
        obtain ⟨-, -, -, heq⟩ := ilock_eq_ok.1 hu
        cases heq
        rw [Fs.inum_lock, Fs.inum_unlock, Fs.inum_lock, hinum]
      refine (never_modify _ w).bind fun _ x hx => ?_
      cases modify_eq_ok.1 hx
      refine (never_updateUserS _).bind fun _ y hy => (never_iunlockput y).bind fun _ z hz => ?_
      have hsees := ((hs.of_walk hwalk).setInfo.updateUserS (by exact hwn)) _ y hy
      have hz := hsees.of_walk ((Walk.iunlockput hsees.walk) _ z hz)
      exact (hz.avoids_makeHome hends).bind fun _ _ _ => never_pure _ _

/-- A failed `addUser` has not changed the table, nor an inode that was in use or has links. -/
theorem kept_addUser {username password : CharPtr} :
    Yields (sysAddUser p username password) s fun r t => r = -1 →
      t.info = s.info ∧ ∀ k, Lasting s s.disk k → t.disk k = s.disk k := by
  have hs := Sees.init s
  have hsees : ∀ t, Sees s s.info s.disk [] t → (-1 : ℤ) = -1 →
      t.info = s.info ∧ ∀ k, Lasting s s.disk k → t.disk k = s.disk k :=
    fun t ht _ => ⟨ht.info, ht.disk⟩
  refine yields_get_bind ?_
  split
  · exact yields_pure (hsees s hs)
  refine (Walk.namei hs.walk homed_userS).bind fun o t ht => ?_
  cases o with
  | none => exact yields_pure (hsees t (hs.of_walk ht))
  | some userS =>
    refine (Walk.ilock ht).bind fun _ u hu => (Walk.iunlock hu).bind fun _ v hv => ?_
    refine (Walk.ilock hv).bind fun _ w hw => yields_get_bind ?_
    dsimp only
    split
    · exact Walk.release hw fun x hx => hsees x (hs.of_walk hx)
    · refine yields_bind fun _ _ => yields_bind fun _ _ => yields_bind fun _ _ => ?_
      refine yields_bind fun _ _ => yields_pure fun h => ?_
      cases h

/-! ### sys_myopen -/

theorem Sees.avoids_loadUsers (h : Sees b info disk [] s)
    (hf : follow b info disk userSPath.elements rootino = some n) :
    Avoids .nullPointer (loadUsers p typed) s := by
  refine (avoids_namei (by rw [startInum_userS]; exact Option.some_ne_none _)).bind fun o t hn => ?_
  obtain ⟨ip, rfl, -⟩ := h.namei homed_userS startInum_userS hf _ t hn
  refine (avoids_ofOption (Option.some_ne_none ip)).bind fun _ _ _ => ?_
  exact (never_ilock.bind fun _ => never_get.bind fun _ => (never_modify _).bind fun _ =>
    never_updateUserS.bind fun _ => never_iunlockput) _

theorem Sees.loadUsers (h : Sees b info disk [] s)
    (hf : follow b info disk userSPath.elements rootino = some n) (hn : Lasting b disk n)
    (hinfo : info' = info.myopen ((readi (disk n) typed 0 privSize).getD [])) :
    Yields (loadUsers p typed) s fun _ t => Sees b info' (saved disk n info') [] t := by
  refine (h.namei homed_userS startInum_userS hf).bind fun o t ht => ?_
  obtain ⟨ip, rfl, hinum, ht⟩ := ht
  refine yields_ofOption_bind fun jp hjp => ?_
  cases hjp
  intro _ s' hrun
  obtain ⟨_, u, hl, hrun⟩ := bind_eq_ok.1 hrun
  have hu := ht.of_walk ((Walk.ilock ht.walk) _ u hl)
  obtain ⟨-, -, -, heq⟩ := ilock_eq_ok.1 hl
  cases heq
  have hip : ((t.lock ip).icache ip).inum = n := (Fs.inum_lock ip).trans hinum
  rw [get_bind, Fs.inode, hip, hu.disk n hn, hu.info, ← hinfo] at hrun
  obtain ⟨_, v, hset, hrun⟩ := bind_eq_ok.1 hrun
  cases modify_eq_ok.1 hset
  obtain ⟨_, w, hw, hrun⟩ := bind_eq_ok.1 hrun
  have hw := (hu.setInfo.updateUserS (by exact hip)) _ w hw
  exact hw.of_walk ((Walk.iunlockput hw.walk) _ s' hrun)

theorem lacks_tmp (h : Vacant b info disk tmpPath.bytes k) :
    Lacks b info disk tmpPath.elements k :=
  ⟨tmpPath.bytes, rfl, k, rfl, h⟩

/-- The end of `sys_myopen`, where the directory `tmp` can be made. -/
theorem Sees.avoids_tmp (h : Sees b info disk [] s) (hp : Homed b p tmpPath.bytes)
    (hk : Walk.startInum b p tmpPath.bytes = some k) (hv : Vacant b info disk tmpPath.bytes k) :
    Avoids .nullPointer (do
      let ip ← FileSystem.create p tmpPath .dir 0 0
      let ip ← ofOption .nullPointer ip
      iunlockput ip
      removeTmp p) s := by
  have hstart : ∀ {t : Fs}, t.cwd = b.cwd → Walk.startInum t p tmpPath.bytes ≠ none :=
    fun hc => (startInum_congr hc).2 fun hn => by cases hk.symm.trans hn
  refine (avoids_create (hstart h.cwd)).bind fun o t hc => ?_
  obtain ⟨ip, rfl, name, -, m, -, dp, u, n, -, hm⟩ := h.create hp hk (lacks_tmp hv) o t hc
  refine (avoids_ofOption (Option.some_ne_none ip)).bind fun _ _ hip => ?_
  cases pure_eq_ok.1 hip
  refine (never_iunlockput t).bind fun _ v hput => ?_
  have hv := (Walk.iunlockput (Walk.init hm.grip)) _ v hput
  refine (avoids_namex (hstart hv.cwd)).bind fun o w _ => ?_
  split
  · exact never_pure _ w
  · refine (never_ilock.bind fun _ => never_dirlookup.bind fun o => ?_) w
    split
    · exact never_release _
    · refine never_ilock.bind fun _ => never_inode.bind fun d => (never_panic _ _).bind fun _ =>
        (never_panic _ _).bind fun _ => ?_
      split
      · exact never_release _
      · exact never_writei.bind fun _ => (never_panic _ _).bind fun _ =>
          never_dropDotdot.bind fun _ => never_iupdate.bind fun _ => never_iunlockput.bind fun _ =>
            never_iupdate.bind fun _ => never_release _

/-- The file `userS` is there. -/
theorem avoids_myopen (hf : follow s s.info s.disk userSPath.elements rootino = some n)
    (hn : Lasting s s.disk n) (hp : Homed s p tmpPath.bytes)
    (hinfo : info' = s.info.myopen ((readi (s.disk n) typed 0 privSize).getD []))
    (hk : Walk.startInum s p tmpPath.bytes = some k)
    (hv : Vacant s info' (saved s.disk n info') tmpPath.bytes k) :
    Avoids .nullPointer (sysMyopen p typed) s := by
  have hs := Sees.init s
  have hstart : Walk.startInum s p userSPath.bytes ≠ none := by
    rw [startInum_userS]
    exact Option.some_ne_none _
  have hmake : Yields (makeUserS p) s fun ip t => Sees s s.info s.disk [ip] t := by
    refine (hs.namei homed_userS startInum_userS hf).bind fun o t ht => ?_
    obtain ⟨ip, rfl, -, ht⟩ := ht
    exact yields_pure ht
  have havoid : Avoids .nullPointer (makeUserS p) s := by
    refine (avoids_namei hstart).bind fun o t hn => ?_
    obtain ⟨ip, rfl, -⟩ := hs.namei homed_userS startInum_userS hf _ t hn
    exact never_pure _ t
  refine havoid.bind fun ip t ht => (never_iput t).bind fun _ u hu => ?_
  have ht := hmake ip t ht
  have hu := ht.of_walk ((Walk.iput ht.walk) _ u hu)
  refine (hu.avoids_loadUsers hf).bind fun _ v hl => ?_
  exact (hu.loadUsers hf hn hinfo _ v hl).avoids_tmp hp hk hv

/-! ### A new file userS -/

/-- An entry with another name does not give a directory a name that it lacks. -/
theorem findEntry_linkData_none {data name' : List UInt8} (hsize : data.length % 16 = 0)
    (hn : n < 2 ^ 16) (hname : IsName name') (hnone : findEntry name data = none)
    (hne : namecmp name name' ≠ 0) : findEntry name (linkData data name' n) = none := by
  rw [findEntry_none, entries_linkData_put hsize hn hname]
  intro de hde
  rcases mem_putEntry hde with rfl | hde
  · exact fun h => hne h.2
  · exact findEntry_none.1 hnone de hde

section Anew

variable {u w : Fs} {d : Dinode}

/-- The state in which the new file `userS`, the inode `m`, has been given back twice. -/
structure Anew (b : Fs) (m : ℕ) (s : Fs) : Prop where
  cwd : s.cwd = b.cwd
  info : s.info = b.info
  slot : ∀ ip, 1 ≤ (b.icache ip).ref → (b.icache ip).inum ≠ m →
    1 ≤ (s.icache ip).ref ∧ (s.icache ip).inum = (b.icache ip).inum
  file : (s.disk m).type = .file ∧ (s.disk m).nlink ≠ 0 ∧ (s.disk m).data = []
  free : ∀ k, Lasting b b.disk k → (b.disk k).type ≠ .free → k ≠ m
  dir : ∀ k, Lasting b b.disk k → (b.disk k).type = .dir → s.disk k =
    if k = rootino then parentInode (b.disk k) .file userSName m else b.disk k
  entry : Lasting b b.disk rootino → NamesUserS (s.disk rootino).data m

/-- The file `userS` that has been made, with its owner, is given back twice. -/
theorem Created.anew (h : Created b u .file userSName rootino m [] ip w)
    (hu : ∀ k, Lasting b b.disk k → u.disk k = b.disk k) (hinfo : u.info = b.info)
    (hd : d.type = .file ∧ d.nlink ≠ 0 ∧ d.data = []) :
    Anew b m ((((w.setInode ip d).unlock ip).put ip).put ip) := by
  have hx : ((w.setInode ip d).unlock ip).disk = update w.disk m d := by
    rw [← h.inum]
    rfl
  have hlast : ∀ {v : Fs}, v.disk = update w.disk m d → (v.icache ip).inum = m →
      (v.put ip).disk = update w.disk m d := fun hv hinum => by
    rw [Fs.disk_put_of_nlink, hv]
    rw [Fs.inode, hv, hinum, update_self]
    exact hd.2.1
  have hinum : (((w.setInode ip d).unlock ip).icache ip).inum = m :=
    (Fs.inum_unlock ip).trans h.inum
  have hdisk : ((((w.setInode ip d).unlock ip).put ip).put ip).disk = update w.disk m d :=
    hlast (hlast hx hinum) ((Fs.inum_put ip).trans hinum)
  have hfree : ∀ k, Lasting b b.disk k → (b.disk k).type ≠ .free → k ≠ m := by
    rintro k hk htype rfl
    rw [← hu k hk] at htype
    exact htype h.free
  have hdir : ∀ k, Lasting b b.disk k → (b.disk k).type = .dir → update w.disk m d k =
      if k = rootino then parentInode (b.disk k) .file userSName m else b.disk k := by
    intro k hk htype
    have hused : (b.disk k).type ≠ .free := by
      rw [htype]
      exact fun h => by cases h
    have hkm := hfree k hk hused
    have heq := hu k hk
    rw [update_of_ne hkm]
    split
    · rename_i hroot
      subst hroot
      rw [← heq]
      have hnew : newDisk u.disk .file 0 0 rootino m userSName rootino =
          parentInode (u.disk rootino) .file userSName m := by
        rw [newDisk, update_of_ne hkm, update_self]
      rw [← hnew]
      refine h.disk rootino (hk.elim (.inr ∘ .inl) fun hk => .inr (.inr ?_))
      rw [hnew, heq]
      exact hk
    · rw [← heq]
      exact h.disk_of_ne ‹_› (heq ▸ hused)
  refine ⟨?_, ?_, fun jp href hne => ?_, ?_, hfree, ?_, ?_⟩
  · rw [Fs.cwd_put, Fs.cwd_put]
    exact h.grip.cwd
  · rw [Fs.info_put, Fs.info_put]
    exact h.info.trans hinfo
  · have hjp : jp ≠ ip := by
      rintro rfl
      exact hne ((h.grip.inum jp href).symm.trans h.inum)
    rw [icache_put_of_ne hjp, icache_put_of_ne hjp, Fs.unlock, Fs.icache_setSlot_of_ne hjp]
    have hw := h.grip.ref jp
    rw [List.count_eq_zero_of_not_mem (by simpa using hjp)] at hw
    refine ⟨?_, h.grip.inum jp href⟩
    rw [Fs.icache_setInode]
    omega
  · rw [hdisk, update_self]
    exact hd
  · rw [hdisk]
    exact hdir
  · intro hk
    rw [hdisk]
    have hroot : (u.disk rootino).type = .dir := h.dir
    rw [hdir rootino hk (hu rootino hk ▸ hroot), if_pos rfl, ← hu rootino hk]
    exact namesUserS_linkData h.full (Nat.one_le_iff_ne_zero.1 h.lt.1)
      (h.lt.2.trans (by decide)) h.fresh

namespace Anew

variable (h : Anew b m s)
include h

/-- A directory can be searched as before. -/
theorem dir_eq (hk : Lasting b b.disk k) (hs : Searchable info (b.disk k)) :
    Lasting s s.disk k ∧ Searchable info (s.disk k) ∧
      getModeBit info (s.disk k) modeWusr modeWoth =
        getModeBit info (b.disk k) modeWusr modeWoth := by
  have hdir := h.dir k hk hs.1
  have hkm := h.free k hk (by rw [hs.1]; exact fun h => by cases h)
  have hlast : (s.disk k).nlink = (b.disk k).nlink → Lasting s s.disk k := by
    intro hlink
    rcases hk with ⟨ip, href, hinum⟩ | hk
    · obtain ⟨href', hinum'⟩ := h.slot ip href (hinum ▸ hkm)
      exact .inl ⟨ip, href', hinum'.trans hinum⟩
    · exact .inr (hlink ▸ hk)
  split at hdir
  · rw [hdir] at hlast ⊢
    exact ⟨hlast rfl, hs, rfl⟩
  · rw [hdir] at hlast ⊢
    exact ⟨hlast rfl, hs, rfl⟩

/-- The file is found. -/
theorem follow (hk : Lasting b b.disk rootino) (hs : Searchable info (b.disk rootino)) :
    follow s info s.disk userSPath.elements rootino = some m := by
  obtain ⟨hl, hs, -⟩ := h.dir_eq hk hs
  obtain ⟨i, hi, hm⟩ := h.entry hk
  change (if _ then (findEntry userSName (s.disk rootino).data).bind _ else none) = _
  rw [if_pos ⟨hl, hs⟩, hi]
  exact congrArg some hm

/-- Another name can be made where it could be made before. -/
theorem vacant (hm : m < 2 ^ 16) (hsize : (b.disk rootino).size % 16 = 0)
    (hne : namecmp name userSName ≠ 0) (hv : Vacant b info b.disk name k) :
    Vacant s info (saved s.disk m info') name k := by
  obtain ⟨hl, hs, hw⟩ := h.dir_eq hv.lasting hv.searchable
  have hkm := h.free k hv.lasting (by rw [hv.searchable.1]; exact fun h => by cases h)
  have heq : saved s.disk m info' k = s.disk k := saved_of_ne hkm
  refine ⟨?_, ?_, ?_, ?_⟩
  · rw [Lasting, nlink_saved]
    exact hl
  · rw [heq]
    exact hs
  · rw [heq, h.dir k hv.lasting hv.searchable.1]
    split
    · rename_i hk
      subst hk
      exact findEntry_linkData_none hsize hm ⟨by decide, by decide, by decide⟩ hv.fresh hne
    · exact hv.fresh
  · rw [heq, hw]
    exact hv.writable

/-- The current directory is the same. -/
theorem homed {path : List UInt8} (hp : Homed b p path)
    (hk : Walk.startInum b p path = some k) (hv : Vacant b info b.disk name k) :
    Homed s p path ∧ Walk.startInum s p path = some k := by
  have hkm := h.free k hv.lasting (by rw [hv.searchable.1]; exact fun h => by cases h)
  rw [Walk.startInum] at hk ⊢
  rw [Homed, h.cwd]
  split at hk
  · rename_i hslash
    rw [if_pos hslash]
    exact ⟨fun hn => absurd hslash hn, hk⟩
  · rename_i hslash
    rw [if_neg hslash]
    obtain ⟨ip, hcwd, rfl⟩ := Option.map_eq_some_iff.1 hk
    obtain ⟨href, hinum⟩ := h.slot ip (hp hslash ip hcwd) hkm
    refine ⟨fun _ jp hjp => ?_, ?_⟩
    · cases hcwd.symm.trans hjp
      exact href
    · rw [hcwd, Option.map_some, hinum]

end Anew

theorem lacks_userS (h : Vacant b info disk userSName rootino) :
    Lacks b info disk userSPath.elements rootino := ⟨userSName, rfl, rootino, rfl, h⟩

/-- The file `userS` is not there, and is made. -/
theorem makeUserS_anew (hv : Vacant s s.info s.disk userSName rootino) :
    Avoids .nullPointer (makeUserS p) s ∧ Yields (makeUserS p) s fun ip t => ∃ m,
      m < 2 ^ 16 ∧ (s.disk rootino).size % 16 = 0 ∧ Anew s m (t.put ip) := by
  have hs := Sees.init s
  have hstart : ∀ {t : Fs}, Walk.startInum t p userSPath.bytes ≠ none := by
    intro t
    rw [startInum_userS]
    exact Option.some_ne_none _
  have hnone : Yields (FileSystem.namei p userSPath) s fun o t => o = none ∧
      Sees s s.info s.disk [] t := by
    intro o t hn
    have ht := (Walk.namei hs.walk homed_userS) o t hn
    cases o with
    | none => exact ⟨rfl, hs.of_walk ht⟩
    | some ip =>
      obtain ⟨-, -, hsome⟩ := (FileSystem.namei_userS hn).1 rfl
      change (findEntry userSName (s.disk rootino).data).isSome = true at hsome
      rw [hv.fresh] at hsome
      cases hsome
  constructor
  · refine (avoids_namei hstart).bind fun o t hn => ?_
    obtain ⟨rfl, ht⟩ := hnone o t hn
    refine (avoids_create hstart).bind fun o u hc => ?_
    obtain ⟨ip, rfl, -⟩ := ht.create homed_userS startInum_userS (lacks_userS hv) o u hc
    refine (avoids_ofOption (Option.some_ne_none ip)).bind fun _ _ _ => ?_
    exact (never_iupdate.bind fun _ => never_release _) _
  · refine hnone.bind fun o t hot => ?_
    obtain ⟨rfl, ht⟩ := hot
    refine (ht.create homed_userS startInum_userS (lacks_userS hv)).bind fun o w hw => ?_
    obtain ⟨ip, rfl, name, hname, k, hk, dp, u, m, hu, hm⟩ := hw
    cases hname
    cases hk
    refine yields_ofOption_bind fun jp hjp => ?_
    cases hjp
    intro r s' hrun
    obtain ⟨_, _, hset, hrun⟩ := bind_eq_ok.1 hrun
    cases iupdate_eq_ok.1 hset
    obtain ⟨_, x, hput, hrun⟩ := bind_eq_ok.1 hrun
    obtain ⟨-, -, heq⟩ := iunlockput_eq_ok.1 hput
    cases heq
    cases pure_eq_ok.1 hrun
    have hnew : w.inode ip = newInode .file 0 0 m rootino := by rw [Fs.inode, hm.inum, hm.new]
    refine ⟨m, hm.lt.2.trans (by decide), ?_, hm.anew hu.disk hu.info ?_⟩
    · rw [← hu.disk rootino hv.lasting]
      exact hm.full
    · rw [hnew]
      exact ⟨rfl, one_ne_zero, rfl⟩

/-- The file `userS` is not there. -/
theorem avoids_myopen_anew (hv : Vacant s s.info s.disk userSName rootino)
    (hp : Homed s p tmpPath.bytes) (hk : Walk.startInum s p tmpPath.bytes = some k)
    (hv' : Vacant s (s.info.myopen []) s.disk tmpPath.bytes k) :
    Avoids .nullPointer (sysMyopen p typed) s := by
  obtain ⟨havoid, hmake⟩ := makeUserS_anew (p := p) hv
  refine havoid.bind fun ip t ht => (never_iput t).bind fun _ u hu => ?_
  obtain ⟨m, hm, hsize, hanew⟩ := hmake ip t ht
  obtain ⟨-, heq⟩ := iput_eq_ok.1 hu
  cases heq
  have hs := Sees.init (t.put ip)
  have hf := hanew.follow hv.lasting hv.searchable
  rw [hanew.info] at hs
  refine (hs.avoids_loadUsers hf).bind fun _ v hl => ?_
  have hinfo : s.info.myopen [] = s.info.myopen
      ((readi ((t.put ip).disk m) typed 0 privSize).getD []) := by
    rw [readi_userS hanew.file.1, hanew.file.2.2]
    rfl
  obtain ⟨hp, hk⟩ := hanew.homed hp hk hv'
  exact (hs.loadUsers hf (.inr hanew.file.2.1) hinfo _ v hl).avoids_tmp hp hk
    (hanew.vacant hm hsize (by decide) hv')

end Anew

/-! ### Runs -/

/-- The table that `myopen` reads from an inode. -/
def loaded (s : Fs) (n : ℕ) (typed : List UInt8) : UserInfo :=
  s.info.myopen ((readi (s.disk n) typed 0 privSize).getD [])

/-- The file `userS` is there or it can be made, and the directory `tmp` can be made. -/
def MayOpen (s : Fs) (p : Fin nproc) (typed : List UInt8) : Prop :=
  Homed s p tmpPath.bytes ∧ ∃ k ∈ Walk.startInum s p tmpPath.bytes,
    (∃ n ∈ follow s s.info s.disk userSPath.elements rootino, Lasting s s.disk n ∧
      Vacant s (loaded s n typed) (saved s.disk n (loaded s n typed)) tmpPath.bytes k) ∨
    Vacant s s.info s.disk userSName rootino ∧
      Vacant s (s.info.myopen []) s.disk tmpPath.bytes k

/-- What a call on the users has to make can be made. -/
def Provided (s : Fs) (e : Fin nproc × Call) : Prop :=
  match e.2 with
  | .myopen typed => MayOpen s e.1 typed
  | .addUser username password =>
    s.info.IsRoot → s.HasUserS → (s.info.addUser username.str password.str).1 = 0 →
      MayAdd s e.1 username (s.info.addUser username.str password.str).2
  | _ => True

/-- The call uses no null pointer, and an `addUser` that fails leaves the table of the users, and
each inode that was in use or has links. -/
def Careful (s : Fs) (e : Fin nproc × Call) : Prop :=
  match e.2 with
  | .myopen typed => (sysMyopen e.1 typed).run s ≠ .error .nullPointer
  | .addUser username password =>
    (sysAddUser e.1 username password).run s ≠ .error .nullPointer ∧
      ∀ s', (sysAddUser e.1 username password).run s = .ok (-1, s') →
        s'.info = s.info ∧ ∀ k, Lasting s s.disk k → s'.disk k = s.disk k
  | _ => True

theorem Provided.careful {e : Fin nproc × Call} (h : Provided s e) : Careful s e := by
  obtain ⟨p, c⟩ := e
  cases c with
  | myopen typed =>
    obtain ⟨hp, k, hk, ⟨n, hf, hn, hv⟩ | ⟨hv, hv'⟩⟩ := h
    · exact avoids_myopen hf hn hp rfl hk hv
    · exact avoids_myopen_anew hv hp hk hv'
  | addUser username password =>
    exact ⟨avoids_addUser h, fun s' hrun => kept_addUser _ s' hrun rfl⟩
  | _ => trivial

/-- In each run in which what the calls on the users have to make can be made, no null pointer is
used, and an `addUser` that fails changes nothing. -/
theorem missing_inode_unused (s : Fs) {es : List (Fin nproc × Call)}
    (h : Trace.Along step Provided s es) : Trace.Along step Careful s es :=
  h.mono fun _ _ h => h.careful

instance (b : Fs) (t : UserInfo) (disk : ℕ → Dinode) (names : List (List UInt8)) (k : ℕ) :
    Decidable (Lacks b t disk names k) :=
  inferInstanceAs (Decidable (∃ name ∈ names.getLast?,
    ∃ m ∈ follow b t disk names.dropLast k, Vacant b t disk name m))

instance (b : Fs) (p : Fin nproc) (path : List UInt8) : Decidable (Homed b p path) :=
  inferInstanceAs (Decidable (_ → ∀ _, _ → _))

instance (b : Fs) (t : UserInfo) (disk : ℕ → Dinode) (p : Fin nproc) (path : CharPtr) :
    Decidable (Ends b t disk p path) :=
  inferInstanceAs (Decidable (_ ∧ ∃ k ∈ Walk.startInum b p path.bytes,
    (follow b t disk path.elements k).isSome = true ∨ Lacks b t disk path.elements k))

instance (s : Fs) (p : Fin nproc) (username : CharPtr) (info : UserInfo) :
    Decidable (MayAdd s p username info) :=
  inferInstanceAs (Decidable (∃ n ∈ follow s s.info s.disk userSPath.elements rootino,
    Ends s info (saved s.disk n info) p username))

instance (s : Fs) (p : Fin nproc) (typed : List UInt8) : Decidable (MayOpen s p typed) :=
  inferInstanceAs (Decidable (Homed s p tmpPath.bytes ∧
    ∃ k ∈ Walk.startInum s p tmpPath.bytes,
      (∃ n ∈ follow s s.info s.disk userSPath.elements rootino, Lasting s s.disk n ∧
        Vacant s (loaded s n typed) (saved s.disk n (loaded s n typed)) tmpPath.bytes k) ∨
      Vacant s s.info s.disk userSName rootino ∧
        Vacant s (s.info.myopen []) s.disk tmpPath.bytes k))

instance (s : Fs) (e : Fin nproc × Call) : Decidable (Provided s e) :=
  Call.casesOn (motive := fun c => Decidable (Provided s (e.1, c))) e.2
    (fun _ _ => .isTrue trivial) (fun _ => .isTrue trivial) (fun _ => .isTrue trivial)
    (fun _ => .isTrue trivial) (fun _ _ _ => .isTrue trivial) (fun _ _ => .isTrue trivial)
    (fun _ => .isTrue trivial) (fun _ => .isTrue trivial) (fun _ _ => .isTrue trivial)
    (fun _ _ => .isTrue trivial)
    (fun typed => inferInstanceAs (Decidable (MayOpen s e.1 typed)))
    (fun username password => inferInstanceAs (Decidable (s.info.IsRoot → s.HasUserS →
      (s.info.addUser username.str password.str).1 = 0 →
        MayAdd s e.1 username (s.info.addUser username.str password.str).2)))
    (fun _ => .isTrue trivial) (fun _ _ => .isTrue trivial) (.isTrue trivial)

/-- `root` adds a user, and adds it again. -/
def bobTwice : List (Fin nproc × Call) :=
  [(0, .myopen []), (0, .addUser bob bob), (0, .addUser bob bob)]

theorem missing_inode_unused_bobTwice :
    (Trace.run step (boot (mkfs [])) bobTwice).isSome = true ∧
      Trace.Along step Careful (boot (mkfs [])) bobTwice :=
  ⟨by decide +kernel, missing_inode_unused _ (by decide +kernel)⟩

/-- The call uses a null pointer. -/
def nullUsed (s : Fs) (p : Fin nproc) (c : Call) : Bool :=
  match (c.op p).run s with
  | .error .nullPointer => true
  | _ => false

theorem nullUsed_iff {c : Call} : nullUsed s p c = true ↔ (c.op p).run s = .error .nullPointer := by
  rw [nullUsed]
  split
  · exact iff_of_true rfl (by assumption)
  · exact iff_of_false Bool.false_ne_true (by assumption)

/-- A home directory in a directory that is not there. -/
def lostHome : CharPtr := ⟨[97, 47, 98], by decide⟩

/-- `myopen` in a directory that has an entry `tmp`, and a new user whose name is a path. -/
theorem missing_inode_used :
    (∃ s, Trace.run step (boot (mkfs [])) [(0, .mkdir tmpPath)] = some s ∧
      ¬ Careful s (0, .myopen [])) ∧
    ∃ s, Trace.run step (boot (mkfs [])) [(0, .myopen [])] = some s ∧
      ¬ Careful s (0, .addUser lostHome bob) := by
  have hopen : (Trace.run step (boot (mkfs [])) [(0, .mkdir tmpPath)]).any
      fun s => nullUsed s 0 (.myopen []) := by decide +kernel
  have hadd : (Trace.run step (boot (mkfs [])) [(0, .myopen [])]).any
      fun s => nullUsed s 0 (.addUser lostHome bob) := by decide +kernel
  obtain ⟨s, hs, hopen⟩ := (Option.any_eq_true _ _).1 hopen
  obtain ⟨t, ht, hadd⟩ := (Option.any_eq_true _ _).1 hadd
  exact ⟨⟨s, hs, fun h => h (nullUsed_iff.1 hopen)⟩, t, ht, fun h => h.1 (nullUsed_iff.1 hadd)⟩

end FileSystem
