import CourseProjects.FileSystem.Grip

/-!
# The file userS in the root directory

From the boot on the first entry of the cache holds the root directory and is in use (`Rooted`),
so that the root directory is never freed. So its entry `userS` goes on naming the same file
(`Mounted`), as long as only the calls on the users are made.

* `NamesUserS.linkData`, `NamesUserS.clearData`: the entry stays when others come and go;
* `Created.mounted`: a new directory leaves the entry and the file;
* `Ready.save`: the table is written to the file.
-/

namespace FileSystem

open CString Function Tx

variable {b₀ b s s' t : Fs} {l : List (Fin ninode)} {ip jp dp : Fin ninode} {n m k i : ℕ}
  {name : List UInt8} {d : Dinode} {p : Fin nproc} {path : CharPtr} {disk : ℕ → Dinode}
  {type : InodeType}

/-! ### The root directory -/

/-- The first entry of the cache holds the root directory, which is the current directory of all
processes that have one. -/
structure Rooted (s : Fs) : Prop where
  cwd : ∀ p ip, s.cwd p = some ip → ip = 0
  inum : (s.icache 0).inum = rootino
  ref : 1 ≤ (s.icache 0).ref

theorem rooted_boot (disk : ℕ → Dinode) : Rooted (boot disk) where
  cwd p ip h := by
    simp only [boot] at h
    split at h
    · exact (Option.some.inj h).symm
    · cases h
  inum := rfl
  ref := le_refl _

namespace Rooted

theorem inUse (h : Rooted s) : InUse s rootino := ⟨0, h.ref, h.inum⟩

theorem homed (h : Rooted s) (p : Fin nproc) {path : List UInt8} : Homed s p path :=
  fun _ ip hip => h.cwd p ip hip ▸ h.ref

theorem of_grip (h : Rooted b₀) (hg : Grip b₀ l s) : Rooted s := by
  refine ⟨hg.cwd ▸ h.cwd, (hg.inum 0 h.ref).trans h.inum, ?_⟩
  have := hg.ref 0
  have := h.ref
  omega

theorem ne_zero (h : Rooted s) (hip : (s.icache ip).inum ≠ rootino) : ip ≠ 0 := by
  rintro rfl
  exact hip h.inum

/-- A reference is given back that the call does not hold any more. -/
theorem put_of_ne (h : Rooted s) (hne : ip ≠ 0) : Rooted (s.put ip) := by
  have h0 : (s.put ip).icache 0 = s.icache 0 := by
    rw [Fs.put]
    split
    · exact Fs.icache_setSlot_of_ne hne.symm _
    · exact Fs.icache_setSlot_of_ne hne.symm _
  exact ⟨by rw [Fs.cwd_put]; exact h.cwd, h0 ▸ h.inum, h0 ▸ h.ref⟩

theorem cached (h : Rooted s) : s.cached rootino = some 0 := by
  have href := h.ref
  have h0 : 0 < (s.icache 0).ref ∧ (s.icache 0).inum = rootino := ⟨by omega, h.inum⟩
  rw [Fs.cached, List.finRange_succ, List.find?_cons_of_pos (by simpa using h0)]

end Rooted

/-! ### The entry userS -/

/-- The name `userS`. -/
def userSName : List UInt8 := userSPath.bytes.drop 1

/-- The bytes of a directory have an entry `userS` for an inode. -/
def NamesUserS (data : List UInt8) (n : ℕ) : Prop :=
  ∃ i, findEntry userSName data = some i ∧ (entryAt data i).inum = n

section Entry

variable {data data' : List UInt8} {name' : List UInt8}

theorem NamesUserS.unique (h : NamesUserS data n) (h' : NamesUserS data m) : n = m := by
  obtain ⟨i, hi, rfl⟩ := h
  obtain ⟨j, hj, rfl⟩ := h'
  rw [hi] at hj
  rw [Option.some.inj hj]

/-- Two names of one entry are the same. -/
theorem Dirent.Named.namecmp {de : Dirent} (h : de.Named name) (h' : de.Named name') :
    FileSystem.namecmp name name' = 0 := by
  have h := strncmp_eq_zero_iff.1 h.2
  have h' := strncmp_eq_zero_iff.1 h'.2
  exact strncmp_eq_zero_iff.2 (h.trans h'.symm)

/-- The first entry with a name stays the first one. -/
theorem findEntry_of_entries (hi : findEntry name data = some i)
    (heq : (entries data')[i]? = (entries data)[i]?)
    (hlt : ∀ j < i, ∀ de ∈ (entries data')[j]?, de ∈ (entries data)[j]? ∨ ¬ de.Named name) :
    findEntry name data' = some i ∧ entryAt data' i = entryAt data i := by
  obtain ⟨hlen, hnamed⟩ := findEntry_some hi
  rw [getElem?_entryAt hlen] at heq
  obtain ⟨hlen', hat⟩ := List.getElem?_eq_some_iff.1 heq
  rw [← entryAt_eq hlen'] at hat
  refine ⟨findEntry_eq_some hlen' (hat ▸ hnamed) fun j hj de hde => ?_, hat⟩
  rcases hlt j hj de hde with hold | hnew
  · obtain ⟨_, -, hbefore⟩ := List.findIdx?_eq_some_iff_getElem.1 hi
    obtain ⟨hjlen, rfl⟩ := List.getElem?_eq_some_iff.1 hold
    exact fun hn => hbefore j hj (decide_eq_true hn)
  · exact hnew

/-- An entry with another name is written. -/
theorem NamesUserS.linkData (h : NamesUserS data n) (hsize : data.length % 16 = 0)
    (hm : m < 2 ^ 16) (hname : IsName name) (hnone : findEntry name data = none) :
    NamesUserS (linkData data name m) n := by
  obtain ⟨i, hi, hn⟩ := h
  obtain ⟨hlen, hnamed⟩ := findEntry_some hi
  have hne : i ≠ emptyEntry data := by
    rintro rfl
    rw [entryAt_eq hlen] at hnamed
    exact hnamed.1 (inum_emptyEntry hlen)
  have hfresh := findEntry_none.1 hnone _ (List.mem_of_getElem? (getElem?_entryAt hlen))
  obtain ⟨hi', hat⟩ := findEntry_of_entries hi (getElem?_linkData hsize hm hname hne)
    fun j _ de hde => by
      by_cases hj : j = emptyEntry data
      · -- the new entry has another name
        subst hj
        obtain ⟨hlt, hself⟩ := entryAt_linkData_self hsize hm hname
        rw [getElem?_entryAt hlt, hself] at hde
        obtain rfl := Option.some.inj hde
        refine .inr fun hnew => hfresh ⟨hnamed.1, ?_⟩
        have h₁ := strncmp_eq_zero_iff.1 hnew.2
        have h₂ := strncmp_eq_zero_iff.1 hnamed.2
        exact strncmp_eq_zero_iff.2 (h₁.symm.trans h₂)
      · rw [getElem?_linkData hsize hm hname hj] at hde
        exact .inl hde
  exact ⟨i, hi', hat ▸ hn⟩

/-- An entry with another name is overwritten with zeros. -/
theorem NamesUserS.clearData (h : NamesUserS data n) (hi : findEntry name data = some i)
    (hname : FileSystem.namecmp userSName name ≠ 0) : NamesUserS (clearData data i) n := by
  obtain ⟨k, hk, hn⟩ := h
  obtain ⟨hlen, hnamed⟩ := findEntry_some hi
  obtain ⟨hklen, hknamed⟩ := findEntry_some hk
  have hne : i ≠ k := by
    rintro rfl
    exact hname (hknamed.namecmp hnamed)
  obtain ⟨hk', hat⟩ := findEntry_of_entries hk
    (by rw [entries_clearData hlen, List.getElem?_set_ne hne]) fun j _ de hde => by
      rw [entries_clearData hlen] at hde
      by_cases hj : i = j
      · subst hj
        rw [List.getElem?_set_self hlen] at hde
        obtain rfl := Option.some.inj hde
        exact .inr fun hz => hz.1 Dirent.ofBytes_zero
      · rw [List.getElem?_set_ne hj] at hde
        exact .inl hde
  exact ⟨k, hk', hat ▸ hn⟩

/-- An entry `userS` is written. -/
theorem namesUserS_linkData (hsize : data.length % 16 = 0) (hm : m ≠ 0) (hm' : m < 2 ^ 16)
    (hnone : findEntry userSName data = none) :
    NamesUserS (FileSystem.linkData data userSName m) m := by
  have hname : IsName userSName := ⟨by decide, by decide, by decide⟩
  refine ⟨_, findEntry_linkData hsize hm' hm hname hnone, ?_⟩
  rw [(entryAt_linkData_self hsize hm' hname).2]

end Entry

/-- The root directory names the file `userS`, which has a link, and the blocks are enough. -/
structure Mounted (n : ℕ) (d : Dinode) (disk : ℕ → Dinode) : Prop where
  dir : (disk rootino).type = .dir
  entry : NamesUserS (disk rootino).data n
  inode : disk n = d
  file : d.type = .file
  nlink : d.nlink ≠ 0
  used : usedBlocks disk ≤ nblocks

namespace Mounted

variable {disk' : ℕ → Dinode}

theorem ne_root (h : Mounted n d disk) : n ≠ rootino := by
  rintro rfl
  have := h.dir
  rw [h.inode, h.file] at this
  cases this

/-- An inode that is a directory is another one. -/
theorem ne_of_dir (h : Mounted n d disk) (hk : (disk m).type = .dir) : n ≠ m := by
  rintro rfl
  rw [h.inode, h.file] at hk
  cases hk

theorem of_eq (h : Mounted n d disk) (hd : (disk' rootino).type = (disk rootino).type)
    (he : (disk' rootino).data = (disk rootino).data) (hn : disk' n = disk n)
    (hu : usedBlocks disk' ≤ nblocks) : Mounted n d disk' :=
  ⟨hd.trans h.dir, he ▸ h.entry, hn.trans h.inode, h.file, h.nlink, hu⟩

theorem spared (h : Mounted n d b.disk) (hr : Rooted b₀) (hs : Spared b₀ b s) :
    Mounted n d s.disk :=
  h.of_eq (congrArg _ (hs.inUse hr.inUse)) (congrArg _ (hs.inUse hr.inUse))
    (hs.linked (h.inode ▸ h.nlink)) (hs.blocks.trans h.used)

/-- Another inode changes, but for the type and the bytes. -/
theorem update (h : Mounted n d disk) {v : Dinode} (hm : m ≠ n)
    (hv : v.type = (disk m).type ∧ v.data = (disk m).data) :
    Mounted n d (Function.update disk m v) := by
  have hn : Function.update disk m v n = disk n := update_of_ne hm.symm v disk
  have hu : usedBlocks (Function.update disk m v) ≤ nblocks :=
    (usedBlocks_update_le (blocks_congr (congrArg List.length hv.2)).le).trans h.used
  by_cases hroot : rootino = m
  · subst hroot
    refine h.of_eq ?_ ?_ hn hu
    · rw [update_self]
      exact hv.1
    · rw [update_self]
      exact hv.2
  · refine h.of_eq ?_ ?_ hn hu
    · rw [update_of_ne hroot]
    · rw [update_of_ne hroot]

/-- The file gets another owner and another permission. -/
theorem chown (h : Mounted n d s.disk) (hip : (s.icache ip).inum = n) {owner : List UInt8}
    {permission : UInt32} :
    Mounted n { d with owner := owner, permission := permission }
      (s.setInode ip { s.inode ip with owner := owner, permission := permission }).disk := by
  have hd : (s.setInode ip { s.inode ip with owner := owner, permission := permission }).disk =
      Function.update s.disk n { d with owner := owner, permission := permission } := by
    rw [Fs.setInode, Fs.inode, hip, h.inode]
    rfl
  rw [hd]
  have hlen : d.data.length = (s.disk n).data.length := by rw [h.inode]
  have hle : Dinode.blocks { d with owner := owner, permission := permission } ≤
      (s.disk n).blocks := (blocks_congr (by exact hlen)).le
  refine ⟨?_, ?_, update_self .., h.file, h.nlink, (usedBlocks_update_le hle).trans h.used⟩
  · rw [update_of_ne h.ne_root.symm]
    exact h.dir
  · rw [update_of_ne h.ne_root.symm]
    exact h.entry

end Mounted

/-- A new inode is entered into a directory: the file `userS` and its entry stay. -/
theorem Created.mounted (h : Created b₀ s type name k m l ip t) (hr : Rooted b₀)
    (hm : Mounted n d s.disk) : Mounted n d t.disk := by
  have hn : t.disk n = s.disk n := h.disk_of_ne (hm.ne_of_dir h.dir) (by
    rw [hm.inode, hm.file]
    exact fun h => by cases h)
  by_cases hk : rootino = k
  · subst hk
    have hd := h.disk_dir hr.inUse
    refine ⟨?_, ?_, hn.trans hm.inode, hm.file, hm.nlink, h.used⟩
    · rw [hd]
      exact hm.dir
    · rw [hd]
      exact hm.entry.linkData h.full (h.lt.2.trans (by decide)) h.isName h.fresh
  · have hroot : t.disk rootino = s.disk rootino := h.disk_of_ne hk (by
      rw [hm.dir]
      exact fun h => by cases h)
    exact hm.of_eq (congrArg _ hroot) (congrArg _ hroot) hn h.used

/-! ### The file and the home directories -/

/-- The path `/userS` leads to the file. -/
theorem Walk.namei_userS (h : Walk b₀ b l s) (hr : Rooted b₀)
    (he : NamesUserS (b.disk rootino).data n) :
    Yields (FileSystem.namei p userSPath) s fun o t =>
      ∀ ip, o = some ip → (t.icache ip).inum = n := by
  rintro o t hrun ip rfl
  obtain ⟨q, u, hx, hq⟩ := bind_eq_ok.1 hrun
  cases q with
  | none => cases pure_eq_ok.1 hq
  | some q =>
    cases pure_eq_ok.1 hq
    obtain ⟨dp, v, hs, hx⟩ := bind_eq_ok.1 hx
    obtain ⟨hv, hstart⟩ := h.start (hr.homed p) dp v hs
    obtain ⟨_, w, hl, hx⟩ := bind_eq_ok.1 hx
    obtain ⟨-, -, -, heq⟩ := ilock_eq_ok.1 hl
    cases heq
    have hroot : (v.lock dp).inode dp = b.disk rootino := by
      rw [Fs.inode_lock, Fs.inode, ← Option.some.inj hstart, hv.toSpared.inUse hr.inUse]
    rw [get_bind] at hx
    split at hx
    · obtain ⟨_, _, -, hx⟩ := bind_eq_ok.1 hx
      cases pure_eq_ok.1 hx
    · split at hx
      · obtain ⟨_, _, -, hx⟩ := bind_eq_ok.1 hx
        cases pure_eq_ok.1 hx
      · rw [if_neg (by simp)] at hx
        obtain ⟨o, w, hd, hx⟩ := bind_eq_ok.1 hx
        have hfind := (dirlookup_eq_ok.1 hd).2
        rw [hroot] at hfind
        rcases o with _ | ⟨next, i⟩
        · obtain ⟨_, _, -, hx⟩ := bind_eq_ok.1 hx
          cases pure_eq_ok.1 hx
        · obtain ⟨_, x, hp, hx⟩ := bind_eq_ok.1 hx
          obtain ⟨-, -, heq⟩ := iunlockput_eq_ok.1 hp
          cases heq
          cases pure_eq_ok.1 hx
          rw [Fs.inum_put, Fs.inum_unlock, iget_inum hfind.2]
          exact NamesUserS.unique ⟨i, hfind.1, rfl⟩ he

/-- The file with the table of the users. -/
def Dinode.save (d : Dinode) (t : UserInfo) : Dinode :=
  { d with data := splice d.data t.bytes 0 }

theorem UserInfo.length_bytes (t : UserInfo) : t.bytes.length = privSize := by
  rw [bytes, List.length_map, List.length_range]

/-- The table is written to the file. -/
theorem updateUserS_yields (h : Mounted n d s.disk) (hip : (s.icache ip).inum = n) :
    Yields (updateUserS ip) s fun _ t => t = s.setInode ip (d.save s.info) ∧
      Mounted n (d.save s.info) t.disk := by
  intro _ t hrun
  have hinode : s.inode ip = d := by rw [Fs.inode, hip, h.inode]
  unfold updateUserS at hrun
  rw [get_bind] at hrun
  obtain ⟨r, u, hw, hrun⟩ := bind_eq_ok.1 hrun
  cases pure_eq_ok.1 hrun
  have hdev : (s.inode ip).type ≠ .dev := by
    rw [hinode, h.file]
    exact fun h => by cases h
  obtain ⟨hused, rfl⟩ := writei_inside hw hdev (Nat.zero_le _)
    (by rw [UserInfo.length_bytes]; decide)
  have hsave : s.write ip s.info.bytes 0 = s.setInode ip (d.save s.info) := by
    rw [Fs.write, hinode]
    rfl
  rw [hsave] at hused ⊢
  refine ⟨rfl, ?_⟩
  have hd : (s.setInode ip (d.save s.info)).disk = Function.update s.disk n (d.save s.info) := by
    rw [Fs.setInode, hip]
    rfl
  have hroot : (s.setInode ip (d.save s.info)).disk rootino = s.disk rootino := by
    rw [hd, update_of_ne h.ne_root.symm]
  refine ⟨?_, ?_, ?_, h.file, h.nlink, hused⟩
  · rw [hroot]
    exact h.dir
  · rw [hroot]
    exact h.entry
  · rw [hd, update_self]

/-- The file is there, and a call that has started in the state `b₀` holds the references `l`. -/
structure Ready (b₀ : Fs) (n : ℕ) (d : Dinode) (t : UserInfo) (l : List (Fin ninode)) (s : Fs) :
    Prop where
  rooted : Rooted b₀
  grip : Grip b₀ l s
  mounted : Mounted n d s.disk
  info : s.info = t

namespace Ready

variable {info : UserInfo}

theorem walk (h : Ready b₀ n d info l s) : Walk b₀ s l s := .init h.grip

theorem of_walk (h : Ready b₀ n d info l s) {l' : List (Fin ninode)} (hw : Walk b₀ s l' t) :
    Ready b₀ n d info l' t :=
  ⟨h.rooted, hw.toGrip, h.mounted.spared h.rooted hw.toSpared, hw.info.trans h.info⟩

/-- The references are not given back, and another call starts. -/
theorem rebase (h : Ready b₀ n d info l s) : Ready s n d info [] s :=
  ⟨h.rooted.of_grip h.grip, .init s, h.mounted, h.info⟩

theorem swap (h : Ready b₀ n d info (ip :: jp :: l) s) : Ready b₀ n d info (jp :: ip :: l) s :=
  { h with grip := h.grip.swap }

theorem iunlockput (h : Ready b₀ n d info (ip :: l) s) :
    Yields (iunlockput ip) s fun _ t => Ready b₀ n d info l t :=
  h.walk.iunlockput.mono fun _ _ ht => h.of_walk ht

theorem release {α : Type} {x : α} {Q : α → Fs → Prop} (h : Ready b₀ n d info (ip :: l) s)
    (hQ : ∀ t, Ready b₀ n d info l t → Q x t) :
    Yields (FileSystem.iunlockput ip >>= fun _ => Pure.pure x) s Q :=
  h.iunlockput.bind fun _ t h => yields_pure (hQ t h)

/-- Another inode gets another number of links, another owner or another permission. -/
theorem setInode (h : Ready b₀ n d info l s) (hne : (s.icache ip).inum ≠ n) {v : Dinode}
    (hv : v.type = (s.inode ip).type ∧ v.data = (s.inode ip).data) :
    Ready b₀ n d info l (s.setInode ip v) :=
  ⟨h.rooted, h.grip.setInode v, h.mounted.update hne hv, h.info⟩

/-- The table is changed, in the file too. -/
theorem save {α : Type} {x : Op α} {Q : α → Fs → Prop} {info' : UserInfo}
    (h : Ready b₀ n d info l s) (hip : (s.icache ip).inum = n)
    (hx : ∀ t, Ready b₀ n (d.save info') info' l t → Yields x t Q) :
    Yields (setInfo info' >>= fun _ => updateUserS ip >>= fun _ => x) s Q := by
  refine Yields.bind (P := fun _ t => t = { s with info := info' }) (yields_modify rfl) ?_
  rintro _ _ rfl
  refine (updateUserS_yields (s := { s with info := info' }) h.mounted hip).bind fun _ t ht => ?_
  obtain ⟨rfl, ht⟩ := ht
  exact hx _ ⟨h.rooted, h.grip.congr rfl rfl, ht, rfl⟩

end Ready

theorem Created.ready (h : Created b₀ b type name k m l ip s) (hr : Rooted b₀)
    (hm : Mounted n d b.disk) : Ready b₀ n d b.info (ip :: l) s ∧ (s.icache ip).inum ≠ n := by
  refine ⟨⟨hr, h.grip, h.mounted hr hm, h.info⟩, ?_⟩
  rw [h.inum]
  rintro rfl
  have := h.free
  rw [hm.inode, hm.file] at this
  cases this

theorem Ready.makeHome {username : CharPtr} {info : UserInfo} (h : Ready b₀ n d info [] s) :
    Yields (makeHome p username) s fun _ t => Ready b₀ n d info [] t := by
  have hp : Homed b₀ p username.bytes := h.rooted.homed p
  refine (h.walk.namei hp).bind fun o t ht => ?_
  cases o with
  | some ip => exact (Walk.iput ht).mono fun _ u hu => h.of_walk hu
  | none =>
    refine Yields.bind (Walk.create ht hp) fun o u ho => yields_ofOption_bind fun ip hip => ?_
    obtain ⟨v, name, k, m, hv, hu⟩ := ho ip hip
    obtain ⟨hready, hne⟩ := hu.ready h.rooted (h.mounted.spared h.rooted hv)
    rw [hv.info, h.info] at hready
    intro _ w hw
    obtain ⟨_, _, hset, hw⟩ := bind_eq_ok.1 hw
    cases iupdate_eq_ok.1 hset
    exact (hready.setInode hne (by exact ⟨rfl, rfl⟩)).iunlockput _ w hw

end FileSystem
