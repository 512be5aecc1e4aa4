import CourseProjects.FileSystem.Directories
import CourseProjects.FileSystem.Effects

/-!
# What create leaves on the disk

* `createNew_disk`: the first free inode has become a new one with one link, entered into the
  directory, and a new directory names itself and the other one (`newDisk`);
* `iget_locked`: an inode that is held is not given to another slot.
-/

namespace FileSystem

open CString Function Tx

variable {s s' : Fs} {ip dp : Fin ninode} {n m : ℕ} {name : List UInt8} {type : InodeType}
  {major minor : ℤ}

/-- The bytes of a new directory. -/
def dotsData (n m : ℕ) : List UInt8 := linkData (linkData [] dot n) dotdot m

/-- The new inode. -/
def newInode (type : InodeType) (major minor : ℤ) (n m : ℕ) : Dinode :=
  { Dinode.zero with
    type := type
    major := short major
    minor := short minor
    nlink := 1
    data := if type = .dir then dotsData n m else [] }

/-- The directory that the new inode is entered into. -/
def parentInode (d : Dinode) (type : InodeType) (name : List UInt8) (n : ℕ) : Dinode :=
  { d with
    nlink := if type = .dir then short (d.nlink + 1) else d.nlink
    data := linkData d.data name n }

/-- The disk after the inode `n` has been entered into the directory `m`. -/
def newDisk (disk : ℕ → Dinode) (type : InodeType) (major minor : ℤ) (m n : ℕ)
    (name : List UInt8) : ℕ → Dinode :=
  update (update disk m (parentInode (disk m) type name n)) n (newInode type major minor n m)

theorem freeInode_some (h : s.freeInode = some n) :
    1 ≤ n ∧ n < ninodes ∧ (s.disk n).type = .free := by
  have hfree := List.find?_some h
  have hmem := List.mem_of_find?_eq_some h
  rw [List.mem_range'_1] at hmem
  exact ⟨hmem.1, hmem.2, of_decide_eq_true hfree⟩

/-- An entry of the cache that is in use goes on holding its inode. -/
theorem iget_of_ref {jp : Fin ninode} (h : (iget n).run s = .ok (ip, s'))
    (hj : 1 ≤ (s.icache jp).ref) : (s'.icache jp).inum = (s.icache jp).inum := by
  rcases iget_eq_ok.1 h with ⟨-, rfl⟩ | ⟨-, he, rfl⟩
  · by_cases hjp : jp = ip
    · subst hjp
      simp [Fs.dup]
    · rw [Fs.dup, Fs.icache_setSlot_of_ne hjp]
  · have hjp : jp ≠ ip := by
      rintro rfl
      have : (s.icache jp).ref = 0 := by simpa using List.find?_some he
      omega
    rw [Fs.recycle, Fs.icache_setSlot_of_ne hjp]

/-- So it goes on being locked. -/
theorem iget_locked {jp : Fin ninode} (h : (iget n).run s = .ok (ip, s'))
    (hj : 1 ≤ (s.icache jp).ref) : (s'.icache jp).locked = (s.icache jp).locked := by
  rcases iget_eq_ok.1 h with ⟨-, rfl⟩ | ⟨-, he, rfl⟩
  · by_cases hjp : jp = ip
    · subst hjp
      simp [Fs.dup]
    · rw [Fs.dup, Fs.icache_setSlot_of_ne hjp]
  · have hjp : jp ≠ ip := by
      rintro rfl
      have : (s.icache jp).ref = 0 := by simpa using List.find?_some he
      omega
    rw [Fs.recycle, Fs.icache_setSlot_of_ne hjp]

theorem iget_disk (h : (iget n).run s = .ok (ip, s')) : s'.disk = s.disk := by
  rcases iget_eq_ok.1 h with ⟨-, rfl⟩ | ⟨-, -, rfl⟩
  · rfl
  · rfl

@[simp] theorem inode_setInode_self (d : Dinode) : (s.setInode ip d).inode ip = d :=
  Fs.disk_setDisk_self d

theorem inode_setInode_of_ne (h : (s.icache ip).inum ≠ (s.icache dp).inum) (d : Dinode) :
    (s.setInode dp d).inode ip = s.inode ip :=
  Fs.disk_setDisk_of_ne h d

theorem disk_setInode_of_ne {k : ℕ} (h : k ≠ (s.icache dp).inum) (d : Dinode) :
    (s.setInode dp d).disk k = s.disk k :=
  Fs.disk_setDisk_of_ne h d

theorem link_eq : s.link dp name n =
    s.setInode dp { s.inode dp with data := linkData (s.inode dp).data name n } := rfl

theorem inode_dots_dir (hne : (s.icache ip).inum ≠ (s.icache dp).inum) :
    (s.dots .dir dp ip).inode ip = { s.inode ip with
        data := linkData (linkData (s.inode ip).data dot (s.icache ip).inum) dotdot
          (s.icache dp).inum } ∧
      (s.dots .dir dp ip).inode dp =
        { s.inode dp with nlink := short ((s.inode dp).nlink + 1) } := by
  rw [Fs.dots, if_pos rfl, link_eq, link_eq]
  constructor
  · rw [inode_setInode_self, inode_setInode_self, inode_setInode_of_ne hne]
  · refine (inode_setInode_of_ne (by exact hne.symm) _).trans ?_
    refine (inode_setInode_of_ne (by exact hne.symm) _).trans ?_
    exact inode_setInode_self _

variable (major minor) in
/-- The state before the new inode is entered into the directory. -/
theorem inode_dots (hne : (s.icache ip).inum ≠ (s.icache dp).inum)
    (hip : s.inode ip = { Dinode.zero with type := type }) :
    (((s.lock ip).fill ip major minor).dots type dp ip).inode ip =
        newInode type major minor (s.icache ip).inum (s.icache dp).inum ∧
      (((s.lock ip).fill ip major minor).dots type dp ip).inode dp =
        { s.inode dp with
          nlink :=
            if type = .dir then short ((s.inode dp).nlink + 1) else (s.inode dp).nlink } := by
  have hinum : ((s.lock ip).icache ip).inum = (s.icache ip).inum := Fs.inum_lock ip
  have hinum' : ((s.lock ip).icache dp).inum = (s.icache dp).inum := Fs.inum_lock dp
  have hne' : ((s.lock ip).icache ip).inum ≠ ((s.lock ip).icache dp).inum := by
    rw [hinum, hinum']
    exact hne
  have hf : ((s.lock ip).fill ip major minor).inode ip =
      { Dinode.zero with
        type := type, major := short major, minor := short minor, nlink := 1 } := by
    rw [Fs.fill, inode_setInode_self, Fs.inode_lock, hip]
  have hf' : ((s.lock ip).fill ip major minor).inode dp = s.inode dp := by
    rw [Fs.fill, inode_setInode_of_ne hne'.symm, Fs.inode_lock]
  rw [newInode]
  by_cases htype : type = .dir
  · subst htype
    obtain ⟨hd, hd'⟩ := inode_dots_dir (s := (s.lock ip).fill ip major minor) hne'
    rw [hd, hd', hf, hf', if_pos rfl, if_pos rfl]
    refine ⟨?_, rfl⟩
    rw [Fs.fill, Fs.icache_setInode, hinum, hinum']
    rfl
  · rw [Fs.dots, if_neg htype, hf, hf', if_neg htype, if_neg htype]
    exact ⟨rfl, rfl⟩

/-- The new inode and its directory, when the inode has been entered. -/
theorem inode_entered (hne : (s.icache ip).inum ≠ (s.icache dp).inum)
    (hip : s.inode ip = { Dinode.zero with type := type }) :
    (s.entered type major minor dp ip name).inode ip =
        newInode type major minor (s.icache ip).inum (s.icache dp).inum ∧
      (s.entered type major minor dp ip name).inode dp =
        parentInode (s.inode dp) type name (s.icache ip).inum := by
  obtain ⟨hnew, hdir⟩ := inode_dots major minor hne hip
  have hinum : ∀ jp, ((((s.lock ip).fill ip major minor).dots type dp ip).icache jp).inum =
      (s.icache jp).inum := by
    intro jp
    rw [Fs.icache_dots]
    exact Fs.inum_lock jp
  rw [Fs.entered, link_eq, inode_setInode_self, inode_setInode_of_ne (by rwa [hinum, hinum]), hnew,
    hdir, parentInode]
  exact ⟨rfl, rfl⟩

/-- No other inode changes. -/
theorem disk_entered_of_ne {k : ℕ} (hip : k ≠ (s.icache ip).inum) (hdp : k ≠ (s.icache dp).inum) :
    (s.entered type major minor dp ip name).disk k = s.disk k := by
  have hip' : k ≠ ((s.lock ip).icache ip).inum := by rwa [Fs.inum_lock]
  have hdp' : k ≠ ((s.lock ip).icache dp).inum := by rwa [Fs.inum_lock]
  have hfill : ((s.lock ip).fill ip major minor).disk k = s.disk k := by
    rw [Fs.fill, disk_setInode_of_ne hip']
    rfl
  refine (disk_setInode_of_ne (by rw [Fs.icache_dots]; exact hdp') _).trans ?_
  rw [Fs.dots]
  split
  · refine (disk_setInode_of_ne (by exact hip') _).trans ?_
    refine (disk_setInode_of_ne (by exact hip') _).trans ?_
    exact (disk_setInode_of_ne (by exact hdp') _).trans hfill
  · exact hfill

/-- What `createNew` has done when it gives back the directory. -/
theorem createNew_disk (h : (createNew type major minor dp name).run s = .ok (some ip, s'))
    (hdir : (s.inode dp).type = .dir) (href : 1 ≤ (s.icache dp).ref) :
    ∃ n t, s.freeInode = some n ∧ (iget n).run (s.birth n type) = .ok (ip, t) ∧
      n ≠ (s.icache dp).inum ∧
      16 * emptyEntry (s.inode dp).data + 16 ≤ maxfile * bsize ∧
      (t.entered type major minor dp ip name).disk =
        newDisk s.disk type major minor (s.icache dp).inum n name ∧
      (t.entered type major minor dp ip name).used ≤ nblocks ∧
      s' = ((t.entered type major minor dp ip name).unlock dp).put dp := by
  obtain ⟨-, n, t, hfree, ht, hsize, hused, rfl⟩ := createNew_some h
  obtain ⟨-, -, hfree'⟩ := freeInode_some hfree
  have hne : n ≠ (s.icache dp).inum := by
    rintro rfl
    rw [← Fs.inode, hdir] at hfree'
    cases hfree'
  have hip : (t.icache ip).inum = n := iget_inum ht
  have hdp : (t.icache dp).inum = ((s.birth n type).icache dp).inum := iget_of_ref ht href
  change (t.icache dp).inum = (s.icache dp).inum at hdp
  have hdisk : t.disk = (s.birth n type).disk := iget_disk ht
  have hnew : t.inode ip = { Dinode.zero with type := type } := by
    rw [Fs.inode, hip, hdisk]
    exact Fs.disk_setDisk_self _
  have hold : t.inode dp = s.inode dp := by
    rw [Fs.inode, hdp, hdisk]
    exact Fs.disk_birth_of_ne hne.symm type
  have hne' : (t.icache ip).inum ≠ (t.icache dp).inum := by
    rw [hip, hdp]
    exact hne
  rw [(inode_dots major minor hne' hnew).2, hold] at hsize
  refine ⟨n, t, hfree, ht, hne, hsize, ?_, hused, rfl⟩
  obtain ⟨he, he'⟩ := @inode_entered t ip dp name type major minor hne' hnew
  rw [Fs.inode, Fs.inum_entered, hip, hdp] at he
  rw [Fs.inode, Fs.inum_entered, hip, hdp, hold] at he'
  funext k
  rw [newDisk]
  by_cases hkn : k = n
  · rw [hkn, update_self, he]
  · rw [update_of_ne hkn]
    by_cases hkm : k = (s.icache dp).inum
    · rw [hkm, update_self, he']
      rfl
    · rw [update_of_ne hkm, disk_entered_of_ne (by rwa [hip]) (by rwa [hdp]), hdisk]
      exact Fs.disk_birth_of_ne hkn type

/-- The directory is not freed when the two inodes are given back: the disk stays as it is. -/
theorem disk_created {e : Fs} {disk : ℕ → Dinode}
    (hdisk : e.disk = newDisk disk type major minor m n name) (hip : (e.icache ip).inum = n)
    (hdp : (e.icache dp).inum = m) (hne : n ≠ m)
    (htype : (((((e.unlock dp).put dp).unlock ip).put ip).disk m).type ≠ .free) :
    ((((e.unlock dp).put dp).unlock ip).put ip).disk = newDisk disk type major minor m n name := by
  have hip' : ((((e.unlock dp).put dp).unlock ip).icache ip).inum = n := by
    rw [Fs.inum_unlock, Fs.inum_put, Fs.inum_unlock, hip]
  have hdp' : ((e.unlock dp).icache dp).inum = m := by rw [Fs.inum_unlock, hdp]
  have hput : ((e.unlock dp).put dp).disk = e.disk := by
    funext k
    by_cases hk : k = m
    · subst hk
      rw [Fs.disk_put_of_type htype] at htype
      exact Fs.disk_put_of_type htype
    · exact Fs.disk_put_of_ne (by rwa [hdp'])
  have hlink : ((((e.unlock dp).put dp).unlock ip).inode ip).nlink ≠ 0 := by
    have hnew : (((e.unlock dp).put dp).unlock ip).inode ip = newInode type major minor n m := by
      rw [Fs.inode, hip']
      change ((e.unlock dp).put dp).disk n = _
      rw [hput, hdisk, newDisk, update_self]
    rw [hnew]
    exact one_ne_zero
  rw [Fs.disk_put_of_nlink hlink]
  exact hput.trans hdisk

/-! ### A new directory -/

theorem length_dotsData (hn : n ≠ 0) (hn' : n < 2 ^ 16) : (dotsData n m).length = 32 := by
  have hdot : IsName dot := ⟨by decide, by decide, by decide⟩
  have hlen : (linkData [] dot n).length = 16 := by
    rw [linkData, length_splice (Dirent.length_bytes _) (Nat.le_refl 0)]
    rfl
  have hentries : entries (linkData [] dot n) = [⟨n, dot⟩] := entries_linkData rfl hn' hdot
  have hempty : emptyEntry (linkData [] dot n) = 1 := by
    rw [emptyEntry, hentries, List.findIdx_singleton, if_neg (by simpa using hn)]
  rw [dotsData, linkData, hempty, length_splice (Dirent.length_bytes _) (by rw [hlen]), hlen]
  rfl

/-- A new directory is empty. -/
theorem isdirempty_new (hn : n ≠ 0) (hn' : n < 2 ^ 16) :
    isdirempty (newInode .dir major minor n m) = true := by
  have hlen : (entries (newInode .dir major minor n m).data).length = 2 := by
    rw [newInode, length_entries]
    exact congrArg (· / 16) (length_dotsData hn hn')
  rw [isdirempty, List.drop_eq_nil_of_le hlen.le]
  rfl

end FileSystem
