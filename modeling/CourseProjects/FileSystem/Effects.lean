import CourseProjects.FileSystem.Calls

/-!
# What the functions on inodes do

For each function of `fs.c`, and for `create`, the states in which it returns, and the state
that it leaves.
-/

namespace FileSystem

open CString Function Tx

variable {s s' : Fs} {ip dp : Fin ninode} {n off i : ℕ} {u : Unit} {name src : List UInt8}

namespace Fs

@[simp] theorem disk_setSlot (v : Slot) : (s.setSlot ip v).disk = s.disk := rfl

@[simp] theorem icache_setSlot_self (v : Slot) : (s.setSlot ip v).icache ip = v := update_self ..

theorem icache_setSlot_of_ne {jp : Fin ninode} (h : jp ≠ ip) (v : Slot) :
    (s.setSlot ip v).icache jp = s.icache jp := update_of_ne h ..

@[simp] theorem disk_setDisk_self (d : Dinode) : (s.setDisk n d).disk n = d := update_self ..

theorem disk_setDisk_of_ne {m : ℕ} (h : m ≠ n) (d : Dinode) :
    (s.setDisk n d).disk m = s.disk m := update_of_ne h ..

@[simp] theorem icache_setDisk (d : Dinode) : (s.setDisk n d).icache = s.icache := rfl

/-- Another pointer to an entry. -/
def dup (s : Fs) (ip : Fin ninode) : Fs :=
  s.setSlot ip { s.icache ip with ref := (s.icache ip).ref + 1 }

/-- An entry that starts to hold an inode. -/
def recycle (s : Fs) (ip : Fin ninode) (n : ℕ) : Fs :=
  s.setSlot ip { s.icache ip with inum := n, ref := 1, valid := false }

def lock (s : Fs) (ip : Fin ninode) : Fs :=
  s.setSlot ip { s.icache ip with locked := true, valid := true }

def unlock (s : Fs) (ip : Fin ninode) : Fs :=
  s.setSlot ip { s.icache ip with locked := false }

/-- The state after `iput`. -/
def put (s : Fs) (ip : Fin ninode) : Fs :=
  if s.Last ip then
    (s.setDisk (s.icache ip).inum { s.inode ip with type := .free, data := [] }).setSlot ip
      { s.icache ip with ref := (s.icache ip).ref - 1, valid := false }
  else s.setSlot ip { s.icache ip with ref := (s.icache ip).ref - 1 }

/-- The inode behind an entry is changed. -/
def setInode (s : Fs) (ip : Fin ninode) (d : Dinode) : Fs := s.setDisk (s.icache ip).inum d

/-- Bytes are written to an inode that is not a device. -/
def write (s : Fs) (ip : Fin ninode) (src : List UInt8) (off : ℕ) : Fs :=
  s.setInode ip { s.inode ip with data := splice (s.inode ip).data src off }

/-- An inode is allocated. -/
def birth (s : Fs) (n : ℕ) (type : InodeType) : Fs :=
  { s.setDisk n { Dinode.zero with type := type } with births := update s.births n (s.births n + 1) }

@[simp] theorem births_birth_self (type : InodeType) :
    (s.birth n type).births n = s.births n + 1 := update_self ..

theorem births_birth_of_ne {m : ℕ} (h : m ≠ n) (type : InodeType) :
    (s.birth n type).births m = s.births m := update_of_ne h ..

theorem disk_birth_of_ne {m : ℕ} (h : m ≠ n) (type : InodeType) :
    (s.birth n type).disk m = s.disk m := update_of_ne h ..

end Fs

/-! ### References and locks -/

theorem inode_eq_ok {r : Dinode × Fs} : (inode ip).run s = .ok r ↔ r = (s.inode ip, s) := by
  unfold inode
  rw [get_bind, pure_eq_ok]

theorem iupdate_eq_ok {f : Dinode → Dinode} {r : Unit × Fs} :
    (iupdate ip f).run s = .ok r ↔ r = ((), s.setInode ip (f (s.inode ip))) := modify_eq_ok

/-- `iget` finds the entry that holds the inode, or takes the first one without a reference. -/
theorem iget_eq_ok : (iget n).run s = .ok (ip, s') ↔
    s.cached n = some ip ∧ s' = s.dup ip ∨
      s.cached n = none ∧ s.empty = some ip ∧ s' = s.recycle ip n := by
  unfold iget
  rw [get_bind]
  cases hc : s.cached n with
  | some ip' =>
    simp only [set_bind, pure_eq_ok, Prod.mk.injEq, Option.some.injEq, reduceCtorEq, false_and,
      or_false]
    constructor
    · rintro ⟨rfl, rfl⟩
      exact ⟨rfl, rfl⟩
    · rintro ⟨rfl, rfl⟩
      exact ⟨rfl, rfl⟩
  | none =>
    cases he : s.empty with
    | some ip' =>
      simp only [set_bind, pure_eq_ok, Prod.mk.injEq, Option.some.injEq, reduceCtorEq, false_and,
        false_or, true_and]
      constructor
      · rintro ⟨rfl, rfl⟩
        exact ⟨rfl, rfl⟩
      · rintro ⟨rfl, rfl⟩
        exact ⟨rfl, rfl⟩
    | none => exact iff_of_false (fun h => nomatch h) (by simp)

theorem idup_eq_ok {r : Fin ninode × Fs} : (idup ip).run s = .ok r ↔ r = (ip, s.dup ip) := by
  unfold idup
  rw [get_bind, set_bind, pure_eq_ok]
  rfl

theorem ilock_eq_ok {r : Unit × Fs} : (ilock ip).run s = .ok r ↔
    1 ≤ (s.icache ip).ref ∧ (s.icache ip).locked = false ∧
      ((s.icache ip).valid = false → (s.inode ip).type ≠ .free) ∧ r = ((), s.lock ip) := by
  unfold ilock
  rw [get_bind, failIf_bind_eq_ok, failIf_bind_eq_ok, failIf_bind_eq_ok, set_eq_ok, not_lt,
    Bool.not_eq_true, not_and]
  rfl

theorem iunlock_eq_ok {r : Unit × Fs} : (iunlock ip).run s = .ok r ↔
    1 ≤ (s.icache ip).ref ∧ (s.icache ip).locked = true ∧ r = ((), s.unlock ip) := by
  unfold iunlock
  rw [get_bind, failIf_bind_eq_ok, set_eq_ok, not_or, not_lt, Bool.not_eq_false]
  exact and_assoc.trans and_left_comm

theorem iput_eq_ok {r : Unit × Fs} :
    (iput ip).run s = .ok r ↔ (s.icache ip).locked = false ∧ r = ((), s.put ip) := by
  unfold iput Fs.put
  rw [get_bind, failIf_bind_eq_ok, Bool.not_eq_true]
  split
  · rw [set_eq_ok]
  · rw [set_eq_ok]

theorem iunlockput_eq_ok {r : Unit × Fs} : (iunlockput ip).run s = .ok r ↔
    1 ≤ (s.icache ip).ref ∧ (s.icache ip).locked = true ∧ r = ((), (s.unlock ip).put ip) := by
  have hlock : ((s.unlock ip).icache ip).locked = false := by simp [Fs.unlock, Fs.setSlot]
  unfold iunlockput
  rw [bind_eq_ok]
  constructor
  · rintro ⟨_, _, h, h'⟩
    obtain ⟨h₁, h₂, heq⟩ := iunlock_eq_ok.1 h
    cases heq
    exact ⟨h₁, h₂, (iput_eq_ok.1 h').2⟩
  · rintro ⟨h₁, h₂, h⟩
    exact ⟨_, _, iunlock_eq_ok.2 ⟨h₁, h₂, rfl⟩, iput_eq_ok.2 ⟨hlock, h⟩⟩

/-- `ialloc` takes the first free inode. -/
theorem ialloc_eq_ok {type : InodeType} {r : Fin ninode × Fs} :
    (ialloc type).run s = .ok r ↔
      ∃ n, s.freeInode = some n ∧ (iget n).run (s.birth n type) = .ok r := by
  unfold ialloc
  rw [get_bind]
  cases s.freeInode with
  | none => exact iff_of_false (fun h => nomatch h) (by simp)
  | some n =>
    simp only [Option.some.injEq, exists_eq_left']
    rfl

/-! ### Reading and writing -/

/-- `writei` leaves the state, or writes all the bytes. -/
theorem writei_cases {r : ℤ} (h : (writei ip src off).run s = .ok (r, s')) :
    ((s.inode ip).type = .dev ∨ r = -1) ∧ s' = s ∨
      (s.inode ip).type ≠ .dev ∧ off + src.length ≤ maxfile * bsize ∧
        (s.write ip src off).used ≤ nblocks ∧ r = src.length ∧ s' = s.write ip src off := by
  unfold writei at h
  rw [get_bind] at h
  split at h
  · rename_i hdev
    cases pure_eq_ok.1 h
    exact .inl ⟨.inl hdev, rfl⟩
  · rename_i hdev
    split at h
    · cases pure_eq_ok.1 h
      exact .inl ⟨.inr rfl, rfl⟩
    · rename_i hoff
      rw [failIf_bind_eq_ok, set_bind, pure_eq_ok] at h
      obtain ⟨hf, h⟩ := h
      cases h
      exact .inr ⟨hdev, not_lt.1 fun h => hoff (.inr h), not_lt.1 hf, rfl, rfl⟩

/-- `writei` inside of a file writes the bytes. -/
theorem writei_inside {r : ℤ} (h : (writei ip src off).run s = .ok (r, s'))
    (hdev : (s.inode ip).type ≠ .dev) (hoff : off ≤ (s.inode ip).size)
    (hlen : off + src.length ≤ maxfile * bsize) :
    (s.write ip src off).used ≤ nblocks ∧ s' = s.write ip src off := by
  unfold writei at h
  rw [get_bind, if_neg hdev, if_neg fun h => h.elim (not_lt.2 hoff) (not_lt.2 hlen),
    failIf_bind_eq_ok, set_bind, pure_eq_ok] at h
  obtain ⟨hf, h⟩ := h
  cases h
  exact ⟨not_lt.1 hf, rfl⟩

/-- `dirlookup` returns the inode of the first entry with the name. -/
theorem dirlookup_eq_ok {r : Option (Fin ninode × ℕ)} :
    (dirlookup dp name).run s = .ok (r, s') ↔ (s.inode dp).type = .dir ∧
      match r with
      | some (ip, i) => findEntry name (s.inode dp).data = some i ∧
        (iget (entryAt (s.inode dp).data i).inum).run s = .ok (ip, s')
      | none => findEntry name (s.inode dp).data = none ∧ (s.inode dp).size % 16 = 0 ∧ s' = s := by
  unfold dirlookup inode
  rw [bind_assoc, get_bind, pure_bind, failIf_bind_eq_ok, not_not]
  refine and_congr_right fun _ => ?_
  cases hf : findEntry name (s.inode dp).data with
  | some i =>
    simp only [bind_eq_ok, pure_eq_ok, Prod.mk.injEq]
    cases r with
    | none => simp
    | some r =>
      simp only [Option.some.injEq]
      constructor
      · rintro ⟨ip, t, h, rfl, rfl⟩
        exact ⟨rfl, h⟩
      · rintro ⟨rfl, h⟩
        exact ⟨r.1, s', h, rfl, rfl⟩
  | none =>
    simp only [failIf_bind_eq_ok, pure_eq_ok, Prod.mk.injEq, ne_eq, not_not]
    cases r with
    | none => simp
    | some r => simp

/-- The state after `dirlink` has written an entry. -/
def Fs.link (s : Fs) (dp : Fin ninode) (name : List UInt8) (n : ℕ) : Fs :=
  s.write dp (Dirent.bytes ⟨n, name⟩) (16 * emptyEntry (s.inode dp).data)

/-- `dirlink` finds the name, or writes an entry. -/
theorem dirlink_cases {r : ℤ} (h : (dirlink dp name n).run s = .ok (r, s')) :
    (s.inode dp).type = .dir ∧
      (r = -1 ∧ (∃ ip i t, (dirlookup dp name).run s = .ok (some (ip, i), t) ∧
          (t.icache ip).locked = false ∧ s' = t.put ip) ∨
        r = 0 ∧ findEntry name (s.inode dp).data = none ∧ (s.inode dp).size % 16 = 0 ∧
          16 * emptyEntry (s.inode dp).data + 16 ≤ maxfile * bsize ∧
          (s.link dp name n).used ≤ nblocks ∧ s' = s.link dp name n) := by
  unfold dirlink at h
  obtain ⟨o, t, hl, h⟩ := bind_eq_ok.1 h
  have hl' := dirlookup_eq_ok.1 hl
  refine ⟨hl'.1, ?_⟩
  cases o with
  | some o =>
    obtain ⟨ip, i⟩ := o
    obtain ⟨_, _, hp, h⟩ := bind_eq_ok.1 h
    obtain ⟨hlock, heq⟩ := iput_eq_ok.1 hp
    cases heq
    cases pure_eq_ok.1 h
    exact .inl ⟨rfl, ip, i, t, hl, hlock, rfl⟩
  | none =>
    obtain ⟨hd, hnone, hsize, heq⟩ := hl'
    rw [heq] at h
    obtain ⟨_, _, hi, h⟩ := bind_eq_ok.1 h
    cases inode_eq_ok.1 hi
    obtain ⟨r', t', hw, h⟩ := bind_eq_ok.1 h
    rw [failIf_bind_eq_ok, pure_eq_ok, not_not] at h
    obtain ⟨hf, h⟩ := h
    cases h
    rcases writei_cases hw with ⟨hdev | hr, -⟩ | ⟨-, hoff, hused, -, rfl⟩
    · rw [hd] at hdev
      cases hdev
    · rw [hr] at hf
      exact absurd hf (by decide)
    · rw [Dirent.length_bytes] at hoff
      exact .inr ⟨rfl, hnone, hsize, hoff, hused, rfl⟩

/-- `dirlink` writes an entry, when it says so. -/
theorem dirlink_ok {r : ℤ} (h : (dirlink dp name n).run s = .ok (r, s')) (hr : ¬ r < 0) :
    (s.inode dp).type = .dir ∧ findEntry name (s.inode dp).data = none ∧
      (s.inode dp).size % 16 = 0 ∧ 16 * emptyEntry (s.inode dp).data + 16 ≤ maxfile * bsize ∧
      (s.link dp name n).used ≤ nblocks ∧ s' = s.link dp name n := by
  obtain ⟨hd, ⟨rfl, -⟩ | ⟨-, h⟩⟩ := dirlink_cases h
  · exact absurd (by decide) hr
  · exact ⟨hd, h⟩

/-- The entry that holds the inode after `iget`. -/
theorem iget_inum (h : (iget n).run s = .ok (ip, s')) : (s'.icache ip).inum = n := by
  rcases iget_eq_ok.1 h with ⟨hc, rfl⟩ | ⟨-, -, rfl⟩
  · have := List.find?_some hc
    simp only [decide_eq_true_eq] at this
    simp only [Fs.dup, Fs.setSlot, update_self]
    exact this.2
  · simp only [Fs.recycle, Fs.setSlot, update_self]

/-! ### Paths -/

theorem Fs.lock_unlock_lock : ((s.lock ip).unlock ip).lock ip = s.lock ip := by
  simp only [Fs.lock, Fs.unlock, Fs.setSlot, update_self, update_idem]

/-- The inode that a path leads to is the one that its last element names in the directory that
the path leads to one level early. -/
theorem namexLoop_false {names : List (List UInt8)} {next : Fin ninode} {t t' t'' : Fs}
    (h : (namexLoop true names ip).run s = .ok (some (dp, name), t))
    (hd : (dirlookup dp name).run (t.lock dp) = .ok (some (next, i), t'))
    (hp : (iunlockput dp).run t' = .ok ((), t'')) :
    (namexLoop false names ip).run s = .ok (some (next, []), t'') := by
  induction names generalizing ip s with
  | nil =>
    obtain ⟨_, _, -, h⟩ := bind_eq_ok.1 h
    cases pure_eq_ok.1 h
  | cons elem rest ih =>
    obtain ⟨_, u, hl, h⟩ := bind_eq_ok.1 h
    refine bind_eq_ok.2 ⟨(), u, hl, ?_⟩
    rw [get_bind] at h ⊢
    split at h
    · obtain ⟨_, _, -, h⟩ := bind_eq_ok.1 h
      cases pure_eq_ok.1 h
    · rename_i hdir
      rw [if_neg hdir]
      split at h
      · obtain ⟨_, _, -, h⟩ := bind_eq_ok.1 h
        cases pure_eq_ok.1 h
      · rename_i hx
        rw [if_neg hx, if_neg (by simp)]
        split at h
        · -- the last element
          rename_i hrest
          obtain ⟨_, _, hu, h⟩ := bind_eq_ok.1 h
          obtain ⟨-, -, heq⟩ := iunlock_eq_ok.1 hu
          cases heq
          cases pure_eq_ok.1 h
          obtain ⟨-, -, -, heq⟩ := ilock_eq_ok.1 hl
          cases heq
          rw [Fs.lock_unlock_lock] at hd
          refine bind_eq_ok.2 ⟨_, _, hd, bind_eq_ok.2 ⟨_, _, hp, ?_⟩⟩
          rw [hrest.2]
          rfl
        · obtain ⟨r, u', hd', h⟩ := bind_eq_ok.1 h
          refine bind_eq_ok.2 ⟨r, u', hd', ?_⟩
          rcases r with _ | ⟨next', j⟩
          · obtain ⟨_, _, -, h⟩ := bind_eq_ok.1 h
            cases pure_eq_ok.1 h
          · obtain ⟨_, u'', hp', h⟩ := bind_eq_ok.1 h
            exact bind_eq_ok.2 ⟨_, u'', hp', ih h⟩

theorem namei_of_nameiparent {p : Fin nproc} {path : CharPtr} {next : Fin ninode} {t t' t'' : Fs}
    (h : (nameiparent p path).run s = .ok (some (dp, name), t))
    (hd : (dirlookup dp name).run (t.lock dp) = .ok (some (next, i), t'))
    (hp : (iunlockput dp).run t' = .ok ((), t'')) :
    (namei p path).run s = .ok (some next, t'') := by
  obtain ⟨ip, u, hs, h⟩ := bind_eq_ok.1 h
  exact bind_eq_ok.2 ⟨_, _, bind_eq_ok.2 ⟨ip, u, hs, namexLoop_false h hd hp⟩, rfl⟩

/-! ### New inodes -/

namespace Fs

/-- The state after `createDots`. -/
def dots (s : Fs) (type : InodeType) (dp ip : Fin ninode) : Fs :=
  if type = .dir then
    ((s.setInode dp { s.inode dp with nlink := short ((s.inode dp).nlink + 1) }).link ip dot
      (s.icache ip).inum).link ip dotdot (s.icache dp).inum
  else s

/-- A new inode gets its numbers and its first link. -/
def fill (s : Fs) (ip : Fin ninode) (major minor : ℤ) : Fs :=
  s.setInode ip { s.inode ip with major := short major, minor := short minor, nlink := 1 }

@[simp] theorem icache_setInode (d : Dinode) : (s.setInode ip d).icache = s.icache := rfl

@[simp] theorem births_setInode (d : Dinode) : (s.setInode ip d).births = s.births := rfl

@[simp] theorem icache_link : (s.link dp name n).icache = s.icache := rfl

@[simp] theorem births_link : (s.link dp name n).births = s.births := rfl

@[simp] theorem icache_dots (type : InodeType) : (s.dots type dp ip).icache = s.icache := by
  rw [dots]
  split
  · rfl
  · rfl

@[simp] theorem births_dots (type : InodeType) : (s.dots type dp ip).births = s.births := by
  rw [dots]
  split
  · rfl
  · rfl

/-- `iput` leaves the numbers of the inodes that the entries hold. -/
theorem inum_put (jp : Fin ninode) : ((s.put ip).icache jp).inum = (s.icache jp).inum := by
  rw [put]
  by_cases hj : jp = ip
  · subst hj
    split
    · simp [setSlot]
    · simp [setSlot]
  · split
    · simp [setSlot, hj]
    · simp [setSlot, hj]

theorem inum_unlock (jp : Fin ninode) : ((s.unlock ip).icache jp).inum = (s.icache jp).inum := by
  by_cases hj : jp = ip
  · subst hj
    simp [unlock, setSlot]
  · simp [unlock, setSlot, hj]

theorem inum_lock (jp : Fin ninode) : ((s.lock ip).icache jp).inum = (s.icache jp).inum := by
  by_cases hj : jp = ip
  · subst hj
    simp [lock, setSlot]
  · simp [lock, setSlot, hj]

theorem inode_unlock (jp : Fin ninode) : (s.unlock ip).inode jp = s.inode jp :=
  congrArg s.disk (inum_unlock jp)

theorem inode_lock (jp : Fin ninode) : (s.lock ip).inode jp = s.inode jp :=
  congrArg s.disk (inum_lock jp)

theorem inode_dup (jp : Fin ninode) : (s.dup ip).inode jp = s.inode jp := by
  by_cases hj : jp = ip
  · subst hj
    simp [inode, dup, setSlot]
  · simp [inode, dup, setSlot, hj]

theorem cwd_put : (s.put ip).cwd = s.cwd := by
  rw [put]
  split
  · rfl
  · rfl

/-- An inode with links is not freed. -/
theorem disk_put_of_nlink (h : (s.inode ip).nlink ≠ 0) : (s.put ip).disk = s.disk := by
  rw [put, if_neg fun hlast => h hlast.2.1]
  rfl

/-- Giving back a reference changes no inode but the one that is freed. -/
theorem disk_put_of_type {n : ℕ} (h : ((s.put ip).disk n).type ≠ .free) :
    (s.put ip).disk n = s.disk n := by
  rw [put] at h ⊢
  split
  · rename_i hlast
    rw [if_pos hlast] at h
    by_cases hn : n = (s.icache ip).inum
    · subst hn
      exact absurd (by simp) h
    · exact disk_setDisk_of_ne hn _
  · rfl

theorem disk_put_of_ne {m : ℕ} (h : m ≠ (s.icache ip).inum) : (s.put ip).disk m = s.disk m := by
  rw [put]
  split
  · exact disk_setDisk_of_ne h _
  · rfl

theorem births_put : (s.put ip).births = s.births := by
  rw [put]
  split
  · rfl
  · rfl

end Fs

theorem createDots_ok {type : InodeType} (h : (createDots type dp ip).run s = .ok (u, s')) :
    s' = s.dots type dp ip := by
  unfold createDots at h
  rw [Fs.dots]
  split at h
  · rename_i hd
    rw [if_pos hd]
    obtain ⟨_, t, hu, h⟩ := bind_eq_ok.1 h
    cases iupdate_eq_ok.1 hu
    rw [get_bind] at h
    obtain ⟨r, t, hl, h⟩ := bind_eq_ok.1 h
    obtain ⟨hr, h⟩ := failIf_bind_eq_ok.1 h
    obtain ⟨r', t', hl', h⟩ := bind_eq_ok.1 h
    obtain ⟨hr', h⟩ := failIf_eq_ok.1 h
    cases h
    obtain ⟨-, -, -, -, -, rfl⟩ := dirlink_ok hl hr
    obtain ⟨-, -, -, -, -, rfl⟩ := dirlink_ok hl' hr'
    rfl
  · rename_i hd
    rw [if_neg hd]
    cases pure_eq_ok.1 h
    rfl

/-- The state in which `create` has entered a new inode into the directory. -/
def Fs.entered (t : Fs) (type : InodeType) (major minor : ℤ) (dp ip : Fin ninode)
    (name : List UInt8) : Fs :=
  (((t.lock ip).fill ip major minor).dots type dp ip).link dp name (t.icache ip).inum

theorem Fs.cwd_entered {type : InodeType} {major minor : ℤ} :
    (s.entered type major minor dp ip name).cwd = s.cwd := by
  change (((s.lock ip).fill ip major minor).dots type dp ip).cwd = _
  rw [Fs.dots]
  split
  · rfl
  · rfl

theorem Fs.inum_entered {type : InodeType} {major minor : ℤ} (jp : Fin ninode) :
    ((s.entered type major minor dp ip name).icache jp).inum = (s.icache jp).inum := by
  rw [Fs.entered, Fs.icache_link, Fs.icache_dots]
  exact Fs.inum_lock jp

theorem iget_cwd (h : (iget n).run s = .ok (ip, s')) : s'.cwd = s.cwd := by
  rcases iget_eq_ok.1 h with ⟨-, rfl⟩ | ⟨-, -, rfl⟩
  · rfl
  · rfl

theorem iget_info (h : (iget n).run s = .ok (ip, s')) : s'.info = s.info := by
  rcases iget_eq_ok.1 h with ⟨-, rfl⟩ | ⟨-, -, rfl⟩
  · rfl
  · rfl

/-- `create` makes a new inode: the first free one is allocated, gets its first link and, if it
is a directory, its first two entries, and is entered into the directory. -/
theorem createNew_some {type : InodeType} {major minor : ℤ}
    (h : (createNew type major minor dp name).run s = .ok (some ip, s')) :
    getModeBit s.info (s.inode dp) modeWusr modeWoth = 1 ∧
      ∃ n t, s.freeInode = some n ∧ (iget n).run (s.birth n type) = .ok (ip, t) ∧
        16 * emptyEntry ((((t.lock ip).fill ip major minor).dots type dp ip).inode dp).data + 16 ≤
          maxfile * bsize ∧
        (t.entered type major minor dp ip name).used ≤ nblocks ∧
        s' = ((t.entered type major minor dp ip name).unlock dp).put dp := by
  unfold createNew at h
  rw [get_bind] at h
  split at h
  · obtain ⟨_, _, _, h⟩ := bind_eq_ok.1 h
    cases pure_eq_ok.1 h
  · rename_i hbit
    refine ⟨not_not.1 hbit, ?_⟩
    obtain ⟨ip', t, ha, h⟩ := bind_eq_ok.1 h
    obtain ⟨n, hn, ht⟩ := ialloc_eq_ok.1 ha
    obtain ⟨_, _, hl, h⟩ := bind_eq_ok.1 h
    obtain ⟨-, -, -, heq⟩ := ilock_eq_ok.1 hl
    cases heq
    obtain ⟨_, _, hu, h⟩ := bind_eq_ok.1 h
    cases iupdate_eq_ok.1 hu
    obtain ⟨_, _, hd, h⟩ := bind_eq_ok.1 h
    rw [createDots_ok hd, get_bind] at h
    obtain ⟨r, t', hlink, h⟩ := bind_eq_ok.1 h
    obtain ⟨hr, h⟩ := failIf_bind_eq_ok.1 h
    obtain ⟨_, _, hp, h⟩ := bind_eq_ok.1 h
    obtain ⟨-, -, heq⟩ := iunlockput_eq_ok.1 hp
    cases heq
    cases pure_eq_ok.1 h
    obtain ⟨-, -, -, hsize, hused, rfl⟩ := dirlink_ok hlink hr
    refine ⟨n, t, hn, ht, hsize, ?_⟩
    have hinum : (((t.lock ip).fill ip major minor).dots type dp ip |>.icache ip).inum =
        (t.icache ip).inum := by
      rw [Fs.icache_dots]
      exact Fs.inum_lock ip
    rw [Fs.entered, ← hinum]
    exact ⟨hused, rfl⟩

/-- The inode of `createNew` has been allocated by it. -/
theorem createNew_births {type : InodeType} {major minor : ℤ}
    (h : (createNew type major minor dp name).run s = .ok (some ip, s')) :
    s.births (s'.icache ip).inum < s'.births (s'.icache ip).inum := by
  obtain ⟨-, n, t, -, ht, -, -, rfl⟩ := createNew_some h
  have hb : t.births = update s.births n (s.births n + 1) := by
    rcases iget_eq_ok.1 ht with ⟨-, rfl⟩ | ⟨-, -, rfl⟩
    · rfl
    · rfl
  rw [Fs.inum_put, Fs.inum_unlock, Fs.births_put, Fs.entered, Fs.icache_link, Fs.icache_dots]
  have hn : (((t.lock ip).fill ip major minor).icache ip).inum = n :=
    (Fs.inum_lock ip).trans (iget_inum ht)
  have hs' : ((t.entered type major minor dp ip name).unlock dp).births = t.births := by
    change (((t.lock ip).fill ip major minor).dots type dp ip).births = _
    rw [Fs.births_dots]
    rfl
  rw [hn]
  calc s.births n < s.births n + 1 := Nat.lt_succ_self _
    _ = t.births n := by rw [hb, update_self]
    _ = _ := (congrFun hs' n).symm

/-- What `createFound` returns is a file that may be written, and it is only locked. -/
theorem createFound_some {type : InodeType} {jp : Fin ninode}
    (h : (createFound type dp ip).run s = .ok (some jp, s')) :
    jp = ip ∧ type = .file ∧ ∃ t, (iunlockput dp).run s = .ok ((), t) ∧ s' = t.lock ip ∧
      (t.inode ip).type = .file ∧ getModeBit t.info (t.inode ip) modeWusr modeWoth = 1 := by
  unfold createFound at h
  obtain ⟨_, t, hp, h⟩ := bind_eq_ok.1 h
  obtain ⟨_, t', hl, h⟩ := bind_eq_ok.1 h
  obtain ⟨-, -, -, heq⟩ := ilock_eq_ok.1 hl
  cases heq
  rw [get_bind, Fs.inode_lock] at h
  split at h
  · rename_i htype
    split at h
    · obtain ⟨_, _, _, h⟩ := bind_eq_ok.1 h
      cases pure_eq_ok.1 h
    · rename_i hbit
      cases pure_eq_ok.1 h
      exact ⟨rfl, htype.1, t, hp, rfl, htype.2, not_not.1 hbit⟩
  · obtain ⟨_, _, _, h⟩ := bind_eq_ok.1 h
    cases pure_eq_ok.1 h

/-- The inode that `create` returns is new, or it is a file that the path leads to, which the
user may write to. -/
theorem create_some {p : Fin nproc} {path : CharPtr} {type : InodeType} {major minor : ℤ}
    (h : (create p path type major minor).run s = .ok (some ip, s')) :
    (∃ dp name t t', (nameiparent p path).run s = .ok (some (dp, name), t) ∧
        (ilock dp).run t = .ok ((), t.lock dp) ∧
        (dirlookup dp name).run (t.lock dp) = .ok (none, t') ∧
        (createNew type major minor dp name).run t' = .ok (some ip, s')) ∨
      type = .file ∧ ∃ t, (namei p path).run s = .ok (some ip, t) ∧ s' = t.lock ip ∧
        (t.inode ip).type = .file ∧ getModeBit t.info (t.inode ip) modeWusr modeWoth = 1 := by
  unfold create at h
  obtain ⟨r, t, hn, h⟩ := bind_eq_ok.1 h
  rcases r with _ | ⟨dp, name⟩
  · cases pure_eq_ok.1 h
  · obtain ⟨_, _, hl, h⟩ := bind_eq_ok.1 h
    obtain ⟨-, -, -, heq⟩ := ilock_eq_ok.1 hl
    cases heq
    obtain ⟨r, t', hd, h⟩ := bind_eq_ok.1 h
    rcases r with _ | ⟨jp, i⟩
    · exact .inl ⟨dp, name, t, t', hn, hl, hd, h⟩
    · obtain ⟨rfl, htype, u, hp, h⟩ := createFound_some h
      exact .inr ⟨htype, u, namei_of_nameiparent hn hd hp, h⟩

/-! ### Opening -/

theorem argfd_eq_some {p : Fin nproc} {r : ℤ} {fd : Fin nofile} {f : Fin nfile}
    (h : s.argfd p r = some (fd, f)) : (fd.val : ℤ) = r ∧ s.ofile p fd = some f := by
  obtain ⟨i, -, h⟩ := List.exists_of_findSome?_eq_some h
  split at h
  · rename_i hi
    obtain ⟨g, hg, h⟩ := Option.map_eq_some_iff.1 h
    cases h
    exact ⟨hi, hg⟩
  · cases h

/-- `open` fails, or it returns the first free descriptor of the process, of the first file
structure that is not in use. -/
theorem sysOpen_cases {p : Fin nproc} {path : CharPtr} {omode : UInt32} {r : ℤ}
    (h : (sysOpen p path omode).run s = .ok (r, s')) :
    r = -1 ∧ ((openInode p path omode).run s = .ok (none, s') ∨
        ∃ ip t, (openInode p path omode).run s = .ok (some ip, t) ∧
          (iunlockput ip).run t = .ok ((), s')) ∨
      ∃ ip t f fd, (openInode p path omode).run s = .ok (some ip, t) ∧
        (omode = oWronly ∨ omode = oRdwr →
          getModeBit t.info (t.inode ip) modeWusr modeWoth ≠ 0) ∧
        (omode = oRdonly ∨ omode = oRdwr →
          getModeBit t.info (t.inode ip) modeRusr modeRoth ≠ 0) ∧
        (iunlock ip).run t = .ok ((), t.unlock ip) ∧
        t.filealloc = some f ∧ t.fdalloc p = some fd ∧ r = fd.val ∧
        s' = ((t.unlock ip).setFile f (some (openFile ip omode))).setOfile p fd (some f) := by
  unfold sysOpen at h
  obtain ⟨o, t, ho, h⟩ := bind_eq_ok.1 h
  cases o with
  | none =>
    cases pure_eq_ok.1 h
    exact .inl ⟨rfl, .inl ho⟩
  | some ip =>
    have hfail : (iunlockput ip >>= fun _ => (pure (-1) : Op ℤ)).run t = .ok (r, s') →
        r = -1 ∧ (iunlockput ip).run t = .ok ((), s') := by
      intro h
      obtain ⟨_, _, h, h'⟩ := bind_eq_ok.1 h
      cases pure_eq_ok.1 h'
      exact ⟨rfl, h⟩
    rw [get_bind] at h
    split at h
    · exact .inl ((hfail h).imp_right fun h => .inr ⟨ip, t, ho, h⟩)
    · rename_i hw
      split at h
      · exact .inl ((hfail h).imp_right fun h => .inr ⟨ip, t, ho, h⟩)
      · rename_i hr
        split at h
        · rename_i f fd hf hfd
          obtain ⟨_, _, hu, h⟩ := bind_eq_ok.1 h
          obtain ⟨hu₁, hu₂, heq⟩ := iunlock_eq_ok.1 hu
          cases heq
          obtain ⟨_, _, hm, h⟩ := bind_eq_ok.1 h
          cases modify_eq_ok.1 hm
          cases pure_eq_ok.1 h
          exact .inr ⟨ip, t, f, fd, ho, fun h h' => hw ⟨h, h'⟩, fun h h' => hr ⟨h, h'⟩, hu, hf, hfd,
            rfl, rfl⟩
        · exact .inl ((hfail h).imp_right fun h => .inr ⟨ip, t, ho, h⟩)

end FileSystem
