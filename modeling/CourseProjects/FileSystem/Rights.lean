import CourseProjects.FileSystem.Accounts
import CourseProjects.FileSystem.Boot
import CourseProjects.FileSystem.Effects

/-!
# The rights that a descriptor carries

The owner and the permission of an inode (`Intact`) are kept by all the functions on paths and
directories, as long as the inode is not allocated anew. So what `open` checks is the
permission from before the call.

* `open_rights_iff`: for a user who is neither `root` nor the owner, the descriptor carries no
  more than the rights of the others exactly when `open` has checked them, or when they are
  there without a check (`Covered`).
-/

namespace FileSystem

open CString Function Tx

variable {s s' : Fs} {ip : Fin ninode} {n : ℕ}

/-! ### What paths keep -/

/-- No inode has another owner or another permission, unless it has been allocated anew. -/
def Intact (s s' : Fs) : Prop :=
  ∀ n, s.births n ≤ s'.births n ∧ (s'.births n = s.births n →
    (s'.disk n).owner = (s.disk n).owner ∧ (s'.disk n).permission = (s.disk n).permission)

/-- The inodes are intact, and the users are the same. -/
def Unaltered (s s' : Fs) : Prop := Intact s s' ∧ s'.info = s.info

theorem Intact.refl (s : Fs) : Intact s s := fun _ => ⟨le_rfl, fun _ => ⟨rfl, rfl⟩⟩

theorem Intact.trans {t : Fs} (h : Intact s t) (h' : Intact t s') : Intact s s' := by
  intro n
  refine ⟨(h n).1.trans (h' n).1, fun hn => ?_⟩
  -- the inode has not been allocated in between
  have ht : t.births n = s.births n := le_antisymm (hn ▸ (h' n).1) (h n).1
  obtain ⟨ho, hp⟩ := (h n).2 ht
  obtain ⟨ho', hp'⟩ := (h' n).2 (hn.trans ht.symm)
  exact ⟨ho'.trans ho, hp'.trans hp⟩

theorem intact_of_eq (hd : s'.disk = s.disk) (hb : s'.births = s.births) : Intact s s' := by
  intro n
  rw [hd, hb]
  exact ⟨le_rfl, fun _ => ⟨rfl, rfl⟩⟩

/-- An inode is changed, but not its rights. -/
theorem intact_setDisk {d : Dinode} (ho : d.owner = (s.disk n).owner)
    (hp : d.permission = (s.disk n).permission) : Intact s (s.setDisk n d) := by
  refine fun m => ⟨le_rfl, fun _ => ?_⟩
  by_cases hm : m = n
  · rw [hm, Fs.disk_setDisk_self]
    exact ⟨ho, hp⟩
  · rw [Fs.disk_setDisk_of_ne hm]
    exact ⟨rfl, rfl⟩

/-- An inode that has been allocated may be changed. -/
theorem Intact.setDisk {d : Dinode} (h : Intact s s') (hn : s.births n < s'.births n) :
    Intact s (s'.setDisk n d) := by
  refine fun m => ⟨(h m).1, fun hm => ?_⟩
  have hmn : m ≠ n := by
    rintro rfl
    exact absurd hm hn.ne'
  rw [Fs.disk_setDisk_of_ne hmn]
  exact (h m).2 hm

theorem intact_birth {type : InodeType} : Intact s (s.birth n type) := by
  intro m
  by_cases hm : m = n
  · rw [hm, Fs.births_birth_self]
    exact ⟨Nat.le_succ _, fun h => absurd h (Nat.succ_ne_self _)⟩
  · rw [Fs.births_birth_of_ne hm, Fs.disk_birth_of_ne hm]
    exact ⟨le_rfl, fun _ => ⟨rfl, rfl⟩⟩

theorem intact_put : Intact s (s.put ip) := by
  rw [Fs.put]
  split
  · exact (intact_setDisk (d := { s.inode ip with type := .free, data := [] }) rfl rfl).trans
      (intact_of_eq rfl rfl)
  · exact intact_of_eq rfl rfl

theorem info_put : (s.put ip).info = s.info := by
  rw [Fs.put]
  split
  · rfl
  · rfl

theorem Unaltered.trans {t : Fs} (h : Unaltered s t) (h' : Unaltered t s') : Unaltered s s' :=
  ⟨h.1.trans h'.1, h'.2.trans h.2⟩

theorem unaltered_of_eq (hd : s'.disk = s.disk) (hb : s'.births = s.births)
    (hi : s'.info = s.info) : Unaltered s s' := ⟨intact_of_eq hd hb, hi⟩

theorem unaltered_iget (h : (iget n).run s = .ok (ip, s')) : Unaltered s s' := by
  rcases iget_eq_ok.1 h with ⟨-, rfl⟩ | ⟨-, -, rfl⟩
  · exact unaltered_of_eq rfl rfl rfl
  · exact unaltered_of_eq rfl rfl rfl

/-- That the inodes are intact and the users the same adds up along the functions on inodes. -/
theorem unaltered_accounting :
    Accounting (fun (_ : ℤ) => Unaltered) (fun _ => 0) (fun _ => 0) where
  zero s := ⟨.refl s, rfl⟩
  add h h' := h.trans h'
  iget n s ip s' h := unaltered_iget h
  idup ip s r s' h := by
    cases idup_eq_ok.1 h
    exact unaltered_of_eq rfl rfl rfl
  ilock ip s u s' h := by
    obtain ⟨-, -, -, heq⟩ := ilock_eq_ok.1 h
    cases heq
    exact unaltered_of_eq rfl rfl rfl
  iunlock ip s u s' h := by
    obtain ⟨-, -, heq⟩ := iunlock_eq_ok.1 h
    cases heq
    exact unaltered_of_eq rfl rfl rfl
  iput ip s u s' h := by
    obtain ⟨-, heq⟩ := iput_eq_ok.1 h
    cases heq
    exact ⟨intact_put, info_put⟩
  ialloc type s ip s' h := by
    obtain ⟨n, -, h⟩ := ialloc_eq_ok.1 h
    exact Unaltered.trans ⟨intact_birth, rfl⟩ (unaltered_iget h)
  writei ip src off s r s' h := by
    rcases writei_cases h with ⟨-, rfl⟩ | ⟨-, -, -, -, rfl⟩
    · exact unaltered_of_eq rfl rfl rfl
    · exact ⟨intact_setDisk rfl rfl, rfl⟩
  iupdate ip f hf s u s' h := by
    cases iupdate_eq_ok.1 h
    exact ⟨intact_setDisk (hf _).1 (hf _).2, rfl⟩

/-! ### What is checked -/

theorem getModeBit_congr {t : UserInfo} {d d' : Dinode} {own oth : UInt32}
    (ho : d'.owner = d.owner) (hp : d'.permission = d.permission) :
    getModeBit t d' own oth = getModeBit t d own oth := by
  cases d
  cases d'
  cases ho
  cases hp
  rfl

/-- For a user who is neither `root` nor the owner, the bit of the others counts. -/
theorem getModeBit_other {t : UserInfo} {d : Dinode} {own oth : UInt32} (hi : t.initial = true)
    (hr : ¬ t.IsRoot) (ho : ¬ t.Owns d) :
    getModeBit t d own oth ≠ 0 ↔ oth &&& d.permission ≠ 0 := by
  rw [getModeBit, if_neg (by rw [hi]; decide), if_neg (by simp [hr, ho])]
  split
  · simp [*]
  · simp [*]

variable {p : Fin nproc} {path : CharPtr} {omode : UInt32}

/-- The inode that `create` returns is new, or else it is that of the path. -/
theorem create_births {type : InodeType} {major minor : ℤ}
    (h : (create p path type major minor).run s = .ok (some ip, s')) :
    s.births (s'.icache ip).inum < s'.births (s'.icache ip).inum ∨
      type = .file ∧ ∃ t, (namei p path).run s = .ok (some ip, t) ∧ s' = t.lock ip ∧
        (t.inode ip).type = .file ∧ getModeBit t.info (t.inode ip) modeWusr modeWoth = 1 := by
  rcases create_some h with ⟨dp, name, t, t', hn, hl, hd, h⟩ | h
  · have hs : Unaltered s t' :=
      ((unaltered_accounting.nameiparent p path s _ t hn).trans
        (unaltered_accounting.ilock dp t _ _ hl)).trans
        (unaltered_accounting.dirlookup dp name _ _ t' hd)
    exact .inl ((hs.1 _).1.trans_lt (createNew_births h))
  · exact .inr h

/-- The inode that is opened is new, or it has been checked with `O_CREATE`, or it is as it was
before. -/
theorem openInode_some (h : (openInode p path omode).run s = .ok (some ip, s')) :
    s'.info = s.info ∧ (s'.births (s'.icache ip).inum = s.births (s'.icache ip).inum →
      if omode &&& oCreate ≠ 0 then
        getModeBit s.info (s.disk (s'.icache ip).inum) modeWusr modeWoth = 1
      else (s'.inode ip).owner = (s.disk (s'.icache ip).inum).owner ∧
        (s'.inode ip).permission = (s.disk (s'.icache ip).inum).permission) := by
  by_cases hc : omode &&& oCreate = 0
  · have hs := unaltered_accounting.openInode p path hc s _ s' h
    rw [if_neg (not_not.2 hc)]
    exact ⟨hs.2, (hs.1 _).2⟩
  · rw [if_pos hc]
    unfold openInode at h
    rw [if_pos hc] at h
    obtain ⟨r, t, hcr, h⟩ := bind_eq_ok.1 h
    cases r with
    | none => cases pure_eq_ok.1 h
    | some jp =>
      rw [get_bind] at h
      obtain ⟨_, _, hu, h⟩ := bind_eq_ok.1 h
      cases iupdate_eq_ok.1 hu
      cases pure_eq_ok.1 h
      have hs := unaltered_accounting.create_costs p path _ _ _ s _ t hcr
      refine ⟨hs.2, fun hb => ?_⟩
      rcases create_births hcr with hnew | ⟨-, u, -, rfl, -, hbit⟩
      · exact absurd hb hnew.ne'
      · obtain ⟨ho, hp⟩ := (hs.1 _).2 hb
        rw [← Fs.inode_lock ip] at hbit
        exact (getModeBit_congr ho hp).symm.trans (hs.2 ▸ hbit)

/-! ### Descriptors -/

/-- The rights that a file carries, others have on an inode with the permission. -/
def File.Granted (v : File) (permission : UInt32) : Prop :=
  (v.readable = true → modeRoth &&& permission ≠ 0) ∧
    (v.writable = true → modeWoth &&& permission ≠ 0)

instance (v : File) (permission : UInt32) : Decidable (v.Granted permission) :=
  inferInstanceAs (Decidable (_ ∧ _))

/-- The mode is one of the three that `open` checks; or else others have the right to read,
unless it has the bit of `O_WRONLY`, and `create` has checked the right to write, or others
have it, or the mode has no bit of `O_WRONLY` and `O_RDWR`. -/
def Covered (omode permission : UInt32) : Prop :=
  omode = oRdonly ∨ omode = oWronly ∨ omode = oRdwr ∨
    (omode &&& oWronly ≠ 0 ∨ modeRoth &&& permission ≠ 0) ∧
      (omode &&& oWronly = 0 ∧ omode &&& oRdwr = 0 ∨ omode &&& oCreate ≠ 0 ∨
        modeWoth &&& permission ≠ 0)

/-- What a file carries that is opened without a check. -/
theorem granted_openFile {permission : UInt32} : (openFile ip omode).Granted permission ↔
    (omode &&& oWronly ≠ 0 ∨ modeRoth &&& permission ≠ 0) ∧
      (omode &&& oWronly = 0 ∧ omode &&& oRdwr = 0 ∨ modeWoth &&& permission ≠ 0) := by
  simp only [File.Granted, openFile, decide_eq_true_eq]
  grind

/-- The file of the descriptor that `open` returns, its inode, and the state after the call. -/
def opened (s : Fs) (p : Fin nproc) (path : CharPtr) (omode : UInt32) : Option (File × ℕ × Fs) :=
  match (sysOpen p path omode).run s with
  | .ok (r, s') =>
    match (s'.argfd p r).bind fun a => s'.ftable a.2 with
    | some v =>
      match v.type with
      | .inode ip => some (v, (s'.icache ip).inum, s')
      | _ => none
    | none => none
  | .error _ => none

/-- The descriptor is that of the inode that has been opened. -/
theorem opened_some {v : File} (h : opened s p path omode = some (v, n, s')) :
    ∃ ip t, (openInode p path omode).run s = .ok (some ip, t) ∧ v = openFile ip omode ∧
      (t.icache ip).inum = n ∧ s'.births = t.births ∧
      (omode = oWronly ∨ omode = oRdwr → getModeBit t.info (t.inode ip) modeWusr modeWoth ≠ 0) ∧
      (omode = oRdonly ∨ omode = oRdwr →
        getModeBit t.info (t.inode ip) modeRusr modeRoth ≠ 0) := by
  unfold opened at h
  split at h
  · rename_i r t' hrun
    split at h
    · rename_i w hw
      obtain ⟨⟨fd, f⟩, hfd, hf⟩ := Option.bind_eq_some_iff.1 hw
      split at h
      · rename_i ip hip
        cases h
        obtain ⟨hr, hof⟩ := argfd_eq_some hfd
        rcases sysOpen_cases hrun with ⟨rfl, -⟩ | ⟨jp, t, g, fd', ho, hwr, hrd, -, -, -, rfl, rfl⟩
        · omega
        · obtain rfl : fd = fd' := Fin.ext (by exact_mod_cast hr)
          obtain rfl : g = f := by simpa [Fs.setOfile] using hof
          obtain rfl : openFile jp omode = v := by simpa [Fs.setOfile, Fs.setFile] using hf
          obtain rfl : jp = ip := by simpa [openFile] using hip
          exact ⟨jp, t, ho, rfl, (Fs.inum_unlock jp).symm, rfl, hwr, hrd⟩
      · cases h
    · cases h
  · cases h

/-- For a user who is neither `root` nor the owner of an inode from before the call, what `open`
returns carries rights of the others exactly when the mode is covered. -/
theorem open_rights_iff {v : File} (h : opened s p path omode = some (v, n, s'))
    (hinit : s.info.initial = true) (hbirth : s'.births n = s.births n)
    (hroot : ¬ s.info.IsRoot) (howner : ¬ s.info.Owns (s.disk n)) :
    v.Granted (s.disk n).permission ↔ Covered omode (s.disk n).permission := by
  obtain ⟨ip, t, ho, rfl, rfl, hb, hw, hr⟩ := opened_some h
  obtain ⟨hinfo, hold⟩ := openInode_some ho
  have hold := hold (hb ▸ hbirth)
  have hother : ∀ {own oth : UInt32},
      getModeBit s.info (s.disk (t.icache ip).inum) own oth ≠ 0 ↔
        oth &&& (s.disk (t.icache ip).inum).permission ≠ 0 := getModeBit_other hinit hroot howner
  rw [granted_openFile, Covered]
  split at hold
  · -- `create` has checked the right to write, and `open` checks nothing
    rename_i hc
    have hwoth : modeWoth &&& (s.disk (t.icache ip).inum).permission ≠ 0 :=
      hother.1 (by rw [hold]; decide)
    have hmode : omode ≠ oRdonly ∧ omode ≠ oWronly ∧ omode ≠ oRdwr := by
      refine ⟨?_, ?_, ?_⟩
      all_goals
        rintro rfl
        exact hc (by decide)
    simp [hwoth, hc, hmode]
  · rename_i hc
    have hbit : ∀ {own oth : UInt32}, getModeBit t.info (t.inode ip) own oth =
        getModeBit s.info (s.disk (t.icache ip).inum) own oth := by
      intro own oth
      rw [hinfo, getModeBit_congr hold.1 hold.2]
    simp only [hbit, hother] at hw hr
    by_cases h0 : omode = oRdonly
    · subst h0
      simp [hr]
    · by_cases h1 : omode = oWronly
      · subst h1
        have h1 : oWronly ≠ 0 := h0
        simp [hw, h1]
      · by_cases h2 : omode = oRdwr
        · subst h2
          simp [hr, hw]
        · simp [h0, h1, h2, hc]

/-! ### A file that others may only write to -/

/-- The path `f`. -/
def filePath : CharPtr := ⟨[102], by decide⟩

/-- The name `bob`. -/
def bob : CharPtr := ⟨[98, 111, 98], by decide⟩

/-- `root` makes a file that others may write to, but not read, and `bob` logs in. -/
def writeOnly : List (Fin nproc × Call) :=
  [(0, .myopen []), (0, .openPath filePath (oCreate ||| oRdwr)),
    (0, .chmod filePath (modeWusr ||| modeWoth)), (0, .addUser bob bob), (0, .login bob bob)]

/-- What `open` returns to the current user, who is neither `root` nor the owner, on an inode
from before the call, and what others may do with it. -/
def openedByOther (s : Fs) (p : Fin nproc) (path : CharPtr) (omode : UInt32) :
    Option (Bool × Bool × UInt32) :=
  match opened s p path omode with
  | some (v, n, s') =>
    if s.info.initial = true ∧ s'.births n = s.births n ∧ ¬ s.info.IsRoot ∧
        ¬ s.info.Owns (s.disk n) then some (v.readable, v.writable, (s.disk n).permission)
    else none
  | none => none

/-- With `O_CREATE`, `bob` gets a descriptor to read the file. -/
theorem open_oversteps : ∃ s v n s', Trace.run step (boot (mkfs [])) writeOnly = some s ∧
    opened s 0 filePath oCreate = some (v, n, s') ∧ s.info.initial = true ∧
    s'.births n = s.births n ∧ ¬ s.info.IsRoot ∧ ¬ s.info.Owns (s.disk n) ∧
    ¬ v.Granted (s.disk n).permission := by
  have h : (Trace.run step (boot (mkfs [])) writeOnly).bind
      (openedByOther · 0 filePath oCreate) = some (true, false, modeWusr ||| modeWoth) := by
    decide +kernel
  obtain ⟨s, hs, h⟩ := Option.bind_eq_some_iff.1 h
  unfold openedByOther at h
  split at h
  · rename_i v n s' ho
    split at h
    · rename_i hc
      simp only [Option.some.injEq, Prod.mk.injEq] at h
      refine ⟨s, v, n, s', hs, ho, hc.1, hc.2.1, hc.2.2.1, hc.2.2.2, fun hg => ?_⟩
      exact hg.1 h.1 (by rw [h.2.2]; decide)
    · cases h
  · cases h

/-- Without it, `bob` gets one to write, as others may. -/
theorem open_rights_bob : ∃ s v n s', Trace.run step (boot (mkfs [])) writeOnly = some s ∧
    opened s 0 filePath oWronly = some (v, n, s') ∧ v.Granted (s.disk n).permission := by
  have h : (Trace.run step (boot (mkfs [])) writeOnly).bind
      (openedByOther · 0 filePath oWronly) = some (false, true, modeWusr ||| modeWoth) := by
    decide +kernel
  obtain ⟨s, hs, h⟩ := Option.bind_eq_some_iff.1 h
  unfold openedByOther at h
  split at h
  · rename_i v n s' ho
    split at h
    · rename_i hc
      exact ⟨s, v, n, s', hs, ho,
        (open_rights_iff ho hc.1 hc.2.1 hc.2.2.1 hc.2.2.2).2 (.inr (.inl rfl))⟩
    · cases h
  · cases h

end FileSystem
