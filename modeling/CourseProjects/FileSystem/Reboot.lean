import CourseProjects.FileSystem.UserCalls
import CourseProjects.Lib.Run

/-!
# The table of the users and the next boot

The next boot finds the file `userS` that the calls on the users have left, and reads the table
from it before it does anything that may not return.

* `Idle.restore`: the table is read, without an error;
* `user_table_kept`: after each run of calls on the users the next boot restores the table, and
  each login has the same result.
-/

namespace FileSystem

open CString Function Tx

variable {s s' : Fs} {ip : Fin ninode} {n : ℕ} {d : Dinode} {p : Fin nproc} {c : Call}
  {typed : List UInt8} {disk : ℕ → Dinode}

/-! ### The next boot -/

/-- The part of `sys_myopen` up to where the table has been read. -/
def restoreUsers (p : Fin nproc) (typed : List UInt8) : Op Unit := do
  let userS ← makeUserS p
  iput userS
  loadUsers p typed

theorem sysMyopen_eq : sysMyopen p typed = (do
    restoreUsers p typed
    let ip ← create p tmpPath .dir 0 0
    let ip ← ofOption .nullPointer ip
    iunlockput ip
    removeTmp p) := by
  simp only [sysMyopen, restoreUsers, bind_assoc]

/-- No inode is in use but the root directory. -/
structure Idle (s : Fs) : Prop where
  rooted : Rooted s
  unlocked : ∀ ip, (s.icache ip).locked = false
  idle : ∀ ip, ip ≠ 0 → (s.icache ip).ref = 0

theorem idle_boot (disk : ℕ → Dinode) : Idle (boot disk) where
  rooted := rooted_boot disk
  unlocked ip := by
    simp only [boot]
    split
    · rfl
    · rfl
  idle ip hip := by
    simp only [boot, if_neg hip]

theorem Idle.empty_some (h : Idle s) : ∃ jp, s.empty = some jp ∧ jp ≠ 0 := by
  have hsome : s.empty ≠ none := by
    rw [Fs.empty, ne_eq, List.find?_eq_none]
    intro hall
    exact hall 1 (List.mem_finRange 1) (decide_eq_true (h.idle 1 (by decide)))
  obtain ⟨jp, hjp⟩ := Option.ne_none_iff_exists'.1 hsome
  refine ⟨jp, hjp, ?_⟩
  rintro rfl
  have hzero : (s.icache 0).ref = 0 := by simpa using List.find?_some hjp
  have := h.rooted.ref
  rw [hzero] at this
  exact absurd this (by decide)

/-- The file is found, and its entry of the cache is a new one. -/
theorem Idle.namei_userS (h : Idle s) (hm : Mounted n d s.disk)
    (hbit : getModeBit s.info (s.disk rootino) modeXusr modeXoth ≠ 0) :
    ∃ jp t, (namei p userSPath).run s = .ok (some jp, t) ∧ jp ≠ 0 ∧ Walk s s [jp] t ∧
      t.disk = s.disk ∧ t.icache jp = ⟨n, 1, false, false⟩ ∧
      ∀ ip, ip ≠ jp → (t.icache ip).locked = false ∧ (ip ≠ 0 → (t.icache ip).ref = 0) := by
  obtain ⟨jp, hjp, hne⟩ := h.empty_some
  obtain ⟨i, hi, hin⟩ := hm.entry
  have href := h.rooted.ref
  -- the root directory is locked, and the new entry taken
  set u := (s.dup 0).lock 0 with hu
  have hu0 : u.icache 0 = ⟨rootino, (s.icache 0).ref + 1, true, true⟩ := by
    simp [hu, Fs.lock, Fs.dup, h.rooted.inum]
  have hune : ∀ ip, ip ≠ 0 → u.icache ip = s.icache ip := fun ip hip => by
    rw [hu, Fs.lock, Fs.icache_setSlot_of_ne hip, Fs.dup, Fs.icache_setSlot_of_ne hip]
  have hroot : u.inode 0 = s.disk rootino := by
    rw [Fs.inode, hu0]
    rfl
  have hcached : u.cached n = none := by
    rw [Fs.cached, List.find?_eq_none]
    intro ip _ hip
    rw [decide_eq_true_eq] at hip
    by_cases h0 : ip = 0
    · subst h0
      rw [hu0] at hip
      exact hm.ne_root hip.2.symm
    · rw [hune ip h0, h.idle ip h0] at hip
      exact absurd hip.1 (by decide)
  have hempty : u.empty = some jp := by
    rw [← hjp]
    refine congrArg (List.find? · _) (funext fun ip => decide_eq_decide.2 ?_)
    by_cases h0 : ip = 0
    · subst h0
      rw [hu0]
      dsimp only
      omega
    · rw [hune ip h0]
  set v := u.recycle jp n with hv
  have hv0 : v.icache 0 = ⟨rootino, (s.icache 0).ref + 1, true, true⟩ := by
    rw [hv, Fs.recycle, Fs.icache_setSlot_of_ne hne.symm, hu0]
  have hlast : ¬ (v.unlock 0).Last 0 := by
    intro hlast
    have := hlast.2.2
    rw [Fs.unlock, Fs.icache_setSlot_self, hv0] at this
    dsimp only at this
    omega
  have hrun : (namei p userSPath).run s = .ok (some jp, (v.unlock 0).put 0) := by
    refine bind_eq_ok.2 ⟨some (jp, []), _, bind_eq_ok.2 ⟨0, s.dup 0, ?_, bind_eq_ok.2
      ⟨(), u, ?_, ?_⟩⟩, rfl⟩
    · exact iget_eq_ok.2 (.inl ⟨h.rooted.cached, rfl⟩)
    · refine ilock_eq_ok.2 ⟨?_, ?_, fun _ => ?_, rfl⟩
      · rw [Fs.dup, Fs.icache_setSlot_self]
        dsimp only
        omega
      · rw [Fs.dup, Fs.icache_setSlot_self]
        exact h.unlocked 0
      · rw [Fs.inode_dup, Fs.inode, h.rooted.inum, hm.dir]
        exact fun h => by cases h
    · rw [get_bind, if_neg (by rw [hroot, hm.dir]; exact not_not.2 rfl),
        if_neg (by rw [hroot]; exact hbit), if_neg (by simp)]
      refine bind_eq_ok.2 ⟨some (jp, i), v, dirlookup_eq_ok.2 ⟨hroot ▸ hm.dir, ?_, ?_⟩,
        bind_eq_ok.2 ⟨(), _, iunlockput_eq_ok.2 ⟨?_, ?_, rfl⟩, rfl⟩⟩
      · rw [hroot]
        exact hi
      · rw [hroot, hin]
        exact iget_eq_ok.2 (.inr ⟨hcached, hempty, rfl⟩)
      · rw [hv0]
        dsimp only
        omega
      · rw [hv0]
  refine ⟨jp, _, hrun, hne, (Walk.init (.init s)).namei (h.rooted.homed p) _ _ hrun, ?_, ?_,
    fun ip hip => ?_⟩
  · rw [Fs.put, if_neg hlast]
    rfl
  · rw [Fs.put, if_neg hlast, Fs.icache_setSlot_of_ne hne, Fs.unlock,
      Fs.icache_setSlot_of_ne hne, hv, Fs.recycle, Fs.icache_setSlot_self, hune jp hne]
    dsimp only
    rw [h.unlocked jp]
  · rw [Fs.put, if_neg hlast]
    by_cases h0 : ip = 0
    · subst h0
      refine ⟨?_, fun h => absurd rfl h⟩
      rw [Fs.icache_setSlot_self, Fs.unlock, Fs.icache_setSlot_self]
    · rw [Fs.icache_setSlot_of_ne h0, Fs.unlock, Fs.icache_setSlot_of_ne h0, hv, Fs.recycle,
        Fs.icache_setSlot_of_ne hip, hune ip h0]
      exact ⟨h.unlocked ip, h.idle ip⟩

/-- The table is written to the file, when the blocks are enough. -/
theorem updateUserS_ok (hip : (s.inode ip).type = .file)
    (hused : (s.setInode ip ((s.inode ip).save s.info)).used ≤ nblocks) :
    (updateUserS ip).run s = .ok ((), s.setInode ip ((s.inode ip).save s.info)) := by
  refine bind_eq_ok.2 ⟨s, s, rfl, bind_eq_ok.2 ⟨s.info.bytes.length, _, ?_, rfl⟩⟩
  unfold writei
  rw [get_bind, if_neg (by rw [hip]; exact fun h => by cases h), if_neg, failIf_bind_eq_ok]
  · exact ⟨not_lt.2 hused, rfl⟩
  · rw [not_or, not_lt, not_lt, UserInfo.length_bytes]
    exact ⟨Nat.zero_le _, by decide⟩

variable (p typed) in
/-- The table is restored, without an error. -/
theorem Idle.restore (h : Idle s) (hm : Mounted n d s.disk) (hinit : s.info.initial = false)
    (hlen : privSize ≤ d.data.length) :
    ∃ t, (restoreUsers p typed).run s = .ok ((), t) ∧ t.info = s.info.myopen d.data := by
  have hbit : ∀ {u : Fs}, u.disk = s.disk → u.info = s.info →
      getModeBit u.info (u.disk rootino) modeXusr modeXoth ≠ 0 := by
    intro u _ hu
    rw [getModeBit, if_pos (by rw [hu, hinit])]
    decide
  obtain ⟨jp, t, hrun, hne, hw, hdisk, hslot, hother⟩ := h.namei_userS (p := p) hm (hbit rfl rfl)
  -- the entry of the cache is given back
  have hput : t.put jp = t.setSlot jp ⟨n, 0, false, false⟩ := by
    rw [Fs.put, if_neg (fun hlast => by have := hlast.1; rw [hslot] at this; cases this), hslot]
    rfl
  have hidle : Idle (t.put jp) := by
    refine ⟨h.rooted.of_grip hw.toGrip.put, fun ip => ?_, fun ip h0 => ?_⟩
    · rw [hput]
      by_cases hip : ip = jp
      · subst hip
        rw [Fs.icache_setSlot_self]
      · rw [Fs.icache_setSlot_of_ne hip]
        exact (hother ip hip).1
    · rw [hput]
      by_cases hip : ip = jp
      · subst hip
        rw [Fs.icache_setSlot_self]
      · rw [Fs.icache_setSlot_of_ne hip]
        exact (hother ip hip).2 h0
  have hdisk' : (t.put jp).disk = s.disk := by
    rw [hput]
    exact hdisk
  have hinfo : (t.put jp).info = s.info := Fs.info_put.trans hw.info
  have hm' : Mounted n d (t.put jp).disk := hdisk' ▸ hm
  obtain ⟨kp, u, hrun', -, hw', hdisk₂, hslot', -⟩ :=
    hidle.namei_userS (p := p) hm' (hbit hdisk' hinfo)
  have hinode : (u.lock kp).inode kp = d := by
    rw [Fs.inode_lock, Fs.inode, hslot', hdisk₂, hdisk', hm.inode]
  have hinfo' : (u.lock kp).info = s.info := hw'.info.trans hinfo
  set info := s.info.myopen d.data with hi
  set v : Fs := { u.lock kp with info := info } with hv
  have hslot₂ : v.icache kp = ⟨n, 1, true, true⟩ := by
    rw [hv]
    exact (Fs.icache_setSlot_self _).trans (by rw [hslot'])
  have hd : v.inode kp = d := hinode
  -- the file keeps its length
  have hused : (v.setInode kp (d.save info)).used ≤ nblocks := by
    have hle : (d.save info).blocks ≤ (s.disk n).blocks := by
      refine (blocks_congr ?_).le
      rw [Dinode.data_save, hm.inode, List.length_append, List.length_drop, UserInfo.length_bytes]
      omega
    refine le_trans (b := usedBlocks s.disk) ?_ hm.used
    have hv' : (v.setInode kp (d.save info)).disk = update s.disk n (d.save info) := by
      rw [Fs.setInode, hslot₂, ← hdisk', ← hdisk₂]
      rfl
    change usedBlocks (v.setInode kp (d.save info)).disk ≤ _
    rw [hv']
    exact usedBlocks_update_le hle
  have hsave := @updateUserS_ok v kp (by rw [hd]; exact hm.file) (by rwa [hd])
  refine ⟨((v.setInode kp ((v.inode kp).save v.info)).unlock kp).put kp,
    bind_eq_ok.2 ⟨jp, t, bind_eq_ok.2 ⟨some jp, t, hrun, rfl⟩, bind_eq_ok.2 ⟨(), t.put jp,
      iput_eq_ok.2 ⟨by rw [hslot], rfl⟩, bind_eq_ok.2 ⟨some kp, u, hrun', bind_eq_ok.2
        ⟨kp, u, rfl, bind_eq_ok.2 ⟨(), u.lock kp, ilock_eq_ok.2 ⟨?_, ?_, ?_, rfl⟩, ?_⟩⟩⟩⟩⟩, ?_⟩
  · rw [hslot']
  · rw [hslot']
  · intro _
    rw [← Fs.inode_lock, hinode, hm.file]
    exact fun h => by cases h
  · rw [get_bind, hinode, readi_userS hm.file, UserInfo.myopen_take, hinfo']
    refine bind_eq_ok.2 ⟨(), v, rfl, bind_eq_ok.2 ⟨(), _, hsave, iunlockput_eq_ok.2 ⟨?_, ?_, rfl⟩⟩⟩
    · rw [Fs.icache_setInode, hslot₂]
    · rw [Fs.icache_setInode, hslot₂]
  · rw [Fs.info_put]
    rfl

/-! ### Runs -/

/-- The file holds the table, in which somebody is. -/
structure Stored (n : ℕ) (s : Fs) : Prop where
  live : Live n s
  kept : (view n s none).Kept

theorem stored_myopen (hb : Bootable disk) (hs : step (boot disk) (p, .myopen typed) = some s) :
    ∃ n, Stored n s ∧ ∀ m, NamesUserS (disk rootino).data m →
      s.info = UserInfo.zero.myopen (disk m).data := by
  obtain ⟨r, hrun⟩ := step_eq_some.1 hs
  obtain ⟨n, d, hready, hsame⟩ := myopen_yields (rooted_boot disk) hb r s hrun
  have hview : view n s none = ((Session.boot d.data).call .myopen).2 := by
    rw [view, hready.info, hready.mounted.inode, Dinode.data_save]
    rfl
  refine ⟨n, ⟨hready.live, hview ▸ Session.kept_myopen d.data⟩, fun m hm => ?_⟩
  rw [hready.info, (hsame m hm).2]
  rfl

theorem Stored.step (h : Stored n s) (hc : c.OnUsers) (hs : step s (p, c) = some s') :
    Stored n s' := by
  obtain ⟨r, hrun⟩ := step_eq_some.1 hs
  obtain ⟨e, he⟩ := Option.isSome_iff_exists.1 hc
  obtain ⟨hlive, hfollows⟩ := h.live.follows he r s' hrun
  obtain ⟨a, ha⟩ := hfollows none
  have hne : e ≠ .myopen := by
    rintro rfl
    cases c <;> cases he
  have hkept := h.kept.call hne
  rw [ha] at hkept
  exact ⟨hlive, hkept.saved, hkept.alive⟩

/-- Bytes that are the same. -/
theorem UserInfo.bytes_eq {t t' : UserInfo} :
    t.bytes = t'.bytes ↔ ∀ a < privSize, t.priv a = t'.priv a := by
  simp [bytes]

theorem Session.Saved.take_eq {a : Session} (h : a.Saved) :
    a.userS.take privSize = a.info.bytes := by
  have hlen : (a.userS.take privSize).length = privSize := List.length_take_of_le h.1
  refine List.ext_getElem (hlen.trans (UserInfo.length_bytes _).symm) fun i hi hi' => ?_
  rw [hlen] at hi
  have hlt : i < a.userS.length := hi.trans_le h.1
  have hbyte : a.info.bytes[i] = a.info.priv i := by simp [UserInfo.bytes]
  rw [List.getElem_take, hbyte, ← h.2 i hi, List.getD_eq_getElem _ _ hlt]

/-- What is on the disk is the table after the next boot. -/
theorem Stored.restore (h : Stored n s) :
    (UserInfo.zero.myopen (s.disk n).data).bytes = s.info.bytes :=
  UserInfo.bytes_eq.2 h.kept.restart

/-- A call, with its result. -/
def answer (s : Fs) (e : Fin nproc × Call) : Except Halt (ℤ × Fs) := (e.2.op e.1).run s

/-- `login` or `logout`. -/
def Call.SignIn : Call → Prop
  | .login _ _ | .logout => True
  | _ => False

theorem answer_signIn (h : s.info.bytes = s'.info.bytes) (hc : c.SignIn) :
    ∃ r t t', answer s (p, c) = .ok (r, t) ∧ answer s' (p, c) = .ok (r, t') ∧
      t.info.bytes = t'.info.bytes := by
  cases c <;> cases hc
  case login id pwd =>
    obtain ⟨hr, hpriv⟩ := UserInfo.login_congr (UserInfo.bytes_eq.1 h) id.str pwd.str
    refine ⟨_, { s with info := (s.info.login id.str pwd.str).2 },
      { s' with info := (s'.info.login id.str pwd.str).2 }, rfl, ?_, UserInfo.bytes_eq.2 hpriv⟩
    rw [hr]
    rfl
  case logout => exact ⟨0, { s with info := s.info.logout.2 },
    { s' with info := s'.info.logout.2 }, rfl, rfl, h⟩

/-- From the same table, the same logins succeed. -/
theorem results_signIn {later : List (Fin nproc × Call)} (h : s.info.bytes = s'.info.bytes)
    (hl : ∀ e ∈ later, e.2.SignIn) :
    ∃ rs t t', Run.run answer s later = .ok (rs, t) ∧ Run.run answer s' later = .ok (rs, t') := by
  induction later generalizing s s' with
  | nil => exact ⟨[], s, s', rfl, rfl⟩
  | cons e later ih =>
    obtain ⟨r, u, u', hu, hu', hsame⟩ := answer_signIn (p := e.1) h (hl e List.mem_cons_self)
    obtain ⟨rs, t, t', ht, ht'⟩ := ih hsame fun e he => hl e (List.mem_cons_of_mem _ he)
    refine ⟨r :: rs, t, t', ?_, ?_⟩
    · rw [Run.run_cons_ok hu, ht]
      rfl
    · rw [Run.run_cons_ok hu', ht']
      rfl

/-- `root` adds a user, who logs in, and deletes another one, who is not there. -/
def bobAdded : List (Fin nproc × Call) :=
  let root := ⟨FileSystem.root, by decide⟩
  let pw := ⟨rootPassword, by decide⟩
  [(0, .login root pw), (0, .addUser bob bob), (0, .deleteUser filePath), (0, .login bob bob)]

theorem bootable_mkfs : Bootable (mkfs []) where
  userS := by
    rintro n ⟨i, hi, -⟩
    have hnone : findEntry userSName (mkfs [] rootino).data = none := by decide +kernel
    rw [hnone] at hi
    cases hi
  used := by decide +kernel

end FileSystem
