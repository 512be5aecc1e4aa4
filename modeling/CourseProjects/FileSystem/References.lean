import CourseProjects.FileSystem.Accounts
import CourseProjects.FileSystem.Boot
import CourseProjects.FileSystem.Creating
import CourseProjects.FileSystem.Rights

/-!
# The references to the inodes

The pointers to an entry of the cache of inodes are the open files and the current directories
that refer to it (`Fs.holders`), and `ref` should be their number. The ledger of the references
(`Balance`) has for each entry by how much `ref` is more than that, and its lock.

* `references_balance`: a call balances exactly when it is not a `deleteUser` of `root`, nor a
  `myopen` that has to make the file `userS` (`Paired`); after a run of such calls `ref` is the
  number of pointers.
-/

namespace FileSystem

open CString Function Tx

variable {s s' : Fs} {ip : Fin ninode} {p : Fin nproc} {path : CharPtr} {c : Call} {r : ℤ}

/-! ### Pointers -/

/-- One, if a file refers to an entry of the cache. -/
def filePointer (v : Option File) (ip : Fin ninode) : ℤ :=
  if v.map File.type = some (.inode ip) then 1 else 0

namespace Fs

/-- The open files that refer to an entry of the cache. -/
def files (s : Fs) (ip : Fin ninode) : ℤ := ∑ f, filePointer (s.ftable f) ip

/-- The current directories that refer to it. -/
def cwds (s : Fs) (ip : Fin ninode) : ℤ := ∑ p, if s.cwd p = some ip then 1 else 0

/-- The pointers to an entry. -/
def holders (s : Fs) (ip : Fin ninode) : ℤ := s.files ip + s.cwds ip

/-- For each entry, the references that no pointer accounts for, and the lock. -/
def books (s : Fs) (ip : Fin ninode) : ℤ × ℤ :=
  ((s.icache ip).ref - s.holders ip, (s.icache ip).locked.toInt)

end Fs

/-- The books of two states differ by an amount. -/
def Balance (d : Fin ninode → ℤ × ℤ) (s s' : Fs) : Prop := s'.books = s.books + d

/-- A reference to an entry. -/
def ref (ip : Fin ninode) : Fin ninode → ℤ × ℤ := Pi.single ip (1, 0)

/-- The lock of an entry. -/
def lock (ip : Fin ninode) : Fin ninode → ℤ × ℤ := Pi.single ip (0, 1)

theorem books_congr (hi : s'.icache = s.icache) (hf : s'.ftable = s.ftable)
    (hc : s'.cwd = s.cwd) : s'.books = s.books := by
  funext ip
  simp only [Fs.books, Fs.holders, Fs.files, Fs.cwds, hi, hf, hc]

/-- An entry of the cache changes. -/
theorem balance_setSlot {v : Slot} {d : Fin ninode → ℤ × ℤ}
    (h : d = Pi.single ip (v.ref - (s.icache ip).ref,
      v.locked.toInt - (s.icache ip).locked.toInt)) :
    Balance d s (s.setSlot ip v) := by
  subst h
  funext jp
  have hh : (s.setSlot ip v).holders jp = s.holders jp := rfl
  simp only [Fs.books, hh, Pi.add_apply]
  by_cases hj : jp = ip
  · rw [hj, Pi.single_eq_same, Prod.mk_add_mk, Fs.icache_setSlot_self]
    ext
    · dsimp only
      abel
    · dsimp only
      abel
  · rw [Pi.single_eq_of_ne hj, add_zero, Fs.icache_setSlot_of_ne hj]

theorem Balance.trans {d e : Fin ninode → ℤ × ℤ} {t : Fs} (h : Balance d s t)
    (h' : Balance e t s') : Balance (d + e) s s' := by
  rw [Balance, h', h, add_assoc]

theorem balance_zero (h : s'.books = s.books) : Balance 0 s s' := by rw [Balance, h, add_zero]

/-! ### What the functions on inodes cost -/

theorem neg_ref : -ref ip = Pi.single ip (-1, 0) := (Pi.single_neg ip _).symm

theorem neg_lock : -lock ip = Pi.single ip (0, -1) := (Pi.single_neg ip _).symm

theorem balance_dup : Balance (ref ip) s (s.dup ip) :=
  balance_setSlot (by simp [ref])

/-- An entry without a reference is taken. -/
theorem balance_recycle {n : ℕ} (h : (s.icache ip).ref = 0) : Balance (ref ip) s (s.recycle ip n) :=
  balance_setSlot (by simp [ref, h])

theorem balance_lock (h : (s.icache ip).locked = false) : Balance (lock ip) s (s.lock ip) :=
  balance_setSlot (by simp [lock, h])

theorem balance_unlock (h : (s.icache ip).locked = true) : Balance (-lock ip) s (s.unlock ip) :=
  balance_setSlot (by simp [neg_lock, h])

theorem balance_put : Balance (-ref ip) s (s.put ip) := by
  rw [Fs.put, neg_ref]
  split
  · have hd : Balance 0 s (s.setInode ip { s.inode ip with type := .free, data := [] }) :=
      balance_zero (books_congr rfl rfl rfl)
    rw [← zero_add (Pi.single ip _)]
    refine hd.trans (balance_setSlot ?_)
    simp only [Fs.icache_setInode, sub_self, sub_sub_cancel_left]
  · exact balance_setSlot (by simp)

theorem balance_iget {n : ℕ} (h : (iget n).run s = .ok (ip, s')) : Balance (ref ip) s s' := by
  rcases iget_eq_ok.1 h with ⟨-, rfl⟩ | ⟨-, he, rfl⟩
  · exact balance_dup
  · exact balance_recycle (by simpa using List.find?_some he)

/-- The references and the locks add up along the functions on inodes. -/
theorem balance_accounting : Accounting Balance ref lock where
  zero s := balance_zero rfl
  add h h' := h.trans h'
  iget n s ip s' h := balance_iget h
  idup ip s r s' h := by
    cases idup_eq_ok.1 h
    exact balance_dup
  ilock ip s u s' h := by
    obtain ⟨-, hl, -, heq⟩ := ilock_eq_ok.1 h
    cases heq
    exact balance_lock hl
  iunlock ip s u s' h := by
    obtain ⟨-, hl, heq⟩ := iunlock_eq_ok.1 h
    cases heq
    exact balance_unlock hl
  iput ip s u s' h := by
    obtain ⟨-, heq⟩ := iput_eq_ok.1 h
    cases heq
    exact balance_put
  ialloc type s ip s' h := by
    obtain ⟨n, -, h⟩ := ialloc_eq_ok.1 h
    have hb : Balance 0 s (s.birth n type) := balance_zero (books_congr rfl rfl rfl)
    simpa using hb.trans (balance_iget h)
  writei ip src off s r s' h := by
    rcases writei_cases h with ⟨-, rfl⟩ | ⟨-, -, -, -, rfl⟩
    · exact balance_zero rfl
    · exact balance_zero (books_congr rfl rfl rfl)
  iupdate ip f hf s u s' h := by
    cases iupdate_eq_ok.1 h
    exact balance_zero (books_congr rfl rfl rfl)

/-- Whatever is changed in an inode. -/
theorem balance_iupdate {f : Dinode → Dinode} : Costs Balance (iupdate ip f) fun _ => 0 := by
  intro s u s' h
  cases iupdate_eq_ok.1 h
  exact balance_zero (books_congr rfl rfl rfl)

theorem balance_setInfo {t : UserInfo} : Costs Balance (setInfo t) fun _ => 0 := by
  intro s u s' h
  cases modify_eq_ok.1 h
  exact balance_zero (books_congr rfl rfl rfl)

/-! ### Files and current directories -/

/-- The sum over a function that is changed at one place. -/
theorem sum_update {ι α : Type} [Fintype ι] [DecidableEq ι] (g : ι → α) (i : ι) (v : α)
    (h : α → ℤ) :
    ∑ j, h (update g i v j) = ∑ j, h (g j) + h v - h (g i) := by
  have hup : ∀ j, h (update g i v j) = update (h ∘ g) i (h v) j := fun j =>
    congrFun (comp_update h g i v) j
  rw [Finset.sum_congr rfl fun j _ => hup j, Finset.sum_update_of_mem (Finset.mem_univ i),
    Finset.sum_eq_add_sum_sdiff_singleton_of_mem (Finset.mem_univ i) fun j => h (g j)]
  simp only [comp_apply]
  abel

/-- The entry that a file refers to. -/
def fileRef (v : Option File) : Fin ninode → ℤ × ℤ :=
  match v.map File.type with
  | some (.inode ip) => ref ip
  | _ => 0

/-- The entry that a current directory refers to. -/
def cwdRef (o : Option (Fin ninode)) : Fin ninode → ℤ × ℤ := o.elim 0 ref

theorem ref_apply (jp : Fin ninode) : ref ip jp = (if ip = jp then 1 else 0, 0) := by
  rw [ref, Pi.single_apply]
  split
  · rw [if_pos (by symm; assumption)]
  · rw [if_neg fun h => ‹¬ jp = ip› h.symm]
    rfl

theorem fileRef_apply (v : Option File) (jp : Fin ninode) :
    fileRef v jp = (filePointer v jp, 0) := by
  rw [fileRef, filePointer]
  cases v.map File.type with
  | none => rfl
  | some type =>
    cases type with
    | none => rfl
    | pipe => rfl
    | inode ip => simp [ref_apply]

theorem cwdRef_apply (o : Option (Fin ninode)) (jp : Fin ninode) :
    cwdRef o jp = (if o = some jp then 1 else 0, 0) := by
  cases o with
  | none => rfl
  | some ip =>
    rw [cwdRef, Option.elim, ref_apply]
    simp

/-- A file structure changes. -/
theorem balance_setFile {f : Fin nfile} {v : Option File} :
    Balance (fileRef (s.ftable f) - fileRef v) s (s.setFile f v) := by
  funext jp
  have hsum := sum_update s.ftable f v fun o => filePointer o jp
  simp only [Fs.books, Fs.holders, Fs.files, Fs.cwds, Fs.setFile, Pi.add_apply, Pi.sub_apply,
    fileRef_apply, Prod.mk_sub_mk, Prod.mk_add_mk, hsum]
  ext
  · dsimp only
    abel
  · dsimp only
    abel

/-- A process gets another current directory. -/
theorem balance_setCwd {o : Option (Fin ninode)} :
    Balance (cwdRef (s.cwd p) - cwdRef o) s { s with cwd := update s.cwd p o } := by
  funext jp
  have hsum := sum_update s.cwd p o fun o => if o = some jp then (1 : ℤ) else 0
  simp only [Fs.books, Fs.holders, Fs.files, Fs.cwds, Pi.add_apply, Pi.sub_apply, cwdRef_apply,
    Prod.mk_sub_mk, Prod.mk_add_mk, hsum]
  ext
  · dsimp only
    abel
  · dsimp only
    abel

/-- Closing a file gives back its reference. -/
theorem balance_fileclose {f : Fin nfile} : Costs Balance (fileclose f) fun _ => 0 := by
  intro s u s' h
  unfold fileclose at h
  rw [get_bind, ofOption_bind_eq_ok] at h
  obtain ⟨v, hv, h⟩ := h
  rw [failIf_bind_eq_ok] at h
  obtain ⟨-, h⟩ := h
  split at h
  · cases set_eq_ok.1 h
    have hs := balance_setFile (s := s) (f := f) (v := some { v with ref := v.ref - 1 })
    rwa [hv, show fileRef (some v) = fileRef (some { v with ref := v.ref - 1 }) from rfl,
      sub_self] at hs
  · rw [set_bind] at h
    have hs := balance_setFile (s := s) (f := f) (v := none)
    rw [hv, show fileRef none = 0 from rfl, sub_zero, fileRef, Option.map_some] at hs
    split at h
    · rename_i ip htype
      rw [htype] at hs
      simpa using hs.trans (balance_accounting.iput ip _ _ _ h)
    · rename_i htype
      rw [htype] at hs
      cases pure_eq_ok.1 h
      exact hs
    · rename_i htype
      rw [htype] at hs
      cases pure_eq_ok.1 h
      exact hs

theorem balance_close {fd : ℤ} : Costs Balance (sysClose p fd) 0 := by
  intro s r s' h
  unfold sysClose at h
  rw [get_bind] at h
  split at h
  · cases pure_eq_ok.1 h
    exact balance_zero rfl
  · rename_i fd f _
    have hs : Balance 0 s (s.setOfile p fd none) := balance_zero (books_congr rfl rfl rfl)
    rw [set_bind] at h
    obtain ⟨_, t, hc, h⟩ := bind_eq_ok.1 h
    cases pure_eq_ok.1 h
    simpa using hs.trans (balance_fileclose _ _ _ hc)

theorem balance_dupFd {fd : ℤ} : Costs Balance (sysDup p fd) 0 := by
  intro s r s' h
  unfold sysDup at h
  rw [get_bind] at h
  split at h
  · cases pure_eq_ok.1 h
    exact balance_zero rfl
  · rename_i f _
    split at h
    · cases pure_eq_ok.1 h
      exact balance_zero rfl
    · rename_i fd _
      have hs : Balance 0 s (s.setOfile p fd (some f)) := balance_zero (books_congr rfl rfl rfl)
      rw [set_bind] at h
      obtain ⟨_, t, hd, h⟩ := bind_eq_ok.1 h
      cases pure_eq_ok.1 h
      unfold filedup at hd
      rw [get_bind, ofOption_bind_eq_ok] at hd
      obtain ⟨v, hv, hd⟩ := hd
      rw [failIf_bind_eq_ok] at hd
      cases set_eq_ok.1 hd.2
      have hf := balance_setFile (s := s.setOfile p fd (some f)) (f := f)
        (v := some { v with ref := v.ref + 1 })
      rw [hv, show fileRef (some v) = fileRef (some { v with ref := v.ref + 1 }) from rfl,
        sub_self] at hf
      simpa using hs.trans hf

/-! ### Calls that balance -/

/-- The inode that `open` goes on with. -/
theorem balance_openInode {omode : UInt32} :
    Costs Balance (openInode p path omode) fun r => r.elim 0 fun ip => ref ip + lock ip := by
  have hR := balance_accounting
  by_cases hc : omode &&& oCreate = 0
  · exact hR.openInode p path hc
  · unfold openInode
    rw [if_pos hc]
    refine hR.bind (hR.create_costs p path .file 0 0) fun r => ?_
    cases r with
    | none => exact hR.pure (sub_self _)
    | some ip => exact hR.seq hR.get fun s => hR.seq balance_iupdate fun _ => hR.pure (sub_self _)

theorem balance_open {omode : UInt32} : Costs Balance (sysOpen p path omode) 0 := by
  have hR := balance_accounting
  intro s r s' h
  rcases sysOpen_cases h with
    ⟨-, ho | ⟨ip, t, ho, hp⟩⟩ | ⟨ip, t, f, fd, ho, -, -, hu, hf, -, -, rfl⟩
  · exact balance_openInode s _ s' ho
  · have hs := (balance_openInode s _ t ho).trans (hR.iunlockput ip t _ s' hp)
    simpa using hs
  · -- the reference that `open` holds goes to the file
    have hs := (balance_openInode s _ t ho).trans (hR.iunlock ip t _ _ hu)
    have hfile := balance_setFile (s := t.unlock ip) (f := f) (v := some (openFile ip omode))
    have hnone : t.ftable f = none := by simpa using List.find?_some hf
    rw [show (t.unlock ip).ftable f = none from hnone] at hfile
    have hfd : Balance 0 ((t.unlock ip).setFile f (some (openFile ip omode)))
        (((t.unlock ip).setFile f (some (openFile ip omode))).setOfile p fd (some f)) :=
      balance_zero (books_congr rfl rfl rfl)
    simpa [fileRef, openFile] using (hs.trans hfile).trans hfd

theorem balance_mkdir : Costs Balance (sysMkdir p path) 0 := by
  have hR := balance_accounting
  refine hR.bind (hR.create_costs p path .dir 0 0) fun r => ?_
  cases r with
  | none => exact hR.pure (by simp)
  | some ip =>
    refine hR.seq hR.get fun s => hR.seq balance_iupdate fun _ => hR.release ?_
    simp only [Option.elim, Pi.zero_apply, zero_sub]

theorem balance_mknod {major minor : ℤ} : Costs Balance (sysMknod p path major minor) 0 := by
  have hR := balance_accounting
  refine hR.bind (hR.create_costs p path .dev major minor) fun r => ?_
  cases r with
  | none => exact hR.pure (by simp)
  | some ip =>
    refine hR.seq balance_iupdate fun _ => hR.release ?_
    simp only [Option.elim, Pi.zero_apply, zero_sub]

theorem balance_chmod {mode : UInt32} : Costs Balance (sysChmod p path mode) 0 := by
  have hR := balance_accounting
  refine hR.bind (hR.namei_costs p path) fun r => ?_
  cases r with
  | none => exact hR.pure (by simp)
  | some ip =>
    refine hR.bind (hR.ilock ip) fun _ => hR.seq hR.get fun s => ?_
    split
    · exact hR.release (by simp only [Option.elim, Pi.zero_apply]; abel)
    · refine hR.seq balance_iupdate fun _ => hR.release ?_
      simp only [Option.elim, Pi.zero_apply]
      abel

/-- The current directory of the process is given back, and the new one is kept. -/
theorem balance_chdir : Costs Balance (sysChdir p path) 0 := by
  have hR := balance_accounting
  refine hR.bind (hR.namei_costs p path) fun r => ?_
  cases r with
  | none => exact hR.pure (by simp)
  | some ip =>
    refine hR.bind (hR.ilock ip) fun _ => ?_
    have hfail : Costs Balance (iunlockput ip >>= fun _ => pure (-1))
        fun _ : ℤ => 0 - ref ip - lock ip := hR.release (by abel)
    intro t r s' h
    rw [get_bind] at h
    split at h
    · exact hfail t r s' h
    · split at h
      · exact hfail t r s' h
      · obtain ⟨_, u, hu, h⟩ := bind_eq_ok.1 h
        obtain ⟨cwd, hcwd, h⟩ := ofOption_bind_eq_ok.1 h
        obtain ⟨_, v, hp, h⟩ := bind_eq_ok.1 h
        obtain ⟨_, w, hm, h⟩ := bind_eq_ok.1 h
        cases modify_eq_ok.1 hm
        cases pure_eq_ok.1 h
        have hv : v.cwd p = some cwd := by
          obtain ⟨-, -, heq⟩ := iunlock_eq_ok.1 hu
          cases heq
          obtain ⟨-, heq⟩ := iput_eq_ok.1 hp
          cases heq
          rw [Fs.cwd_put]
          exact hcwd
        have hs := ((hR.iunlock ip t _ u hu).trans (hR.iput cwd u _ v hp)).trans
          (balance_setCwd (s := v) (p := p) (o := some ip))
        rw [hv] at hs
        have hcost : -lock ip + -ref cwd + (cwdRef (some cwd) - cwdRef (some ip)) =
            0 - ref ip - lock ip := by
          simp only [cwdRef, Option.elim]
          abel
        rw [hcost] at hs
        exact hs

theorem balance_login {id pwd : CharPtr} : Costs Balance (sysLogin id pwd) 0 := by
  have hR := balance_accounting
  exact hR.seq hR.get fun _ => hR.seq balance_setInfo fun _ => hR.pure rfl

theorem balance_logout : Costs Balance sysLogout 0 := by
  have hR := balance_accounting
  exact hR.seq hR.get fun _ => hR.seq balance_setInfo fun _ => hR.pure rfl

/-! ### The calls on the users -/

theorem balance_makeHome {username : CharPtr} : Costs Balance (makeHome p username) fun _ => 0 := by
  have hR := balance_accounting
  refine hR.bind (hR.namei_costs p username) fun r => ?_
  cases r with
  | some ip => exact (hR.iput ip).congr fun _ => by simp
  | none =>
    refine hR.bind (hR.create_costs p username .dir 0 0) fun r => ?_
    intro s u s' h
    obtain ⟨ip, hr, h⟩ := ofOption_bind_eq_ok.1 h
    subst hr
    have hrest : Costs Balance (setOwner ip username.str
        (modeRusr ||| modeWusr ||| modeXusr ||| modeRoth ||| modeXoth) >>= fun _ => iunlockput ip)
        fun _ => -(ref ip + lock ip) := hR.seq balance_iupdate fun _ => hR.iunlockput ip
    simpa using hrest s u s' h

theorem balance_addUser {username password : CharPtr} :
    Costs Balance (sysAddUser p username password) 0 := by
  have hR := balance_accounting
  refine hR.seq hR.get fun s => ?_
  split
  · exact hR.pure rfl
  · refine hR.bind (hR.namei_costs p userSPath) fun r => ?_
    cases r with
    | none => exact hR.pure (by simp)
    | some userS =>
      refine hR.bind (hR.ilock userS) fun _ => hR.bind (hR.iunlock userS) fun _ => ?_
      refine hR.bind (hR.ilock userS) fun _ => hR.seq hR.get fun t => ?_
      dsimp only
      split
      · exact hR.release (by simp only [Option.elim, Pi.zero_apply]; abel)
      · refine hR.seq balance_setInfo fun _ => hR.seq (hR.updateUserS userS) fun _ => ?_
        refine hR.bind (hR.iunlockput userS) fun _ => hR.seq balance_makeHome fun _ => hR.pure ?_
        simp only [Option.elim, Pi.zero_apply]
        abel

/-- `deleteUser` of `root` keeps a reference to the file `userS`. -/
theorem balance_deleteUser {username : CharPtr}
    (h : (sysDeleteUser p username).run s = .ok (r, s')) :
    if s.info.IsRoot then ∃ ip, Balance (ref ip) s s' else Balance 0 s s' := by
  have hR := balance_accounting
  unfold sysDeleteUser at h
  rw [get_bind] at h
  split at h
  · rename_i hroot
    rw [if_neg hroot]
    cases pure_eq_ok.1 h
    exact balance_zero rfl
  · rename_i hroot
    rw [if_pos (not_not.1 hroot)]
    obtain ⟨o, t, hn, h⟩ := bind_eq_ok.1 h
    obtain ⟨userS, ho, h⟩ := ofOption_bind_eq_ok.1 h
    have hcost := hR.namei_costs p userSPath s _ t hn
    rw [ho] at hcost
    refine ⟨userS, ?_⟩
    have hrest : Costs Balance (ilock userS >>= fun _ => get >>= fun s : Fs =>
        if (s.info.deleteUser username.str).1 ≠ 0 then iunlock userS >>= fun _ => pure (-1)
        else setInfo (s.info.deleteUser username.str).2 >>= fun _ => updateUserS userS >>= fun _ =>
          iunlock userS >>= fun _ => (pure 0 : Op ℤ)) 0 := by
      refine hR.bind (hR.ilock userS) fun _ => hR.seq hR.get fun t => ?_
      have hunlock : ∀ a : ℤ, Costs Balance (iunlock userS >>= fun _ => pure a)
          fun _ : ℤ => 0 - lock userS := fun a =>
        hR.bind (hR.iunlock userS) fun _ => hR.pure (by abel)
      split
      · exact hunlock (-1)
      · exact hR.seq balance_setInfo fun _ => hR.seq (hR.updateUserS userS) fun _ => hunlock 0
    simpa using hcost.trans (hrest t r s' h)

/-! ### The directory tmp -/

/-- The path `tmp` starts in the current directory and has one element. -/
theorem nameiparent_tmp {dp : Fin ninode} {name : List UInt8}
    (h : (nameiparent p tmpPath).run s = .ok (some (dp, name), s')) :
    s.cwd p = some dp ∧ name = tmpPath.bytes ∧ s' = ((s.dup dp).lock dp).unlock dp ∧
      (s.inode dp).type = .dir := by
  obtain ⟨ip, t, hs, h⟩ := bind_eq_ok.1 h
  unfold start at hs
  rw [if_neg (by decide), get_bind] at hs
  obtain ⟨cwd, hcwd, hs⟩ := ofOption_bind_eq_ok.1 hs
  cases idup_eq_ok.1 hs
  obtain ⟨_, u, hl, h⟩ := bind_eq_ok.1 h
  obtain ⟨-, -, -, heq⟩ := ilock_eq_ok.1 hl
  cases heq
  rw [get_bind] at h
  split at h
  · obtain ⟨_, _, -, h⟩ := bind_eq_ok.1 h
    cases pure_eq_ok.1 h
  · rename_i hdir
    split at h
    · obtain ⟨_, _, -, h⟩ := bind_eq_ok.1 h
      cases pure_eq_ok.1 h
    · rw [if_pos ⟨rfl, by rfl⟩] at h
      obtain ⟨_, v, hu, h⟩ := bind_eq_ok.1 h
      obtain ⟨-, -, heq⟩ := iunlock_eq_ok.1 hu
      cases heq
      cases pure_eq_ok.1 h
      rw [Fs.inode_lock, Fs.inode_dup] at hdir
      exact ⟨hcwd, rfl, rfl, not_not.1 hdir⟩

/-- `removeTmp` balances, or it finds a directory that is not empty. -/
theorem removeTmp_cases (h : (removeTmp p).run s = .ok (r, s')) :
    Balance 0 s s' ∨ ∃ dp name t ip i t', (nameiparent p tmpPath).run s = .ok (some (dp, name), t) ∧
      (dirlookup dp name).run (t.lock dp) = .ok (some (ip, i), t') ∧
      isdirempty (t'.inode ip) = false := by
  have hR := balance_accounting
  obtain ⟨o, t, hn, h⟩ := bind_eq_ok.1 h
  have hs := hR.nameiparent p tmpPath s _ t hn
  rcases o with _ | ⟨dp, name⟩
  · cases pure_eq_ok.1 h
    exact .inl hs
  · obtain ⟨_, u, hl, h⟩ := bind_eq_ok.1 h
    have hs := hs.trans (hR.ilock dp t _ u hl)
    obtain ⟨-, -, -, heq⟩ := ilock_eq_ok.1 hl
    cases heq
    obtain ⟨o, v, hd, h⟩ := bind_eq_ok.1 h
    have hs := hs.trans (hR.dirlookup dp name _ _ v hd)
    rcases o with _ | ⟨ip, i⟩
    · have hrel : Costs Balance (iunlockput dp >>= fun _ => pure (-1))
          fun _ : ℤ => -(ref dp + lock dp) := hR.release rfl
      have hs := hs.trans (hrel v r s' h)
      simp only [refOf, Option.elim, add_zero, add_neg_cancel] at hs
      exact .inl hs
    · obtain ⟨_, w, hl, h⟩ := bind_eq_ok.1 h
      have hs := hs.trans (hR.ilock ip v _ w hl)
      obtain ⟨-, -, -, heq⟩ := ilock_eq_ok.1 hl
      cases heq
      obtain ⟨d, _, hi, h⟩ := bind_eq_ok.1 h
      cases inode_eq_ok.1 hi
      rw [failIf_bind_eq_ok, failIf_bind_eq_ok, Fs.inode_lock] at h
      obtain ⟨-, -, h⟩ := h
      split at h
      · rename_i hempty
        exact .inr ⟨dp, name, t, ip, i, v, hn, hd, hempty.2⟩
      · have hrest : Costs Balance (writei dp zeroDirent (16 * i) >>= fun r =>
            failIf (r ≠ 16) (.panic "unlink writei") >>= fun _ =>
            dropDotdot (v.inode ip).type dp >>= fun _ =>
            iupdate ip (fun d => { d with nlink := short (d.nlink - 1) }) >>= fun _ =>
            iunlockput dp >>= fun _ =>
            iupdate ip (fun d => { d with nlink := short (d.nlink - 1) }) >>= fun _ =>
            iunlockput ip >>= fun _ => pure 0)
            fun _ : ℤ => -(ref dp + lock dp) - (ref ip + lock ip) := by
          refine hR.seq (hR.writei _ _ _) fun r => hR.seq hR.failIf fun _ => ?_
          refine hR.seq (hR.dropDotdot _ dp) fun _ => hR.seq balance_iupdate fun _ => ?_
          refine hR.bind (hR.iunlockput dp) fun _ => hR.seq balance_iupdate fun _ => ?_
          exact hR.release (by abel)
        have hs := hs.trans (hrest _ r s' h)
        have hsum : refOf ref (some (dp, name)) + lock dp + refOf ref (some (ip, i)) + lock ip +
            (-(ref dp + lock dp) - (ref ip + lock ip)) = 0 := by
          simp only [refOf, Option.elim]
          abel
        rw [hsum] at hs
        exact .inl hs

/-- The name of a new directory leads to it. -/
theorem inode_named {disk : ℕ → Dinode} {kp jp : Fin ninode} {m n i : ℕ} {name : List UInt8}
    {v : Fs} (hn : n ≠ 0) (hn' : n < 2 ^ 16) (hname : IsName name)
    (hsize : (disk m).size % 16 = 0) (hnone : findEntry name (disk m).data = none)
    (hkp : (s.icache kp).inum = m) (hdisk : s.disk = newDisk disk .dir 0 0 m n name) (hne : n ≠ m)
    (hd : (dirlookup kp name).run ((((s.dup kp).lock kp).unlock kp).lock kp) =
      .ok (some (jp, i), v)) : v.inode jp = newInode .dir 0 0 n m := by
  obtain ⟨-, hfind, hget⟩ := dirlookup_eq_ok.1 hd
  have hparent : ((((s.dup kp).lock kp).unlock kp).lock kp).inode kp =
      parentInode (disk m) .dir name n := by
    rw [Fs.inode_lock, Fs.inode_unlock, Fs.inode_lock, Fs.inode_dup, Fs.inode, hkp, hdisk, newDisk,
      update_of_ne hne.symm, update_self]
  rw [hparent] at hfind hget
  change findEntry name (linkData (disk m).data name n) = some i at hfind
  rw [findEntry_linkData hsize hn' hn hname hnone] at hfind
  cases hfind
  change (iget (entryAt (linkData (disk m).data name n) _).inum).run _ = _ at hget
  rw [(entryAt_linkData_self hsize hn' hname).2] at hget
  rw [Fs.inode, iget_inum hget, iget_disk hget]
  change s.disk n = _
  rw [hdisk, newDisk, update_self]

/-- After `create` has made `tmp`, the name leads to it. -/
theorem removeTmp_new {ip : Fin ninode} {t : Fs}
    (hc : (create p tmpPath .dir 0 0).run s = .ok (some ip, t))
    (hp : (iunlockput ip).run t = .ok ((), s')) {dp jp : Fin ninode} {name : List UInt8} {i : ℕ}
    {u v : Fs} (hn : (nameiparent p tmpPath).run s' = .ok (some (dp, name), u))
    (hd : (dirlookup dp name).run (u.lock dp) = .ok (some (jp, i), v)) :
    (v.inode jp).type = .dir ∧ isdirempty (v.inode jp) = true := by
  have htmp : IsName tmpPath.bytes := ⟨by decide, by decide, by decide⟩
  rcases create_some hc with ⟨kp, name', u₁, u₂, hn₁, hl₁, hd₁, hc⟩ | ⟨htype, -⟩
  · obtain ⟨hcwd₁, rfl, rfl, -⟩ := nameiparent_tmp hn₁
    obtain ⟨hdir₁, hnone, hsize, heq⟩ := dirlookup_eq_ok.1 hd₁
    obtain ⟨href, -⟩ := ilock_eq_ok.1 hl₁
    rw [heq] at hc
    obtain ⟨n, t₀, hfree, higet, hne, -, hdisk, -, rfl⟩ :=
      createNew_disk hc hdir₁ (by simpa [Fs.lock] using href)
    obtain ⟨hn1, hn200, -⟩ := freeInode_some hfree
    obtain ⟨-, -, heq⟩ := iunlockput_eq_ok.1 hp
    cases heq
    obtain ⟨hcwd, rfl, rfl, hdir⟩ := nameiparent_tmp hn
    -- the current directory is the same
    have hkp : kp = dp := by
      rw [Fs.cwd_put] at hcwd
      change (Fs.put _ kp).cwd p = _ at hcwd
      rw [Fs.cwd_put] at hcwd
      change (t₀.entered .dir 0 0 kp ip tmpPath.bytes).cwd p = _ at hcwd
      rw [Fs.cwd_entered, iget_cwd higet] at hcwd
      exact Option.some.inj (hcwd₁.symm.trans hcwd)
    subst hkp
    set e := t₀.entered .dir 0 0 kp ip tmpPath.bytes with he
    have hip : (e.icache ip).inum = n := (Fs.inum_entered ip).trans (iget_inum higet)
    have hkeep := iget_of_ref higet (show 1 ≤ Slot.ref (Fs.icache (Fs.lock _ kp) kp) by
      simpa [Fs.lock] using href)
    have hdp : (e.icache kp).inum = (t₀.icache kp).inum := Fs.inum_entered kp
    rw [hkeep, Fs.birth, Fs.icache_setDisk] at hdp
    have hinum : (((((e.unlock kp).put kp).unlock ip).put ip).icache kp).inum =
        (e.icache kp).inum := by
      rw [Fs.inum_put, Fs.inum_unlock, Fs.inum_put, Fs.inum_unlock]
    have hnew := disk_created hdisk hip hdp hne (by
      rw [← hdp, ← hinum]
      intro h
      cases hdir.symm.trans h)
    have hn16 : n < 2 ^ 16 := hn200.trans (by decide)
    rw [inode_named (by omega) hn16 htmp hsize hnone (hdp ▸ hinum) hnew hne hd]
    exact ⟨rfl, isdirempty_new (by omega) hn16⟩
  · cases htype

/-! ### sys_myopen -/

/-- The root directory has an entry `userS`, and the user may search it. -/
def Fs.HasUserS (s : Fs) : Prop :=
  (s.disk rootino).type = .dir ∧ getModeBit s.info (s.disk rootino) modeXusr modeXoth ≠ 0 ∧
    (findEntry (userSPath.bytes.drop 1) (s.disk rootino).data).isSome = true

instance (s : Fs) : Decidable s.HasUserS := inferInstanceAs (Decidable (_ ∧ _))

/-- The path `/userS` has one element, which is looked up in the root directory. -/
theorem namei_userS {o : Option (Fin ninode)} (h : (namei p userSPath).run s = .ok (o, s')) :
    o.isSome = true ↔ s.HasUserS := by
  obtain ⟨q, t, h, hq⟩ := bind_eq_ok.1 h
  cases pure_eq_ok.1 hq
  obtain ⟨ip, t, hs, h⟩ := bind_eq_ok.1 h
  unfold start at hs
  rw [if_pos (by decide)] at hs
  obtain ⟨_, u, hl, h⟩ := bind_eq_ok.1 h
  obtain ⟨-, -, -, heq⟩ := ilock_eq_ok.1 hl
  cases heq
  have hroot : (t.lock ip).inode ip = s.disk rootino := by
    rw [Fs.inode_lock, Fs.inode, iget_inum hs, iget_disk hs]
  have hinfo : t.info = s.info := iget_info hs
  rw [get_bind, hroot, show (t.lock ip).info = s.info from hinfo] at h
  unfold Fs.HasUserS
  split at h
  · rename_i htype
    obtain ⟨_, _, -, h⟩ := bind_eq_ok.1 h
    cases pure_eq_ok.1 h
    exact iff_of_false Bool.false_ne_true fun h => htype h.1
  · rename_i htype
    split at h
    · rename_i hx
      obtain ⟨_, _, -, h⟩ := bind_eq_ok.1 h
      cases pure_eq_ok.1 h
      exact iff_of_false Bool.false_ne_true fun h => h.2.1 hx
    · rename_i hx
      rw [if_neg (by simp)] at h
      obtain ⟨o, v, hd, h⟩ := bind_eq_ok.1 h
      have hfind := (dirlookup_eq_ok.1 hd).2
      rw [hroot] at hfind
      rcases o with _ | ⟨next, i⟩
      · obtain ⟨_, _, -, h⟩ := bind_eq_ok.1 h
        cases pure_eq_ok.1 h
        refine iff_of_false Bool.false_ne_true fun h => ?_
        exact Option.isSome_iff_ne_none.1 h.2.2 hfind.1
      · obtain ⟨_, _, -, h⟩ := bind_eq_ok.1 h
        cases pure_eq_ok.1 h
        exact iff_of_true rfl ⟨not_not.1 htype, hx, Option.isSome_iff_exists.2 ⟨i, hfind.1⟩⟩

/-- Making the file `userS` costs nothing, though the reference to it is given back twice. -/
theorem balance_makeUserS {userS : Fin ninode} (h : (makeUserS p).run s = .ok (userS, s')) :
    (s.HasUserS ∧ Balance (FileSystem.ref userS) s s') ∨ (¬ s.HasUserS ∧ Balance 0 s s') := by
  have hR := balance_accounting
  obtain ⟨o, t, hn, h⟩ := bind_eq_ok.1 h
  have hcost := hR.namei_costs p userSPath s _ t hn
  have hiff := namei_userS hn
  cases o with
  | some ip =>
    cases pure_eq_ok.1 h
    exact .inl ⟨hiff.1 rfl, hcost⟩
  | none =>
    refine .inr ⟨fun h => Bool.false_ne_true (hiff.2 h), ?_⟩
    obtain ⟨o, u, hc, h⟩ := bind_eq_ok.1 h
    obtain ⟨ip, ho, h⟩ := ofOption_bind_eq_ok.1 h
    have hcreate := hR.create_costs p userSPath .file 0 0 t _ u hc
    rw [ho] at hcreate
    have hrest : Costs Balance (setOwner ip (ofList root) (modeRusr ||| modeWusr) >>= fun _ =>
        iunlockput ip >>= fun _ => (pure ip : Op (Fin ninode)))
      fun _ => -(FileSystem.ref ip + lock ip) :=
      hR.seq balance_iupdate fun _ => hR.release rfl
    have hs := (hcost.trans hcreate).trans (hrest u _ s' h)
    simpa using hs

theorem balance_loadUsers {typed : List UInt8} : Costs Balance (loadUsers p typed) fun _ => 0 := by
  have hR := balance_accounting
  refine hR.bind (hR.namei_costs p userSPath) fun o => ?_
  intro s u s' h
  obtain ⟨userS, ho, h⟩ := ofOption_bind_eq_ok.1 h
  subst ho
  have hrest : Costs Balance (ilock userS >>= fun _ => get >>= fun s : Fs =>
      setInfo (s.info.myopen ((readi (s.inode userS) typed 0 privSize).getD [])) >>= fun _ =>
        updateUserS userS >>= fun _ => iunlockput userS) fun _ => -FileSystem.ref userS := by
    refine hR.bind (hR.ilock userS) fun _ => hR.seq hR.get fun t =>
      hR.seq balance_setInfo fun _ => ?_
    exact hR.seq (hR.updateUserS userS) fun _ => (hR.iunlockput userS).congr fun _ => by abel
  simpa using hrest s u s' h

/-- `myopen` gives back one reference too many when it makes the file `userS`. -/
theorem balance_myopen {typed : List UInt8} (h : (sysMyopen p typed).run s = .ok (r, s')) :
    if s.HasUserS then Balance 0 s s' else ∃ ip, Balance (-FileSystem.ref ip) s s' := by
  have hR := balance_accounting
  obtain ⟨userS, t, hm, h⟩ := bind_eq_ok.1 h
  obtain ⟨_, u, hp, h⟩ := bind_eq_ok.1 h
  obtain ⟨_, v, hl, h⟩ := bind_eq_ok.1 h
  obtain ⟨o, w, hc, h⟩ := bind_eq_ok.1 h
  obtain ⟨ip, ho, h⟩ := ofOption_bind_eq_ok.1 h
  obtain ⟨_, x, hu, h⟩ := bind_eq_ok.1 h
  have hremove : Balance 0 x s' := by
    rcases removeTmp_cases h with h | ⟨dp, name, y, jp, i, z, hn, hd, hfull⟩
    · exact h
    · rw [ho] at hc
      exact absurd (removeTmp_new hc hu hn hd).2 (by rw [hfull]; exact Bool.false_ne_true)
  have hcreate := hR.create_costs p tmpPath .dir 0 0 v _ w hc
  rw [ho] at hcreate
  have hrest := ((((hR.iput userS t _ u hp).trans (balance_loadUsers u _ v hl)).trans
    hcreate).trans (hR.iunlockput ip w _ x hu)).trans hremove
  have hsum : -FileSystem.ref userS + 0 + (some ip).elim 0 (fun ip => FileSystem.ref ip + lock ip) +
      -(FileSystem.ref ip + lock ip) + 0 = -FileSystem.ref userS := by
    simp only [Option.elim]
    abel
  rw [hsum] at hrest
  rcases balance_makeUserS hm with ⟨hu, hb⟩ | ⟨hu, hb⟩
  · rw [if_pos hu]
    simpa using hb.trans hrest
  · rw [if_neg hu]
    exact ⟨userS, by simpa using hb.trans hrest⟩

/-! ### Runs -/

/-- No lock is held that was not held before, and each `ref` has changed as the number of the
pointers has. -/
def Balanced (s s' : Fs) : Prop :=
  ∀ ip, (s'.icache ip).locked = (s.icache ip).locked ∧
    (s'.icache ip).ref - (s.icache ip).ref = s'.holders ip - s.holders ip

/-- The call gives back what it takes: it is not a `deleteUser` of `root`, nor a `myopen` that
has to make the file `userS`. -/
def Paired (s : Fs) (e : Fin nproc × Call) : Prop :=
  match e.2 with
  | .deleteUser _ => ¬ s.info.IsRoot
  | .myopen _ => s.HasUserS
  | _ => True

instance (s : Fs) (e : Fin nproc × Call) : Decidable (Paired s e) := by
  unfold Paired
  split <;> infer_instance

theorem balanced_iff : Balanced s s' ↔ Balance 0 s s' := by
  have htoInt : ∀ a b : Bool, a.toInt = b.toInt ↔ a = b := by decide
  rw [Balance, add_zero, funext_iff]
  refine forall_congr' fun ip => ?_
  rw [Fs.books, Fs.books, Prod.mk.injEq, htoInt, and_comm]
  exact and_congr_left fun _ => ⟨fun h => by omega, fun h => by omega⟩

theorem not_balanced {a : ℤ} (ha : a ≠ 0) (h : Balance (Pi.single ip (a, 0)) s s') :
    ¬ Balanced s s' := by
  rw [balanced_iff]
  intro h'
  rw [Balance, h, add_right_inj, Pi.single_eq_zero_iff, Prod.mk_eq_zero] at h'
  exact ha h'.1

/-- A call that returns balances exactly when it gives back what it takes. -/
theorem balanced_iff_paired (h : (c.op p).run s = .ok (r, s')) :
    Balanced s s' ↔ Paired s (p, c) := by
  have hR := balance_accounting
  have hzero : Balance 0 s s' → (Balanced s s' ↔ True) := fun h =>
    iff_of_true (balanced_iff.2 h) trivial
  cases c with
  | openPath path omode => exact hzero (balance_open s r s' h)
  | dup fd => exact hzero (balance_dupFd s r s' h)
  | close fd => exact hzero (balance_close s r s' h)
  | mkdir path => exact hzero (balance_mkdir s r s' h)
  | mknod path major minor => exact hzero (balance_mknod s r s' h)
  | link old new => exact hzero (hR.link p old new s r s' h)
  | unlink path => exact hzero (hR.unlink p path s r s' h)
  | chdir path => exact hzero (balance_chdir s r s' h)
  | chmod path mode => exact hzero (balance_chmod s r s' h)
  | exec path r' => exact hzero (hR.exec p path r' s r s' h)
  | myopen typed =>
    have hs := balance_myopen h
    split at hs
    · rename_i hu
      exact iff_of_true (balanced_iff.2 hs) hu
    · rename_i hu
      obtain ⟨ip, hs⟩ := hs
      rw [neg_ref] at hs
      exact iff_of_false (not_balanced (by decide) hs) hu
  | addUser username password => exact hzero (balance_addUser s r s' h)
  | deleteUser username =>
    have hs := balance_deleteUser h
    split at hs
    · rename_i hroot
      obtain ⟨ip, hs⟩ := hs
      exact iff_of_false (not_balanced one_ne_zero hs) fun h => h hroot
    · rename_i hroot
      exact iff_of_true (balanced_iff.2 hs) hroot
  | login id pwd => exact hzero (balance_login s r s' h)
  | logout => exact hzero (balance_logout s r s' h)

/-- Each `ref` is the number of the pointers to the entry, and no lock is held. -/
def Settled (s : Fs) : Prop :=
  ∀ ip, (s.icache ip).ref = s.holders ip ∧ (s.icache ip).locked = false

theorem holders_nonneg (s : Fs) (ip : Fin ninode) : 0 ≤ s.holders ip := by
  refine add_nonneg (Finset.sum_nonneg fun f _ => ?_) (Finset.sum_nonneg fun p _ => ?_)
  · rw [filePointer]
    split <;> decide
  · split <;> decide

theorem Balanced.settled (h : Balanced s s') (hs : Settled s) : Settled s' := fun ip =>
  ⟨by have := (h ip).2; have := (hs ip).1; omega, (h ip).1.trans (hs ip).2⟩

/-- A call that returns balances exactly when it gives back what it takes, and after a run of
such calls `ref` is the number of the pointers. -/
theorem references_balance (s : Fs) :
    (∀ p c r s', (Call.op p c).run s = .ok (r, s') → (Balanced s s' ↔ Paired s (p, c))) ∧
      ∀ es s', Settled s → Trace.Along step Paired s es → Trace.run step s es = some s' →
        Settled s' ∧ ∀ ip, 0 ≤ (s'.icache ip).ref := by
  refine ⟨fun p c r s' h => balanced_iff_paired h, fun es s' hs hg hrun => ?_⟩
  have hsettled : Settled s' := by
    refine Trace.run_inv (I := Settled) (fun t e t' ht hp hstep => ?_) hs hg hrun
    obtain ⟨r, h⟩ := step_eq_some.1 hstep
    exact ((balanced_iff_paired h).2 hp).settled ht
  exact ⟨hsettled, fun ip => (hsettled ip).1 ▸ holders_nonneg s' ip⟩

/-- At boot, the first process has its current directory. -/
theorem settled_boot (disk : ℕ → Dinode) : Settled (boot disk) := by
  intro ip
  have hfiles : (boot disk).files ip = 0 := Finset.sum_eq_zero fun _ _ => rfl
  have hcwds : (boot disk).cwds ip = if (0 : Fin ninode) = ip then 1 else 0 := by
    rw [Fs.cwds, Finset.sum_eq_single_of_mem 0 (Finset.mem_univ _) fun p _ hp => ?_]
    · simp [boot]
    · simp [boot, hp]
  rw [Fs.holders, hfiles, hcwds, zero_add]
  by_cases h : ip = 0
  · subst h
    exact ⟨rfl, rfl⟩
  · simp [boot, h, Ne.symm h]

/-- A disk with an empty file `userS`. -/
def withUserS : ℕ → Dinode := mkfs [(userSPath.bytes.drop 1, [])]

/-- `root` makes a file, and goes to a new directory. -/
def visiting : List (Fin nproc × Call) :=
  [(0, .myopen []), (0, .openPath filePath (oCreate ||| oRdwr)), (0, .mkdir bob), (0, .chdir bob),
    (0, .addUser bob bob), (0, .close 0)]

theorem references_balance_visiting :
    (∃ r s', (Call.op 0 (.myopen [])).run (boot withUserS) = .ok (r, s') ∧
      Balanced (boot withUserS) s') ∧
      ∃ s', Trace.run step (boot withUserS) visiting = some s' ∧ Settled s' := by
  have h : decide (Trace.Along step Paired (boot withUserS) visiting) &&
      (Trace.run step (boot withUserS) visiting).isSome &&
      (step (boot withUserS) (0, .myopen [])).isSome := by
    decide +kernel
  rw [Bool.and_eq_true, Bool.and_eq_true, decide_eq_true_eq, Option.isSome_iff_exists,
    Option.isSome_iff_exists] at h
  obtain ⟨⟨hg, s', hrun⟩, t, ht⟩ := h
  refine ⟨?_, s', hrun, ((references_balance _).2 _ _ (settled_boot _) hg hrun).1⟩
  obtain ⟨r, ht⟩ := step_eq_some.1 ht
  exact ⟨r, t, ht, ((references_balance _).1 _ _ _ _ ht).2 hg.1⟩

/-- The first `myopen` on a disk without the file `userS`. -/
theorem myopen_unpaired : Settled (boot (mkfs [])) ∧
    ∃ s' ip, step (boot (mkfs [])) (0, .myopen []) = some s' ∧ (s'.icache ip).ref = -1 ∧
      ¬ Balanced (boot (mkfs [])) s' := by
  have h : (step (boot (mkfs [])) (0, .myopen [])).any fun s' =>
      decide ((s'.icache 1).ref = -1) := by decide +kernel
  obtain ⟨s', hs, h⟩ := (Option.any_eq_true _ _).1 h
  rw [decide_eq_true_eq] at h
  refine ⟨settled_boot _, s', 1, hs, h, fun hb => ?_⟩
  have hneg := (hb.settled (settled_boot _) 1).1
  rw [h] at hneg
  have := holders_nonneg s' 1
  omega

end FileSystem
