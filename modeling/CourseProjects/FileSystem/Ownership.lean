import CourseProjects.FileSystem.Rights

/-!
# Who owns an inode

The owner of an inode is set when it has been made. `open` with `O_CREATE` sets it also for a
file that is there already, and its permission (`Overwrites`).

* `owner_kept`: in a run without such a call an inode keeps its owner until it is allocated
  anew, and its permission changes only by `chmod` of its owner or of `root`.
-/

namespace FileSystem

open CString Function Tx

variable {s s' : Fs} {p : Fin nproc} {path : CharPtr} {c : Call} {n : ℕ} {r : ℤ}

/-! ### What the calls keep -/

/-- `open` with `O_CREATE` finds a file that it may write to, and gives it another owner or
another permission. -/
def Overwrites (s : Fs) (p : Fin nproc) (path : CharPtr) : Prop :=
  match (namei p path).run s with
  | .ok (some ip, t) =>
    (t.inode ip).type = .file ∧ getModeBit t.info (t.inode ip) modeWusr modeWoth = 1 ∧
      ¬ ((t.inode ip).owner = cstr t.info.getNow 16 ∧
        (t.inode ip).permission = modeRusr ||| modeWusr ||| modeRoth)
  | _ => False

instance (s : Fs) (p : Fin nproc) (path : CharPtr) : Decidable (Overwrites s p path) := by
  unfold Overwrites
  split
  · infer_instance
  · infer_instance

/-- The calls of a run in which the rights are kept: no `open` overwrites them. `myopen` is called
before the run. -/
def RightsGuard (s : Fs) : Fin nproc × Call → Prop
  | (p, .openPath path omode) => omode &&& oCreate ≠ 0 → ¬ Overwrites s p path
  | (_, .myopen _) => False
  | _ => True

instance (s : Fs) (e : Fin nproc × Call) : Decidable (RightsGuard s e) := by
  unfold RightsGuard
  split
  · infer_instance
  · infer_instance
  · infer_instance

/-- Unless an inode is allocated anew, a call keeps its owner, and its permission, or it is a
`chmod` of the owner or of `root`. -/
def KeptBy (s s' : Fs) (c : Call) : Prop :=
  ∀ n, s.births n ≤ s'.births n ∧ (s'.births n = s.births n →
    (s'.disk n).owner = (s.disk n).owner ∧
      ((s'.disk n).permission ≠ (s.disk n).permission →
        (∃ path mode, c = .chmod path mode) ∧ (s.info.Owns (s.disk n) ∨ s.info.IsRoot)))

theorem Intact.keptBy (h : Intact s s') : KeptBy s s' c :=
  fun n => ⟨(h n).1, fun hn => ⟨((h n).2 hn).1, fun hp => absurd ((h n).2 hn).2 hp⟩⟩

/-- That the inodes are intact adds up. -/
theorem intact_accounting :
    Accounting (fun (_ : ℤ) => Intact) (fun _ => 0) (fun _ => 0) where
  zero s := .refl s
  add h h' := h.trans h'
  iget n s a s' h := (unaltered_accounting.iget n s a s' h).1
  idup ip s a s' h := (unaltered_accounting.idup ip s a s' h).1
  ilock ip s a s' h := (unaltered_accounting.ilock ip s a s' h).1
  iunlock ip s a s' h := (unaltered_accounting.iunlock ip s a s' h).1
  iput ip s a s' h := (unaltered_accounting.iput ip s a s' h).1
  ialloc type s a s' h := (unaltered_accounting.ialloc type s a s' h).1
  writei ip src off s a s' h := (unaltered_accounting.writei ip src off s a s' h).1
  iupdate ip _ hf s a s' h := (unaltered_accounting.iupdate ip hf s a s' h).1

theorem intact_setInfo (t : UserInfo) :
    Costs (fun (_ : ℤ) => Intact) (setInfo t) (fun _ => 0) := by
  intro s u s' h
  cases modify_eq_ok.1 h
  exact intact_of_eq rfl rfl

/-- The rights of a new inode may be set. -/
theorem intact_create {type : InodeType} {major minor : ℤ} {ip : Fin ninode} (htype : type ≠ .file)
    (h : (create p path type major minor).run s = .ok (some ip, s')) (d : Dinode) :
    Intact s (s'.setInode ip d) := by
  have hs := (unaltered_accounting.create_costs p path type major minor s _ s' h).1
  rcases create_births h with hn | ⟨ht, -⟩
  · exact hs.setDisk hn
  · exact absurd ht htype

theorem intact_mkdir : Costs (fun (_ : ℤ) => Intact) (sysMkdir p path) 0 := by
  intro s r s' h
  obtain ⟨o, t, hc, h⟩ := bind_eq_ok.1 h
  cases o with
  | none =>
    cases pure_eq_ok.1 h
    exact (unaltered_accounting.create_costs p path _ _ _ s _ _ hc).1
  | some ip =>
    rw [get_bind] at h
    obtain ⟨_, _, hu, h⟩ := bind_eq_ok.1 h
    cases iupdate_eq_ok.1 hu
    exact (intact_create (by decide) hc _).trans
      (intact_accounting.release (q := fun _ => 0) rfl _ _ _ h)

theorem intact_mknod {major minor : ℤ} :
    Costs (fun (_ : ℤ) => Intact) (sysMknod p path major minor) 0 := by
  intro s r s' h
  obtain ⟨o, t, hc, h⟩ := bind_eq_ok.1 h
  cases o with
  | none =>
    cases pure_eq_ok.1 h
    exact (unaltered_accounting.create_costs p path _ _ _ s _ _ hc).1
  | some ip =>
    obtain ⟨_, _, hu, h⟩ := bind_eq_ok.1 h
    cases iupdate_eq_ok.1 hu
    exact (intact_create (by decide) hc _).trans
      (intact_accounting.release (q := fun _ => 0) rfl _ _ _ h)

/-- The home directory of a user is only made when there is none. -/
theorem intact_makeHome {username : CharPtr} :
    Costs (fun (_ : ℤ) => Intact) (makeHome p username) fun _ => 0 := by
  intro s r s' h
  obtain ⟨o, t, hn, h⟩ := bind_eq_ok.1 h
  refine ((unaltered_accounting.namei_costs p username s _ t hn).1).trans ?_
  cases o with
  | some ip => exact intact_accounting.iput ip t _ s' h
  | none =>
    obtain ⟨o, u, hc, h⟩ := bind_eq_ok.1 h
    obtain ⟨ip, ho, h⟩ := ofOption_bind_eq_ok.1 h
    obtain ⟨_, _, hu, h⟩ := bind_eq_ok.1 h
    cases iupdate_eq_ok.1 hu
    exact (intact_create (by decide) (ho ▸ hc) _).trans (intact_accounting.iunlockput ip _ _ _ h)

theorem intact_addUser {username password : CharPtr} :
    Costs (fun (_ : ℤ) => Intact) (sysAddUser p username password) 0 := by
  have hR := intact_accounting
  refine hR.seq hR.get fun s => ?_
  split
  · exact hR.pure rfl
  · refine hR.seq (hR.namei_costs p userSPath |>.congr fun o => by cases o <;> rfl) fun o => ?_
    cases o with
    | none => exact hR.pure rfl
    | some userS =>
      refine hR.seq (hR.ilock userS) fun _ => hR.seq (hR.iunlock userS) fun _ => ?_
      refine hR.seq (hR.ilock userS) fun _ => hR.seq hR.get fun t => ?_
      dsimp only
      split
      · exact hR.release rfl
      · refine hR.seq (intact_setInfo _) fun _ => hR.seq (hR.updateUserS userS) fun _ => ?_
        refine hR.seq (hR.iunlockput userS) fun _ => hR.seq intact_makeHome fun _ => ?_
        exact hR.pure rfl

theorem intact_deleteUser {username : CharPtr} :
    Costs (fun (_ : ℤ) => Intact) (sysDeleteUser p username) 0 := by
  have hR := intact_accounting
  refine hR.seq hR.get fun s => ?_
  split
  · exact hR.pure rfl
  · refine hR.seq (hR.namei_costs p userSPath |>.congr fun o => by cases o <;> rfl) fun o => ?_
    refine hR.seq (costs_ofOption hR.toLedger) fun userS => hR.seq (hR.ilock userS) fun _ => ?_
    refine hR.seq hR.get fun t => ?_
    dsimp only
    split
    · exact hR.seq (hR.iunlock userS) fun _ => hR.pure rfl
    · refine hR.seq (intact_setInfo _) fun _ => hR.seq (hR.updateUserS userS) fun _ => ?_
      exact hR.seq (hR.iunlock userS) fun _ => hR.pure rfl

theorem intact_login {id pwd : CharPtr} :
    Costs (fun (_ : ℤ) => Intact) (sysLogin id pwd) 0 := by
  have hR := intact_accounting
  exact hR.seq hR.get fun _ => hR.seq (intact_setInfo _) fun _ => hR.pure rfl

theorem intact_logout : Costs (fun (_ : ℤ) => Intact) sysLogout 0 := by
  have hR := intact_accounting
  exact hR.seq hR.get fun _ => hR.seq (intact_setInfo _) fun _ => hR.pure rfl

theorem intact_chdir : Costs (fun (_ : ℤ) => Intact) (sysChdir p path) 0 := by
  have hR := intact_accounting
  refine hR.seq (hR.namei_costs p path |>.congr fun o => by cases o <;> rfl) fun o => ?_
  cases o with
  | none => exact hR.pure rfl
  | some ip =>
    refine hR.seq (hR.ilock ip) fun _ => hR.seq hR.get fun s => ?_
    split
    · exact hR.release rfl
    · split
      · exact hR.release rfl
      · refine hR.seq (hR.iunlock ip) fun _ => hR.seq (costs_ofOption hR.toLedger) fun cwd => ?_
        refine hR.seq (hR.iput cwd) fun _ => hR.seq ?_ fun _ => hR.pure rfl
        intro t u t' h
        cases modify_eq_ok.1 h
        exact intact_of_eq rfl rfl

theorem intact_fileclose {f : Fin nfile} :
    Costs (fun (_ : ℤ) => Intact) (fileclose f) fun _ => 0 := by
  have hset : ∀ {t : Fs} {v : Option File}, Intact t (t.setFile f v) := intact_of_eq rfl rfl
  intro s u s' h
  unfold fileclose at h
  rw [get_bind, ofOption_bind_eq_ok] at h
  obtain ⟨v, -, h⟩ := h
  rw [failIf_bind_eq_ok] at h
  obtain ⟨-, h⟩ := h
  split at h
  · cases set_eq_ok.1 h
    exact hset
  · rw [set_bind] at h
    split at h
    · exact hset.trans (intact_accounting.iput _ _ _ _ h)
    · cases pure_eq_ok.1 h
      exact hset
    · cases pure_eq_ok.1 h
      exact hset

theorem intact_close {fd : ℤ} : Costs (fun (_ : ℤ) => Intact) (sysClose p fd) 0 := by
  intro s r s' h
  unfold sysClose at h
  rw [get_bind] at h
  split at h
  · cases pure_eq_ok.1 h
    exact .refl s
  · rename_i fd f _
    have hset : Intact s (s.setOfile p fd none) := intact_of_eq rfl rfl
    rw [set_bind] at h
    obtain ⟨_, t, hc, h⟩ := bind_eq_ok.1 h
    cases pure_eq_ok.1 h
    exact hset.trans (intact_fileclose _ _ _ hc)

theorem intact_dup {fd : ℤ} : Costs (fun (_ : ℤ) => Intact) (sysDup p fd) 0 := by
  intro s r s' h
  unfold sysDup at h
  rw [get_bind] at h
  split at h
  · cases pure_eq_ok.1 h
    exact .refl s
  · split at h
    · cases pure_eq_ok.1 h
      exact .refl s
    · rw [set_bind] at h
      obtain ⟨_, t, hd, h⟩ := bind_eq_ok.1 h
      cases pure_eq_ok.1 h
      unfold filedup at hd
      rw [get_bind, ofOption_bind_eq_ok] at hd
      obtain ⟨v, -, hd⟩ := hd
      rw [failIf_bind_eq_ok] at hd
      cases set_eq_ok.1 hd.2
      exact intact_of_eq rfl rfl

/-! ### Opening -/

/-- What `open` goes on with: with `O_CREATE` its rights are those of a new file. -/
theorem intact_openInode {omode : UInt32} {o : Option (Fin ninode)}
    (hg : omode &&& oCreate ≠ 0 → ¬ Overwrites s p path)
    (h : (openInode p path omode).run s = .ok (o, s')) : Intact s s' := by
  by_cases hc : omode &&& oCreate = 0
  · exact (unaltered_accounting.openInode p path hc s _ s' h).1
  · unfold openInode at h
    rw [if_pos hc] at h
    obtain ⟨r, t, hcr, h⟩ := bind_eq_ok.1 h
    have hs := unaltered_accounting.create_costs p path _ _ _ s _ t hcr
    cases r with
    | none =>
      cases pure_eq_ok.1 h
      exact hs.1
    | some ip =>
      rw [get_bind] at h
      obtain ⟨_, _, hu, h⟩ := bind_eq_ok.1 h
      cases iupdate_eq_ok.1 hu
      cases pure_eq_ok.1 h
      rcases create_births hcr with hn | ⟨-, u, hnamei, rfl, hfile, hbit⟩
      · exact hs.1.setDisk hn
      · -- a file that was there has these rights already
        have hrights := hg hc
        rw [Overwrites, hnamei] at hrights
        have hsame := not_not.1 fun hne => hrights ⟨hfile, hbit, hne⟩
        rw [← Fs.inode_lock ip] at hsame
        exact hs.1.trans (intact_setDisk hsame.1.symm hsame.2.symm)

theorem intact_open {omode : UInt32} (hg : omode &&& oCreate ≠ 0 → ¬ Overwrites s p path)
    (h : (sysOpen p path omode).run s = .ok (r, s')) : Intact s s' := by
  rcases sysOpen_cases h with ⟨-, ho | ⟨ip, t, ho, hp⟩⟩ | ⟨ip, t, f, fd, ho, -, -, -, -, -, -, rfl⟩
  · exact intact_openInode hg ho
  · exact (intact_openInode hg ho).trans (intact_accounting.iunlockput ip t _ s' hp)
  · exact (intact_openInode hg ho).trans (intact_of_eq rfl rfl)

/-! ### Runs -/

/-- `chmod` changes the permission of the inode of its path, for the owner or `root`. -/
theorem keptBy_chmod {mode : UInt32} (h : (sysChmod p path mode).run s = .ok (r, s')) :
    KeptBy s s' (.chmod path mode) := by
  obtain ⟨o, t, hn, h⟩ := bind_eq_ok.1 h
  have hs := unaltered_accounting.namei_costs p path s _ t hn
  cases o with
  | none =>
    cases pure_eq_ok.1 h
    exact hs.1.keptBy
  | some ip =>
    obtain ⟨_, u, hl, h⟩ := bind_eq_ok.1 h
    have hs := hs.trans (unaltered_accounting.ilock ip t _ u hl)
    rw [get_bind] at h
    split at h
    · exact (hs.1.trans (intact_accounting.release (q := fun _ => 0) rfl u r s' h)).keptBy
    · rename_i hmay
      obtain ⟨_, _, hu, h⟩ := bind_eq_ok.1 h
      cases iupdate_eq_ok.1 hu
      have hlast := intact_accounting.release (q := fun _ => 0) rfl _ r s' h
      refine fun n => ⟨(hs.1 n).1.trans (hlast n).1, fun hb => ?_⟩
      have hb' : u.births n = s.births n := le_antisymm (hb ▸ (hlast n).1) (hs.1 n).1
      obtain ⟨ho, hp⟩ := (hs.1 n).2 hb'
      obtain ⟨ho', hp'⟩ := (hlast n).2 (hb.trans hb'.symm)
      by_cases hne : n = (u.icache ip).inum
      · subst hne
        rw [Fs.setInode, Fs.disk_setDisk_self] at ho'
        have howns : u.info.Owns (u.inode ip) ∨ u.info.IsRoot := by
          by_contra h
          exact hmay (not_or.1 h)
        rw [hs.2] at howns
        have hsame : s.info.Owns (u.inode ip) ↔ s.info.Owns (s.disk (u.icache ip).inum) := by
          rw [UserInfo.Owns, UserInfo.Owns, ← ho]
          rfl
        exact ⟨ho'.trans ho, fun _ => ⟨⟨path, mode, rfl⟩, howns.imp_left hsame.1⟩⟩
      · rw [Fs.setInode, Fs.disk_setDisk_of_ne hne] at ho' hp'
        exact ⟨ho'.trans ho, fun h => absurd (hp'.trans hp) h⟩

/-- A call that meets the guard keeps the rights. -/
theorem call_keptBy (hg : RightsGuard s (p, c)) (h : (c.op p).run s = .ok (r, s')) :
    KeptBy s s' c := by
  have hR := intact_accounting
  cases c with
  | openPath path omode => exact (intact_open hg h).keptBy
  | dup fd => exact (intact_dup s r s' h).keptBy
  | close fd => exact (intact_close s r s' h).keptBy
  | mkdir path => exact (intact_mkdir s r s' h).keptBy
  | mknod path major minor => exact (intact_mknod s r s' h).keptBy
  | link old new => exact (hR.link p old new s r s' h).keptBy
  | unlink path => exact (hR.unlink p path s r s' h).keptBy
  | chdir path => exact (intact_chdir s r s' h).keptBy
  | chmod path mode => exact keptBy_chmod h
  | exec path r' => exact (hR.exec p path r' s r s' h).keptBy
  | myopen typed => exact hg.elim
  | addUser username password => exact (intact_addUser s r s' h).keptBy
  | deleteUser username => exact (intact_deleteUser s r s' h).keptBy
  | login id pwd => exact (intact_login s r s' h).keptBy
  | logout => exact (intact_logout s r s' h).keptBy

/-- The inodes that are not allocated anew have the same owners. -/
def SameOwners (s s' : Fs) : Prop :=
  ∀ n, s.births n ≤ s'.births n ∧
    (s'.births n = s.births n → (s'.disk n).owner = (s.disk n).owner)

theorem SameOwners.trans {t : Fs} (h : SameOwners s t) (h' : SameOwners t s') :
    SameOwners s s' := by
  intro n
  refine ⟨(h n).1.trans (h' n).1, fun hn => ?_⟩
  have ht : t.births n = s.births n := le_antisymm (hn ▸ (h' n).1) (h n).1
  exact ((h' n).2 (hn.trans ht.symm)).trans ((h n).2 ht)

/-- In a run of calls that meet the guard, by any processes, an inode keeps its owner until it is
allocated anew, and each call keeps the permission, or it is a `chmod` of the owner or of
`root`. -/
theorem owner_kept {es : List (Fin nproc × Call)} (hg : Trace.Along step RightsGuard s es)
    (hrun : Trace.run step s es = some s') :
    (∀ n, s'.births n = s.births n → (s'.disk n).owner = (s.disk n).owner) ∧
      Trace.Along step (fun t e => ∀ t', step t e = some t' → KeptBy t t' e.2) s es := by
  have hstep : ∀ t e, RightsGuard t e → ∀ t', step t e = some t' → KeptBy t t' e.2 := by
    rintro t ⟨p, c⟩ hg t' ht
    obtain ⟨r, h⟩ := step_eq_some.1 ht
    exact call_keptBy hg h
  have hkept : SameOwners s s' := by
    refine Trace.run_inv (I := SameOwners s) (fun t e t' hs hg ht => ?_) ?_ hg hrun
    · exact hs.trans fun n => ⟨(hstep t e hg t' ht n).1, fun hn => ((hstep t e hg t' ht n).2 hn).1⟩
    · exact fun n => ⟨le_rfl, fun _ => rfl⟩
  exact ⟨fun n => (hkept n).2, hg.mono hstep⟩

/-- `root` makes a file, opens it once more and takes the rights of the others; `bob` may neither
open it nor change its permission. -/
def keeping : List (Fin nproc × Call) :=
  [(0, .openPath filePath (oCreate ||| oRdwr)), (0, .openPath filePath oCreate),
    (0, .chmod filePath modeWusr), (0, .addUser bob bob), (0, .login bob bob),
    (0, .openPath filePath oCreate), (0, .chmod filePath 0)]

theorem owner_kept_keeping : ∃ s s', step (boot (mkfs [])) (0, .myopen []) = some s ∧
    Trace.run step s keeping = some s' ∧
    ∀ n, s'.births n = s.births n → (s'.disk n).owner = (s.disk n).owner := by
  have h : (step (boot (mkfs [])) (0, .myopen [])).any (fun s =>
      decide (Trace.Along step RightsGuard s keeping) && (Trace.run step s keeping).isSome) := by
    decide +kernel
  obtain ⟨s, hs, h⟩ := (Option.any_eq_true _ _).1 h
  rw [Bool.and_eq_true, decide_eq_true_eq, Option.isSome_iff_exists] at h
  obtain ⟨hg, s', hrun⟩ := h
  exact ⟨s, s', hs, hrun, (owner_kept hg hrun).1⟩

/-- `bob` opens a file of `root` with `O_CREATE`: he is its owner then, and others may read it. -/
theorem open_overwrites : ∃ s s' n, Trace.run step (boot (mkfs [])) writeOnly = some s ∧
    step s (0, .openPath filePath oCreate) = some s' ∧ (s.disk n).type = .file ∧
    s'.births n = s.births n ∧ (s'.disk n).owner ≠ (s.disk n).owner ∧
    (s'.disk n).permission ≠ (s.disk n).permission ∧ ¬ s.info.Owns (s.disk n) ∧
    ¬ s.info.IsRoot := by
  have h : (Trace.run step (boot (mkfs [])) writeOnly).any fun s =>
      (step s (0, .openPath filePath oCreate)).any fun s' =>
        decide ((s.disk 4).type = .file ∧ s'.births 4 = s.births 4 ∧
          (s'.disk 4).owner ≠ (s.disk 4).owner ∧
          (s'.disk 4).permission ≠ (s.disk 4).permission ∧ ¬ s.info.Owns (s.disk 4) ∧
          ¬ s.info.IsRoot) := by decide +kernel
  obtain ⟨s, hs, h⟩ := (Option.any_eq_true _ _).1 h
  obtain ⟨s', hs', h⟩ := (Option.any_eq_true _ _).1 h
  exact ⟨s, s', 4, hs, hs', of_decide_eq_true h⟩

end FileSystem
