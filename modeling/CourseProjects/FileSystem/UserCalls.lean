import CourseProjects.FileSystem.Mounting
import CourseProjects.FileSystem.Sessions

/-!
# The calls on the users as calls of a session

A session is the table of the users with the file `userS`. Each of its calls leaves the table
as the file holds it, with somebody in it, so that the next session does not enter `root`
again. The system calls on the users are calls of a session, whatever else they do to the disk.

* `Session.Kept.restart`: what a session leaves in the file is the table of the next one;
* `Live.follows`: `addUser`, `deleteUser`, `login` and `logout` follow the session;
* `myopen_yields`: so does `sys_myopen` after a boot.
-/

namespace FileSystem

open CString Function Tx

/-! ### Sessions -/

namespace UserInfo

variable {t t' : UserInfo} {u p : Str}

/-- There is a slot in use, and `root` is there, unless the counter says that somebody is. -/
def Alive (t : UserInfo) : Prop := (∃ i, key (t.name i) = root) ∨ t.num ≠ 0 ∧ t.count ≠ 0

theorem Alive.count_ne_zero (h : t.Alive) : t.count ≠ 0 := by
  rcases h with ⟨i, hi⟩ | h
  · have hfirst : t.name i 0 ≠ fill := by
      rw [name_zero, hi]
      decide
    exact (List.countP_pos_iff.2 ⟨i, List.mem_finRange i, decide_eq_true hfirst⟩).ne'
  · exact h.2

theorem Alive.of_eq (h : t.Alive) (hp : t'.priv = t.priv) (hn : t'.num = t.num) : t'.Alive := by
  have hname : t'.name = t.name := by
    unfold name
    rw [hp]
  have hcount : t'.count = t.count := by
    unfold count
    rw [hname]
  rcases h with ⟨i, hi⟩ | ⟨h, h'⟩
  · exact .inl ⟨i, by rw [hname, hi]⟩
  · exact .inr ⟨hn ▸ h, hcount ▸ h'⟩

/-- Somebody is in the table that `myopen` makes. -/
theorem alive_myopen (userS : List UInt8) : (zero.myopen userS).Alive := by
  unfold myopen
  dsimp only
  split
  · refine .inl ⟨0, ?_⟩
    refine Eq.trans (b := key ((UserInfo.setUser _ 0 (ofList root) (ofList rootPassword)).name 0))
      rfl ?_
    rw [name_setUser, if_pos rfl]
    rfl
  · rename_i hnum
    refine .inr ⟨hnum, fun hc => hnum ?_⟩
    exact (zero_add _).trans (congrArg Nat.cast hc)

/-- Only a current user who is `root` changes the table, and then `root` is in it. -/
theorem Alive.exists_root (h : t.Alive) (hr : key t.getNow = root) :
    ∃ i, key (t.name i) = root := by
  rcases h with h | ⟨hnum, -⟩
  · exact h
  · rw [getNow, if_neg hnum] at hr
    exact ⟨_, hr⟩

/-- The other slots stay when a user is added, and when a user is deleted. -/
theorem Alive.setUser {i : Fin nuser} {n : ℤ} (h : t.Alive) (hr : key t.getNow = root)
    (hi : t.findEmpty = some i) : Alive { t.setUser i u p with num := n } := by
  obtain ⟨j, hj⟩ := h.exists_root hr
  have hne : j ≠ i := by
    rintro rfl
    have hx := findEmpty_some hi
    rw [name_zero, hj] at hx
    exact absurd hx (by decide)
  exact .inl ⟨j, (name_setUser.trans (if_neg hne)).trans hj⟩

theorem Alive.clear {i : Fin nuser} {n : ℤ} (h : t.Alive) (hr : key t.getNow = root)
    (hu : key u ≠ root) (hi : t.findUser u = some i) :
    Alive { t.clear i with num := n } := by
  obtain ⟨j, hj⟩ := h.exists_root hr
  have hne : j ≠ i := by
    rintro rfl
    exact hu ((findUser_some hi).symm.trans hj)
  exact .inl ⟨j, (name_clear.trans (if_neg hne)).trans hj⟩

/-- What `login` finds, and the password that it compares, is in the bytes of the table. -/
theorem login_congr (h : ∀ a < privSize, t.priv a = t'.priv a) (u p : Str) :
    (t.login u p).1 = (t'.login u p).1 ∧
      ∀ a < privSize, (t.login u p).2.priv a = (t'.login u p).2.priv a := by
  have hfind : t.findUser u = t'.findUser u := by
    refine congrArg (List.find? · _) (funext fun i => ?_)
    simp only [strncmp_eq_zero_iff]
    rw [show cstr (t.name i) 16 = cstr (t'.name i) 16 from (Session.name_congr h i).1]
  have hpw : ∀ i, strncmp p (t.password i) 16 = 0 ↔ strncmp p (t'.password i) 16 = 0 := by
    intro i
    rw [strncmp_eq_zero_iff, strncmp_eq_zero_iff,
      show cstr (t.password i) 16 = cstr (t'.password i) 16 from (Session.name_congr h i).2]
  rw [login, login, hfind]
  split
  · rename_i i _
    by_cases hp : strncmp p (t.password i) 16 = 0
    · rw [if_pos hp, if_pos ((hpw i).1 hp)]
      exact ⟨rfl, h⟩
    · rw [if_neg hp, if_neg fun h' => hp ((hpw i).2 h')]
      exact ⟨rfl, h⟩
  · exact ⟨rfl, h⟩

end UserInfo

namespace Session

variable {s : Session} {e : SessionCall}

/-- The file holds the table, in which somebody is. -/
structure Kept (s : Session) : Prop where
  saved : s.Saved
  alive : s.info.Alive

theorem kept_myopen (userS : List UInt8) : Kept ((boot userS).call .myopen).2 :=
  ⟨saved_update, UserInfo.alive_myopen userS⟩

/-- Every other call keeps this, whether it fails or not. -/
theorem Kept.call (h : Kept s) (he : e ≠ .myopen) : Kept (s.call e).2 := by
  cases e with
  | myopen => exact absurd rfl he
  | login u p =>
    rcases s.info.login_cases u p with hl | ⟨i, -, -, hl⟩
    · simp only [Session.call, hl]
      exact ⟨h.saved, h.alive⟩
    · simp only [Session.call, hl]
      exact ⟨h.saved, h.alive.of_eq rfl rfl⟩
  | logout => exact ⟨h.saved, h.alive.of_eq rfl rfl⟩
  | addUser u p =>
    simp only [Session.call]
    split
    · rename_i hr
      rcases s.info.addUser_cases u p with ha | ⟨i, hi, -, ha⟩
      · simp only [ha]
        exact h
      · simp only [ha, if_true]
        exact ⟨saved_update, h.alive.setUser (isRoot_iff.1 hr) hi⟩
    · exact h
  | deleteUser u =>
    simp only [Session.call]
    split
    · rename_i hr
      rcases s.info.deleteUser_cases u with hd | ⟨i, hu, hi, hd⟩
      · simp only [hd]
        exact h
      · simp only [hd, if_true]
        exact ⟨saved_update, h.alive.clear (isRoot_iff.1 hr) hu hi⟩
    · exact h

/-- What is left in the file is the table of the next session. -/
theorem Kept.restart (h : Kept s) :
    ∀ a < privSize, ((boot s.userS).call .myopen).2.info.priv a = s.info.priv a := by
  refine (h.saved.myopen (t := .zero) ?_).1
  have := h.alive.count_ne_zero
  change (0 : ℤ) + s.info.count ≠ 0
  omega

end Session

/-! ### The calls on the users -/

variable {b₀ s s' t : Fs} {l : List (Fin ninode)} {ip jp : Fin ninode} {n m : ℕ} {d : Dinode}
  {p : Fin nproc} {c : Call} {info : UserInfo} {e : SessionCall} {typed : List UInt8}
  {disk : ℕ → Dinode}

/-- The call of a session. -/
def Call.session : Call → Option SessionCall
  | .addUser username password => some (.addUser username.str password.str)
  | .deleteUser username => some (.deleteUser username.str)
  | .login id pwd => some (.login id.str pwd.str)
  | .logout => some .logout
  | _ => none

/-- The calls on the users but `myopen`. -/
def Call.OnUsers (c : Call) : Prop := c.session.isSome = true

instance : DecidablePred Call.OnUsers := fun c => inferInstanceAs (Decidable (c.session.isSome = _))

/-- The table and the file `userS`. -/
def view (n : ℕ) (s : Fs) (auth : Option (Option (List UInt8))) : Session where
  info := s.info
  userS := (s.disk n).data
  auth := auth

/-- The state from `s` on is that of the session after a call, and so is the reply. -/
def Follows (n : ℕ) (s : Fs) (e : SessionCall) (r : ℤ) (t : Fs) : Prop :=
  ∀ a, ∃ a', (view n s a).call e = (r, view n t a')

/-- Between two calls. -/
def Live (n : ℕ) (s : Fs) : Prop := Ready s n (s.disk n) s.info [] s

theorem Ready.live (h : Ready b₀ n d info l s) : Live n s := by
  rw [Live, h.info, h.mounted.inode]
  exact h.rebase

theorem Dinode.data_save (d : Dinode) (t : UserInfo) :
    (d.save t).data = t.bytes ++ d.data.drop privSize := by
  rw [save, splice, List.take_zero, List.nil_append, UserInfo.length_bytes, Nat.zero_add]

/-- The state is the one after `update`. -/
theorem Ready.view_eq {auth : Option (Option (List UInt8))}
    (ht : Ready b₀ n ((s.disk n).save info) info l t) :
    (view n s auth).update info = view n t auth := by
  rw [view, view, Session.update, ht.info, ht.mounted.inode, Dinode.data_save]

theorem Ready.view_eq_self {auth : Option (Option (List UInt8))}
    (ht : Ready b₀ n (s.disk n) s.info l t) : view n t auth = view n s auth := by
  rw [view, view, ht.info, ht.mounted.inode]

theorem getModeBit_of_isRoot {t : UserInfo} (h : t.IsRoot) :
    getModeBit t d modeXusr modeXoth ≠ 0 := by
  rw [getModeBit]
  split
  · decide
  · -- the bits of the owner are never the lowest one
    have hbit : modeXusr &&& (if d.permission = 0 then 1 else 0) = 0 := by
      split
      · decide
      · decide
    rw [if_pos (.inr h), if_neg (not_not.2 hbit)]
    decide

/-- `root` finds the file. -/
theorem Live.namei_userS (h : Live n s) (hr : s.info.IsRoot) :
    Yields (namei p userSPath) s fun o t => ∃ ip, o = some ip ∧
      Ready s n (s.disk n) s.info [ip] t ∧ (t.icache ip).inum = n := by
  intro o t hrun
  have hw := h.walk.namei (h.rooted.homed p) o t hrun
  obtain ⟨i, hi, -⟩ := h.mounted.entry
  have hsome : o.isSome = true := (FileSystem.namei_userS hrun).2
    ⟨h.mounted.dir, getModeBit_of_isRoot hr, Option.isSome_iff_exists.2 ⟨i, hi⟩⟩
  obtain ⟨ip, rfl⟩ := Option.isSome_iff_exists.1 hsome
  exact ⟨ip, rfl, Ready.of_walk h hw, h.walk.namei_userS h.rooted h.mounted.entry _ t hrun ip rfl⟩

theorem Live.addUser {username password : CharPtr} (h : Live n s) :
    Yields (sysAddUser p username password) s fun r t => Live n t ∧
      Follows n s (.addUser username.str password.str) r t := by
  unfold sysAddUser
  refine yields_get_bind ?_
  split
  · rename_i hroot
    exact yields_pure ⟨h, fun a => ⟨a, by rw [Session.call, if_neg (by exact hroot)]⟩⟩
  · rename_i hroot
    have hroot := not_not.1 hroot
    refine (h.namei_userS hroot).bind fun o t hot => ?_
    obtain ⟨ip, ho, ht, hip⟩ := hot
    subst ho
    dsimp only
    intro r u hrun
    obtain ⟨_, _, hl, hrun⟩ := bind_eq_ok.1 hrun
    obtain ⟨-, -, -, heq⟩ := ilock_eq_ok.1 hl
    cases heq
    obtain ⟨_, _, hu, hrun⟩ := bind_eq_ok.1 hrun
    obtain ⟨-, -, heq⟩ := iunlock_eq_ok.1 hu
    cases heq
    obtain ⟨_, _, hl, hrun⟩ := bind_eq_ok.1 hrun
    obtain ⟨-, -, -, heq⟩ := ilock_eq_ok.1 hl
    cases heq
    rw [Fs.lock_unlock_lock, get_bind] at hrun
    have hlock : Ready s n (s.disk n) s.info [ip] (t.lock ip) :=
      ⟨ht.rooted, ht.grip.lock, ht.mounted, ht.info⟩
    rw [hlock.info] at hrun
    have hcall : ∀ a, (view n s a).call (.addUser username.str password.str) =
        if (s.info.addUser username.str password.str).1 = 0 then
          (0, (view n s a).update (s.info.addUser username.str password.str).2)
        else (-1, view n s a) := fun a => if_pos hroot
    by_cases hr : (s.info.addUser username.str password.str).1 = 0
    · rw [if_neg (not_not.2 hr)] at hrun
      refine (hlock.save (Q := fun r u => Live n u ∧
        Follows n s (.addUser username.str password.str) r u)
        (x := iunlockput ip >>= fun _ => makeHome p username >>= fun _ => pure 0)
        ((Fs.inum_lock ip).trans hip) fun v hv => ?_) r u hrun
      refine hv.iunlockput.bind fun _ w hw => Yields.bind hw.makeHome fun _ x hx => yields_pure ?_
      exact ⟨hx.live, fun a => ⟨a, by rw [hcall, if_pos hr, hx.view_eq]⟩⟩
    · rw [if_pos hr] at hrun
      refine hlock.release (Q := fun r u => Live n u ∧
        Follows n s (.addUser username.str password.str) r u)
        (fun v hv => ?_) r u hrun
      exact ⟨hv.live, fun a => ⟨a, by rw [hcall, if_neg hr, hv.view_eq_self]⟩⟩

theorem Live.deleteUser {username : CharPtr} (h : Live n s) :
    Yields (sysDeleteUser p username) s fun r t => Live n t ∧
      Follows n s (.deleteUser username.str) r t := by
  unfold sysDeleteUser
  refine yields_get_bind ?_
  split
  · rename_i hroot
    exact yields_pure ⟨h, fun a => ⟨a, by rw [Session.call, if_neg (by exact hroot)]⟩⟩
  · rename_i hroot
    have hroot := not_not.1 hroot
    refine (h.namei_userS hroot).bind fun o t hot => ?_
    obtain ⟨ip, ho, ht, hip⟩ := hot
    subst ho
    refine yields_ofOption_bind fun jp hjp => ?_
    cases hjp
    intro r u hrun
    obtain ⟨_, _, hl, hrun⟩ := bind_eq_ok.1 hrun
    obtain ⟨-, -, -, heq⟩ := ilock_eq_ok.1 hl
    cases heq
    rw [get_bind] at hrun
    have hlock : Ready s n (s.disk n) s.info [ip] (t.lock ip) :=
      ⟨ht.rooted, ht.grip.lock, ht.mounted, ht.info⟩
    have hunlock : ∀ {v : Fs} {d' : Dinode} {info' : UserInfo} {a : ℤ} {Q : ℤ → Fs → Prop},
        Ready s n d' info' [ip] v → (∀ w, Ready s n d' info' [ip] w → Q a w) →
        Yields (iunlock ip >>= fun _ => pure a) v Q := by
      intro v d' info' a Q hv hQ r w hrun
      obtain ⟨_, _, hu, hrun⟩ := bind_eq_ok.1 hrun
      obtain ⟨-, -, heq⟩ := iunlock_eq_ok.1 hu
      cases heq
      cases pure_eq_ok.1 hrun
      exact hQ _ ⟨hv.rooted, hv.grip.unlock, hv.mounted, hv.info⟩
    rw [hlock.info] at hrun
    have hcall : ∀ a, (view n s a).call (.deleteUser username.str) =
        if (s.info.deleteUser username.str).1 = 0 then
          (0, (view n s a).update (s.info.deleteUser username.str).2)
        else (-1, view n s a) := fun a => if_pos hroot
    by_cases hr : (s.info.deleteUser username.str).1 = 0
    · rw [if_neg (not_not.2 hr)] at hrun
      refine (hlock.save (Q := fun r u => Live n u ∧
        Follows n s (.deleteUser username.str) r u)
        (x := iunlock ip >>= fun _ => pure 0)
        ((Fs.inum_lock ip).trans hip) fun v hv => ?_) r u hrun
      exact hunlock hv fun w hw =>
        ⟨hw.live, fun a => ⟨a, by rw [hcall, if_pos hr, hw.view_eq]⟩⟩
    · rw [if_pos hr] at hrun
      refine hunlock (Q := fun r u => Live n u ∧ Follows n s (.deleteUser username.str) r u)
        hlock (fun v hv => ?_) r u hrun
      exact ⟨hv.live, fun a => ⟨a, by rw [hcall, if_neg hr, hv.view_eq_self]⟩⟩

/-- The table is changed, but for what the file holds. -/
theorem Live.setInfo (h : Live n s) (info : UserInfo) : Live n { s with info := info } :=
  ⟨⟨h.rooted.cwd, h.rooted.inum, h.rooted.ref⟩, .init _, h.mounted, rfl⟩

/-- The calls on the users are those of a session. -/
theorem Live.follows (h : Live n s) (hc : c.session = some e) :
    Yields (c.op p) s fun r t => Live n t ∧ Follows n s e r t := by
  cases c <;> cases hc
  case addUser => exact h.addUser
  case deleteUser => exact h.deleteUser
  case login id pwd =>
    intro r t hrun
    cases hrun
    exact ⟨h.setInfo _, fun a => ⟨_, rfl⟩⟩
  case logout =>
    intro r t hrun
    cases hrun
    exact ⟨h.setInfo _, fun a => ⟨_, rfl⟩⟩

/-! ### sys_myopen -/

/-- An entry `userS` of the root directory is for a file with a link, and the blocks are enough
for what is on the disk. -/
structure Bootable (disk : ℕ → Dinode) : Prop where
  userS : ∀ n, NamesUserS (disk rootino).data n → (disk n).type = .file ∧ (disk n).nlink ≠ 0
  used : usedBlocks disk ≤ nblocks

theorem Live.bootable (h : Live n s) : Bootable s.disk := by
  refine ⟨fun m hm => ?_, h.mounted.used⟩
  rw [← NamesUserS.unique h.mounted.entry hm]
  exact ⟨h.mounted.file, h.mounted.nlink⟩

theorem Walk.nameiparent_userS (h : Walk b₀ s l t) (hr : Rooted b₀) :
    Yields (FileSystem.nameiparent p userSPath) t fun o u =>
      ∀ r, o = some r → (u.icache r.1).inum = rootino ∧ r.2 = userSName := by
  rintro o u hrun r rfl
  obtain ⟨ip, v, hs, hx⟩ := bind_eq_ok.1 hrun
  obtain ⟨-, hstart⟩ := h.start (hr.homed p) ip v hs
  obtain ⟨_, _, hl, hx⟩ := bind_eq_ok.1 hx
  obtain ⟨-, -, -, heq⟩ := ilock_eq_ok.1 hl
  cases heq
  rw [get_bind] at hx
  split at hx
  · obtain ⟨_, _, -, hx⟩ := bind_eq_ok.1 hx
    cases pure_eq_ok.1 hx
  · split at hx
    · obtain ⟨_, _, -, hx⟩ := bind_eq_ok.1 hx
      cases pure_eq_ok.1 hx
    · rw [if_pos ⟨rfl, by rfl⟩] at hx
      obtain ⟨_, _, hu, hx⟩ := bind_eq_ok.1 hx
      obtain ⟨-, -, heq⟩ := iunlock_eq_ok.1 hu
      cases heq
      cases pure_eq_ok.1 hx
      rw [Fs.inum_unlock, Fs.inum_lock]
      exact ⟨(Option.some.inj hstart).symm, rfl⟩

/-- The file `userS` that has been made in the root directory. -/
theorem Created.mounted_userS (h : Created b₀ s .file userSName rootino m l ip t) (hr : Rooted b₀) :
    Mounted m (newInode .file 0 0 m rootino) t.disk := by
  have hroot := h.disk_dir hr.inUse
  refine ⟨?_, ?_, h.new, rfl, one_ne_zero, h.used⟩
  · rw [hroot]
    exact h.dir
  · rw [hroot]
    exact namesUserS_linkData h.full (Nat.one_le_iff_ne_zero.1 h.lt.1)
      (h.lt.2.trans (by decide)) h.fresh

/-- The file `userS` is there, or it is made. -/
theorem makeUserS_yields (hr : Rooted s) (hb : Bootable s.disk) :
    Yields (makeUserS p) s fun ip t => ∃ n d, Ready t n d s.info [] t ∧
      (t.icache ip).inum = n ∧ ∀ m, NamesUserS (s.disk rootino).data m → n = m ∧ d = s.disk m := by
  have hw : Walk s s [] s := .init (.init s)
  have hp : Homed s p userSPath.bytes := hr.homed p
  intro ip t hrun
  obtain ⟨o, u, hn, hrun⟩ := bind_eq_ok.1 hrun
  have hu := hw.namei hp o u hn
  have hiff := FileSystem.namei_userS hn
  cases o with
  | some jp =>
    cases pure_eq_ok.1 hrun
    obtain ⟨hdir, -, hsome⟩ := hiff.1 rfl
    obtain ⟨i, hi⟩ := Option.isSome_iff_exists.1 hsome
    have hentry : NamesUserS (s.disk rootino).data _ := ⟨i, hi, rfl⟩
    obtain ⟨hfile, hlink⟩ := hb.userS _ hentry
    have hm : Mounted _ _ s.disk := ⟨hdir, hentry, rfl, hfile, hlink, hb.used⟩
    have hready : Ready s _ _ s.info [ip] t :=
      ⟨hr, hu.toGrip, hm.spared hr hu.toSpared, hu.info⟩
    refine ⟨_, _, hready.rebase, hw.namei_userS hr hentry _ t hn ip rfl, fun m hm' => ?_⟩
    obtain rfl := hentry.unique hm'
    exact ⟨rfl, rfl⟩
  | none =>
    obtain ⟨o, v, hc, hrun⟩ := bind_eq_ok.1 hrun
    obtain ⟨jp, ho, hrun⟩ := ofOption_bind_eq_ok.1 hrun
    rw [ho] at hc
    obtain ⟨_, _, hset, hrun⟩ := bind_eq_ok.1 hrun
    cases iupdate_eq_ok.1 hset
    obtain ⟨_, w, hput, hrun⟩ := bind_eq_ok.1 hrun
    cases pure_eq_ok.1 hrun
    rcases create_some hc with ⟨dp, name, x, y, hnp, hl, hd, hc⟩ | ⟨-, x, hnx, -, -⟩
    · obtain ⟨hx, hname⟩ := Walk.nameiparent hu hp _ x hnp
      obtain ⟨hinum, hname'⟩ := Walk.nameiparent_userS hu hr _ x hnp _ rfl
      dsimp only at hinum hname'
      subst hname'
      obtain ⟨hdir, hnone, hfull, rfl⟩ := dirlookup_eq_ok.1 hd
      obtain ⟨href, -⟩ := ilock_eq_ok.1 hl
      obtain ⟨m, hm⟩ := created_createNew (l := []) hx.toGrip.lock hdir
        (by simpa [Fs.lock] using href) (hname _ rfl) hnone hfull _ v hc ip rfl
      rw [Fs.inum_lock, hinum] at hm
      have hready : Ready s m _ s.info [ip] (v.setInode ip { v.inode ip with
          owner := cstr (ofList root) 16, permission := modeRusr ||| modeWusr }) :=
        ⟨hr, hm.grip.setInode _, (hm.mounted_userS hr).chown hm.inum, hm.info.trans hx.info⟩
      refine ⟨m, _, (hready.iunlockput _ t hput).rebase, ?_, fun k hk => ?_⟩
      · obtain ⟨-, -, heq⟩ := iunlockput_eq_ok.1 hput
        cases heq
        rw [Fs.inum_put, Fs.inum_unlock, Fs.icache_setInode, hm.inum]
      · -- the entry would have been found
        obtain ⟨i, hi, -⟩ := hk
        have hfresh := hm.fresh
        change findEntry userSName (x.disk rootino).data = none at hfresh
        rw [hx.toSpared.inUse hr.inUse, hi] at hfresh
        cases hfresh
    · -- the path did not lead to the file before
      have hx := (FileSystem.namei_userS hnx).1 rfl
      rw [Fs.HasUserS, hu.toSpared.inUse hr.inUse, hu.info] at hx
      cases hiff.2 hx

/-- The bytes that `myopen` reads from the file. -/
theorem readi_userS (h : d.type = .file) :
    (readi d typed 0 privSize).getD [] = d.data.take privSize := by
  rw [readi, if_neg (by rw [h]; decide), if_neg (Nat.not_lt_zero _)]
  rfl

/-- The rest of the file is not looked at. -/
theorem UserInfo.myopen_take (t : UserInfo) (userS : List UInt8) :
    t.myopen (userS.take privSize) = t.myopen userS := by
  have hpoke : poke (fun _ => fill) 0 (min (userS.take privSize).length privSize)
      (ofList (userS.take privSize)) =
      poke (fun _ => fill) 0 (min userS.length privSize) (ofList userS) := by
    funext a
    rw [poke, poke, List.length_take, min_comm privSize, min_assoc, min_self]
    split
    · rename_i ha
      simp only [ofList, Nat.sub_zero]
      rw [List.getD_eq_getElem?_getD, List.getD_eq_getElem?_getD,
        List.getElem?_take_of_lt (by omega)]
    · rfl
  rw [myopen, myopen, hpoke]

theorem Ready.loadUsers (h : Ready b₀ n d info [] s) :
    Yields (loadUsers p typed) s fun _ t =>
      Ready b₀ n (d.save (info.myopen d.data)) (info.myopen d.data) [] t := by
  refine ((h.walk.namei (h.rooted.homed p)).and
    (h.walk.namei_userS h.rooted h.mounted.entry)).bind fun o t hot => ?_
  obtain ⟨ht, hinum⟩ := hot
  refine yields_ofOption_bind fun ip hip => ?_
  subst hip
  intro _ u hrun
  obtain ⟨_, _, hl, hrun⟩ := bind_eq_ok.1 hrun
  obtain ⟨-, -, -, heq⟩ := ilock_eq_ok.1 hl
  cases heq
  rw [get_bind] at hrun
  have hready : Ready b₀ n d info [ip] (t.lock ip) := h.of_walk ((Walk.ilock ht) _ _ hl)
  have hip : ((t.lock ip).icache ip).inum = n := (Fs.inum_lock ip).trans (hinum ip rfl)
  have hinode : (t.lock ip).inode ip = d := by rw [Fs.inode, hip, hready.mounted.inode]
  rw [hinode, readi_userS h.mounted.file, hready.info, UserInfo.myopen_take] at hrun
  exact hready.save (x := FileSystem.iunlockput ip) hip (fun v hv => hv.iunlockput) _ u hrun

/-- Another entry of the root directory is overwritten with zeros. -/
theorem Ready.clear {name : List UInt8} {i : ℕ} (h : Ready b₀ n d info l s)
    (hi : findEntry name (s.disk rootino).data = some i) (hne : namecmp userSName name ≠ 0)
    (hu : (s.write 0 zeroDirent (16 * i)).used ≤ nblocks) :
    Ready b₀ n d info l (s.write 0 zeroDirent (16 * i)) := by
  have hd : (s.write 0 zeroDirent (16 * i)).disk = update s.disk rootino
      { s.disk rootino with data := clearData (s.disk rootino).data i } := by
    rw [Fs.write, Fs.setInode, Fs.inode, (h.rooted.of_grip h.grip).inum]
    rfl
  refine ⟨h.rooted, h.grip.setInode _, ?_, h.info⟩
  change usedBlocks (s.write 0 zeroDirent (16 * i)).disk ≤ nblocks at hu
  rw [hd] at hu ⊢
  refine ⟨?_, ?_, ?_, h.mounted.file, h.mounted.nlink, hu⟩
  · rw [update_self]
    exact h.mounted.dir
  · rw [update_self]
    exact h.mounted.entry.clearData hi hne
  · rw [update_of_ne h.mounted.ne_root]
    exact h.mounted.inode

/-- An entry of the root directory is overwritten with zeros, and its inode, which is a directory,
loses its links. -/
theorem Ready.unlinkDir {name : List UInt8} {i : ℕ} {type : InodeType}
    (h : Ready b₀ n d info [jp, 0] s) (hjn : (s.icache jp).inum ≠ n)
    (hi : findEntry name (s.disk rootino).data = some i) (hne : namecmp userSName name ≠ 0) :
    Yields (do
      let r ← writei 0 zeroDirent (16 * i)
      failIf (r ≠ 16) (.panic "unlink writei")
      dropDotdot type 0
      iupdate jp fun d => { d with nlink := short (d.nlink - 1) }
      FileSystem.iunlockput 0
      iupdate jp fun d => { d with nlink := short (d.nlink - 1) }
      FileSystem.iunlockput jp
      pure (0 : ℤ)) s fun _ t => Ready b₀ n d info [] t := by
  intro r t hrun
  have h0 : (s.icache 0).inum = rootino := (h.rooted.of_grip h.grip).inum
  obtain ⟨c, w, hwrite, hrun⟩ := bind_eq_ok.1 hrun
  rw [failIf_bind_eq_ok] at hrun
  obtain ⟨hc, hrun⟩ := hrun
  rcases writei_cases hwrite with ⟨hdev | hr, -⟩ | ⟨-, -, hused, -, rfl⟩
  · rw [Fs.inode, h0, h.mounted.dir] at hdev
    cases hdev
  · exact absurd (hr.trans_ne (by decide)) hc
  have hclear := h.clear hi hne hused
  have h0n : ((s.write 0 zeroDirent (16 * i)).icache 0).inum ≠ n :=
    h0 ▸ hclear.mounted.ne_root.symm
  obtain ⟨_, y, hdrop, hrun⟩ := bind_eq_ok.1 hrun
  have hy : Ready b₀ n d info [jp, 0] y ∧ (y.icache jp).inum ≠ n := by
    unfold dropDotdot at hdrop
    split at hdrop
    · cases iupdate_eq_ok.1 hdrop
      exact ⟨hclear.setInode h0n ⟨rfl, rfl⟩, hjn⟩
    · cases pure_eq_ok.1 hdrop
      exact ⟨hclear, hjn⟩
  obtain ⟨hy, hyn⟩ := hy
  obtain ⟨_, _, hset, hrun⟩ := bind_eq_ok.1 hrun
  cases iupdate_eq_ok.1 hset
  have hy := hy.setInode hyn (v := { y.inode jp with nlink := short ((y.inode jp).nlink - 1) })
    ⟨rfl, rfl⟩
  obtain ⟨_, z, hp, hrun⟩ := bind_eq_ok.1 hrun
  have hz := hy.swap.iunlockput _ z hp
  have hzn : (z.icache jp).inum ≠ n := by
    obtain ⟨-, -, heq⟩ := iunlockput_eq_ok.1 hp
    cases heq
    rw [Fs.inum_put, Fs.inum_unlock, Fs.icache_setInode]
    exact hyn
  obtain ⟨_, _, hset, hrun⟩ := bind_eq_ok.1 hrun
  cases iupdate_eq_ok.1 hset
  exact (hz.setInode hzn (by exact ⟨rfl, rfl⟩)).release (Q := fun _ t => Ready b₀ n d info [] t)
    (fun _ ht => ht) r t hrun

/-- The directory `tmp` is removed again, and the file `userS` is another inode. -/
theorem Ready.removeTmp (h : Ready b₀ n d info [] s)
    (hdir : ∀ {dp jp name i u v},
      (FileSystem.nameiparent p tmpPath).run s = .ok (some (dp, name), u) →
      (dirlookup dp name).run (u.lock dp) = .ok (some (jp, i), v) → (v.inode jp).type = .dir) :
    Yields (removeTmp p) s fun _ t => Ready t n d info [] t := by
  intro r t hrun
  obtain ⟨o, u, hn, hrun⟩ := bind_eq_ok.1 hrun
  obtain ⟨hu, -⟩ := h.walk.nameiparent (h.rooted.homed p) _ u hn
  rcases o with _ | ⟨dp, name⟩
  · cases pure_eq_ok.1 hrun
    exact (h.of_walk hu).rebase
  obtain ⟨hcwd, rfl, -, -⟩ := nameiparent_tmp hn
  obtain rfl := (h.rooted.of_grip h.grip).cwd p dp hcwd
  obtain ⟨_, _, hl, hrun⟩ := bind_eq_ok.1 hrun
  have hu := (Walk.ilock hu) _ _ hl
  obtain ⟨-, -, -, heq⟩ := ilock_eq_ok.1 hl
  cases heq
  obtain ⟨o, v, hd, hrun⟩ := bind_eq_ok.1 hrun
  have hv := (Walk.dirlookup hu) _ v hd
  rcases o with _ | ⟨jp, i⟩
  · exact (h.of_walk hv).release (Q := fun _ t => Ready t n d info [] t)
      (fun _ ht => ht.rebase) r t hrun
  have hdir := hdir hn hd
  have hfind := (dirlookup_eq_ok.1 hd).2
  rw [Fs.inode, (h.rooted.of_grip hu.toGrip).inum] at hfind
  have hdisk : v.disk = (u.lock 0).disk := iget_disk hfind.2
  rw [← hdisk] at hfind
  obtain ⟨_, _, hl, hrun⟩ := bind_eq_ok.1 hrun
  have hw := (Walk.ilock hv) _ _ hl
  obtain ⟨-, -, -, heq⟩ := ilock_eq_ok.1 hl
  cases heq
  have hw := h.of_walk hw
  have hjn : ((v.lock jp).icache jp).inum ≠ n := by
    rw [Fs.inum_lock]
    exact (hw.mounted.ne_of_dir (by exact hdir)).symm
  obtain ⟨_, _, hi, hrun⟩ := bind_eq_ok.1 hrun
  cases inode_eq_ok.1 hi
  rw [failIf_bind_eq_ok, failIf_bind_eq_ok] at hrun
  obtain ⟨-, -, hrun⟩ := hrun
  split at hrun
  · -- the reference to the directory is not given back
    exact hw.swap.release (Q := fun _ t => Ready t n d info [] t) (fun _ ht => ht.rebase) r t hrun
  · exact (hw.unlinkDir hjn hfind.1 (by decide) r t hrun).rebase

/-- From a boot, `sys_myopen` reads the table from the file, which may be new. -/
theorem myopen_yields (hr : Rooted s) (hb : Bootable s.disk) :
    Yields (sysMyopen p typed) s fun _ t => ∃ n d, Ready t n (d.save (s.info.myopen d.data))
      (s.info.myopen d.data) [] t ∧
      ∀ m, NamesUserS (s.disk rootino).data m → n = m ∧ d = s.disk m := by
  refine (makeUserS_yields hr hb).bind fun ip t hmade => ?_
  obtain ⟨n, d, ht, hinum, hsame⟩ := hmade
  intro r s' hrun
  obtain ⟨_, _, hput, hrun⟩ := bind_eq_ok.1 hrun
  obtain ⟨-, heq⟩ := iput_eq_ok.1 hput
  cases heq
  have hne : ip ≠ 0 := ht.rooted.ne_zero (hinum ▸ ht.mounted.ne_root)
  have hu : Ready (t.put ip) n d s.info [] (t.put ip) := by
    refine ⟨ht.rooted.put_of_ne hne, .init _, ?_, Fs.info_put.trans ht.info⟩
    rw [Fs.disk_put_of_nlink]
    · exact ht.mounted
    · rw [Fs.inode, hinum, ht.mounted.inode]
      exact ht.mounted.nlink
  obtain ⟨_, u, hl, hrun⟩ := bind_eq_ok.1 hrun
  have hu := hu.loadUsers _ u hl
  refine ⟨n, d, ?_, hsame⟩
  -- the directory `tmp` is made
  obtain ⟨o, v, hc, hrun⟩ := bind_eq_ok.1 hrun
  obtain ⟨jp, ho, hrun⟩ := ofOption_bind_eq_ok.1 hrun
  obtain ⟨w, name, k, m, hw, hv⟩ := hu.walk.create (hu.rooted.homed p) o v hc jp ho
  rw [ho] at hc
  obtain ⟨hready, -⟩ := hv.ready hu.rooted (hu.mounted.spared hu.rooted hw)
  rw [hw.info, hu.info] at hready
  obtain ⟨_, x, hp, hrun⟩ := bind_eq_ok.1 hrun
  exact (hready.iunlockput _ x hp).removeTmp
    (fun hn hd => (removeTmp_new hc hp hn hd).1) r s' hrun

end FileSystem
