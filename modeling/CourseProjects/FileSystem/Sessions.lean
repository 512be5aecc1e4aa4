import CourseProjects.FileSystem.Users
import CourseProjects.Lib.Reply

/-!
# Sessions

The system calls on the users, by any processes: the current user is one for all of them,
an index into the table, and only `root` adds and deletes users. A session remembers, for
the statements only, whose login changed the current user last (`auth`).

* `current_user_logged_in`: as long as `logout` does not leave the user of another slot, no
  login succeeds on an empty slot, and the counter `num` is not zero when it counts, the
  current user is the one that logged in last, with its password.
-/

namespace FileSystem

open CString

/-- The table, the file `userS`, and the last change of the current user: none so far, the login
    of a name with its password, or something else. -/
structure Session where
  info : UserInfo
  userS : List UInt8
  auth : Option (Option (List UInt8))

/-- The system calls. -/
inductive SessionCall
  | login (username passward : Str)
  | logout
  | addUser (username passward : Str)
  | deleteUser (username : Str)
  | myopen

namespace Session

variable (s : Session)

/-- `update`: the table is written to the file. -/
def update (t : UserInfo) : Session :=
  { s with info := t, userS := t.bytes ++ s.userS.drop privSize }

/-- The password is registered for the name. -/
def Registered (u p : Str) : Prop :=
  ∃ i, s.info.Used i ∧ key (s.info.name i) = key u ∧ key (s.info.password i) = key p

instance (u p : Str) : Decidable (s.Registered u p) :=
  inferInstanceAs (Decidable (∃ _, _ ∧ _ ∧ _))

/-- The current user is `root`. -/
def IsRoot : Prop := strncmp (ofList root) s.info.getNow 16 = 0

instance : Decidable s.IsRoot := inferInstanceAs (Decidable (_ = _))

/-- A system call. -/
def call : SessionCall → ℤ × Session
  | .login u p =>
    let r := s.info.login u p
    let auth := if r.1 = 0 then some (if s.Registered u p then some (key u) else none) else s.auth
    (r.1, { s with info := r.2, auth := auth })
  | .logout =>
    let r := s.info.logout
    let auth := if s.info.usingIdx = 0 then s.auth else s.auth.map fun _ => none
    (r.1, { s with info := r.2, auth := auth })
  | .addUser u p =>
    if s.IsRoot then
      let r := s.info.addUser u p
      if r.1 = 0 then (0, s.update r.2) else (-1, s)
    else (-1, s)
  | .deleteUser u =>
    if s.IsRoot then
      let r := s.info.deleteUser u
      if r.1 = 0 then (0, s.update r.2) else (-1, s)
    else (-1, s)
  | .myopen => (0, s.update (s.info.myopen s.userS))

/-- Before the first call of `myopen`, with whatever `userS` holds. -/
def boot (userS : List UInt8) : Session where
  info := .zero
  userS := userS
  auth := none

variable {s} {t : UserInfo} {e : SessionCall} {u p : Str} {i j : Fin nuser}

/-! ### The file and the table -/

/-- The file holds the table. -/
def Saved (s : Session) : Prop :=
  privSize ≤ s.userS.length ∧ ∀ a < privSize, s.userS.getD a 0 = s.info.priv a

theorem saved_update : (s.update t).Saved := by
  have hlen : t.bytes.length = privSize := by simp [UserInfo.bytes]
  refine ⟨by simp [update, hlen], fun a ha => ?_⟩
  simp only [update]
  rw [List.getD_append _ _ _ _ (by omega), List.getD_eq_getElem _ _ (by omega)]
  simp [UserInfo.bytes]

/-- The table is still that of the beginning, or the file holds it. -/
def Written (s : Session) : Prop :=
  (s.info.num = 0 ∧ ∀ i, key (s.info.name i) = []) ∨ s.Saved

theorem written_boot (userS : List UInt8) : Written (boot userS) :=
  .inl ⟨rfl, fun _ => rfl⟩

theorem Written.call (h : Written s) (e : SessionCall) : Written (s.call e).2 := by
  cases e with
  | login u p =>
    have hinfo : (s.info.login u p).2.num = s.info.num ∧
        (s.info.login u p).2.priv = s.info.priv := by
      rw [UserInfo.login]
      split
      · split <;> exact ⟨rfl, rfl⟩
      · exact ⟨rfl, rfl⟩
    rcases h with ⟨h0, hn⟩ | ⟨hl, hs⟩
    · refine .inl ⟨hinfo.1.trans h0, fun i => ?_⟩
      rw [← hn i]
      simp only [Session.call]
      unfold UserInfo.name
      rw [hinfo.2]
    · refine .inr ⟨hl, fun a ha => ?_⟩
      exact (hs a ha).trans (congrFun hinfo.2 a).symm
  | logout => exact h
  | addUser u p =>
    simp only [Session.call]
    split
    · split
      · exact .inr saved_update
      · exact h
    · exact h
  | deleteUser u =>
    simp only [Session.call]
    split
    · split
      · exact .inr saved_update
      · exact h
    · exact h
  | myopen => exact .inr saved_update

/-! ### The current user -/

/-- `logout` does not leave the user of another slot than the first, no login succeeds on an
    empty slot, or for another user than `root` while the counter is zero, and `myopen` does
    not bring the counter to zero once a user logged in. -/
def Sound (s : Session) : SessionCall → Prop
  | .login u p => ∀ i ∈ s.info.findUser u, key p = key (s.info.password i) →
      s.info.Used i ∧ (s.info.num = 0 → key u = root)
  | .logout => s.auth = none ∨ s.info.usingIdx = 0
  | .myopen => s.auth ≠ none → s.info.num + s.info.count ≠ 0
  | .addUser _ _ | .deleteUser _ => True

instance (s : Session) : DecidablePred (Sound s)
  | .login u p => inferInstanceAs (Decidable (∀ i ∈ s.info.findUser u,
      key p = key (s.info.password i) → s.info.Used i ∧ (s.info.num = 0 → key u = root)))
  | .logout => inferInstanceAs (Decidable (_ ∨ _))
  | .myopen => inferInstanceAs (Decidable (s.auth ≠ none → s.info.num + s.info.count ≠ 0))
  | .addUser _ _ | .deleteUser _ => isTrue trivial

/-- Once a user logged in, the current slot is that of the last one that did, with its
    password; and it is `root`, where the counter says that there is no user. -/
structure Authentic (s : Session) : Prop where
  written : Written s
  auth : ∀ o, s.auth = some o → o = some (key (s.info.name s.info.usingIdx)) ∧
    (s.info.num = 0 → key (s.info.name s.info.usingIdx) = root)

theorem Authentic.getNow (h : Authentic s) {o : Option (List UInt8)} (ho : s.auth = some o) :
    o = some (key s.info.getNow) := by
  obtain ⟨rfl, hroot⟩ := h.auth o ho
  rw [UserInfo.getNow]
  split
  · rw [hroot ‹_›]
    rfl
  · rfl

theorem isRoot_iff : s.IsRoot ↔ key s.info.getNow = root := by
  rw [IsRoot, strncmp_eq_zero_iff, eq_comm]
  rfl

/-- `myopen` reads the table that the file holds. -/
theorem Saved.myopen (h : s.Saved) (hc : t.num + s.info.count ≠ 0) :
    (∀ a < privSize, (t.myopen s.userS).priv a = s.info.priv a) ∧
      (t.myopen s.userS).num = t.num + s.info.count ∧
      (t.myopen s.userS).usingIdx = t.usingIdx := by
  have hpoke : ∀ a < privSize,
      poke (fun _ => fill) 0 (min s.userS.length privSize) (ofList s.userS) a = s.info.priv a := by
    intro a ha
    rw [← h.2 a ha, Nat.min_eq_right h.1, poke, if_pos (by omega)]
    rfl
  have hcount : UserInfo.count { t with
      priv := poke (fun _ => fill) 0 (min s.userS.length privSize) (ofList s.userS) } =
      s.info.count := by
    refine List.countP_congr fun i _ => ?_
    have hi : 34 * (i : ℕ) + 0 < privSize := by
      have := i.isLt
      simp only [nuser, privSize] at *
      omega
    simp only [UserInfo.name, hpoke _ hi]
    exact Iff.rfl
  simp only [UserInfo.myopen, hcount, if_neg hc, and_self, and_true]
  exact hpoke

/-- The names and the passwords are in the bytes that the file holds. -/
theorem name_congr {t t' : UserInfo} (h : ∀ a < privSize, t.priv a = t'.priv a) (i : Fin nuser) :
    key (t.name i) = key (t'.name i) ∧ key (t.password i) = key (t'.password i) := by
  have hi := i.isLt
  simp only [nuser, privSize] at hi h
  refine ⟨cstr_congr fun k hk => h _ ?_, cstr_congr fun k hk => h _ ?_⟩
  · omega
  · omega

/-- A call by `root` that keeps its slot keeps it the current user. -/
theorem Authentic.root_update (h : Authentic s) (hr : s.IsRoot)
    (hname : key (s.info.name s.info.usingIdx) = root → key (t.name s.info.usingIdx) = root)
    (ht : t.usingIdx = s.info.usingIdx) {o : Option (List UInt8)} (ho : s.auth = some o) :
    o = some (key (t.name t.usingIdx)) ∧ (t.num = 0 → key (t.name t.usingIdx) = root) := by
  have hnow := h.getNow ho
  obtain ⟨hcur, -⟩ := h.auth o ho
  have hroot : key (s.info.name s.info.usingIdx) = root := by
    rw [← isRoot_iff.1 hr]
    exact Option.some.inj (hcur.symm.trans hnow)
  rw [ht, hname hroot]
  exact ⟨hcur.trans (congrArg some hroot), fun _ => rfl⟩

theorem Authentic.call (h : Authentic s) (hs : s.Sound e) : Authentic (s.call e).2 := by
  refine ⟨h.written.call e, fun o ho => ?_⟩
  cases e with
  | login u p =>
    rcases s.info.login_cases u p with he | ⟨i, hf, hp, he⟩
    · simp only [Session.call, he] at ho ⊢
      exact h.auth o ho
    · obtain ⟨hused, hroot⟩ := hs i hf hp
      have hi : key (s.info.name i) = key u := UserInfo.findUser_some hf
      have hreg : s.Registered u p := ⟨i, hused, hi, hp.symm⟩
      simp only [Session.call, he, if_pos hreg, if_true, Option.some.injEq] at ho ⊢
      exact ⟨ho.symm.trans (congrArg some hi.symm), fun h0 => hi.trans (hroot h0)⟩
  | logout =>
    simp only [Session.call, UserInfo.logout] at ho ⊢
    rcases hs with hn | h0
    · simp [hn] at ho
    · rw [if_pos h0] at ho
      rw [← h0]
      exact h.auth o ho
  | addUser u p =>
    simp only [Session.call] at ho ⊢
    by_cases hr : s.IsRoot
    · rcases s.info.addUser_cases u p with he | ⟨i, hf, -, he⟩
      · simp only [he, if_pos hr] at ho ⊢
        exact h.auth o ho
      · simp only [he, if_pos hr, if_true, update] at ho ⊢
        refine h.root_update (t := { s.info.setUser i u p with num := s.info.num + 1 }) hr
          (fun hroot => ?_) rfl ho
        -- The slot that is filled is not that of the current user.
        have hne : s.info.usingIdx ≠ i := by
          rintro rfl
          have hx := UserInfo.findEmpty_some hf
          rw [UserInfo.name_zero, hroot] at hx
          exact absurd hx (by decide)
        exact (UserInfo.name_setUser.trans (if_neg hne)).trans hroot
    · simp only [if_neg hr] at ho ⊢
      exact h.auth o ho
  | deleteUser u =>
    simp only [Session.call] at ho ⊢
    by_cases hr : s.IsRoot
    · rcases s.info.deleteUser_cases u with he | ⟨i, hu, hf, he⟩
      · simp only [he, if_pos hr] at ho ⊢
        exact h.auth o ho
      · simp only [he, if_pos hr, if_true, update] at ho ⊢
        refine h.root_update (t := { s.info.clear i with num := s.info.num - 1 }) hr
          (fun hroot => ?_) rfl ho
        have hne : s.info.usingIdx ≠ i := by
          rintro rfl
          exact hu ((UserInfo.findUser_some hf).symm.trans hroot)
        exact (UserInfo.name_clear.trans (if_neg hne)).trans hroot
    · simp only [if_neg hr] at ho ⊢
      exact h.auth o ho
  | myopen =>
    have ho' : s.auth = some o := ho
    obtain ⟨hcur, hroot⟩ := h.auth o ho'
    have hc := hs (by rw [ho']; exact Option.some_ne_none o)
    have hsaved : s.Saved := by
      refine h.written.resolve_left fun ⟨h0, hname⟩ => ?_
      exact absurd ((hname _).symm.trans (hroot h0)) (by decide)
    obtain ⟨hpriv, hnum, hidx⟩ := hsaved.myopen hc
    simp only [Session.call, update, (name_congr hpriv _).1, hnum, hidx]
    exact ⟨hcur, fun h0 => absurd h0 hc⟩

/-- In every run from before the first `myopen`, with whatever `userS` holds, whose calls are
    sound: once a user logged in, the current user is the one whose login, with the password
    registered for it then, changed the current user last. -/
theorem current_user_logged_in {userS : List UInt8} {es : List SessionCall}
    (hs : Reply.Along call Sound (boot userS) es) :
    let s := (Reply.replies call (boot userS) es).2
    ∀ o, s.auth = some o → o = some (key s.info.getNow) := by
  intro s o ho
  have h : Authentic s := Reply.replies_inv (fun s e h hs => h.call hs)
    ⟨written_boot userS, fun o ho => by cases ho⟩ hs
  exact h.getNow ho

/-- The users `root` and `bob` log in. -/
def bobLogin : List SessionCall :=
  let bob := ofList [98, 111, 98]
  let pw := ofList [112, 119]
  [.myopen, .login (ofList root) (ofList rootPassword), .addUser bob pw, .login bob pw]

theorem current_user_logged_in_bobLogin :
    let s := (Reply.replies call (boot []) bobLogin).2
    s.auth = some (some [98, 111, 98]) ∧ key s.info.getNow = [98, 111, 98] := by
  have ha : (Reply.replies call (boot []) bobLogin).2.auth = some (some [98, 111, 98]) := by
    decide +kernel
  have h := current_user_logged_in
    (show Reply.Along call Sound (boot []) bobLogin by decide +kernel) _ ha
  exact ⟨ha, (Option.some.inj h).symm⟩

/-- The user `bob` logs out, and is `root`. -/
theorem logout_becomes_root :
    let s := (Reply.replies call (boot []) (bobLogin ++ [.logout])).2
    s.auth = some none ∧ key s.info.getNow = root := by
  decide +kernel

end Session
end FileSystem
