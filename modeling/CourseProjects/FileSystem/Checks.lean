import CourseProjects.FileSystem.Rights

/-!
# The checks of the permission

Seven checks go through `get_modeBit`, each with the bit of the owner and that of the others:
three modes of `open`, the parent in `unlink`, `chdir`, `exec`, and the directories on a path.
`own_mode&(ip->permission)==0` compares the permission with zero first, and none of the bits
of the owner is the lowest one, so nothing is refused to the owner or to `root`.

* `sysOpen_guarded`, `sysChdir_guarded`, `sysUnlink_guarded`, `exec_guarded`,
  `namexLoop_guarded`: where the calls make the checks;
* `check_iff`: a check grants what the bits say if and only if the user is neither the owner
  nor `root`, or the bits of the owner are set.
-/

namespace FileSystem

open Function Tx

/-- The places that check the permission of an inode. -/
inductive Check
  | openRdonly
  | openWronly
  | openRdwr
  | chdir
  | unlink
  | exec
  | traverse
  deriving DecidableEq

namespace Check

/-- The bits that a place asks for: those of the owner, each with that of the others. -/
def bits : Check → List (UInt32 × UInt32)
  | openRdonly => [(modeRusr, modeRoth)]
  | openWronly => [(modeWusr, modeWoth)]
  | openRdwr => [(modeWusr, modeWoth), (modeRusr, modeRoth)]
  | unlink => [(modeWusr, modeWoth)]
  | chdir | exec | traverse => [(modeXusr, modeXoth)]

/-- When a place refuses: `chdir` compares the bit with one, the others with zero. -/
def Refuses (t : UserInfo) (d : Dinode) : Check → Prop
  | openRdonly => getModeBit t d modeRusr modeRoth = 0
  | openWronly => getModeBit t d modeWusr modeWoth = 0
  | openRdwr => getModeBit t d modeWusr modeWoth = 0 ∨ getModeBit t d modeRusr modeRoth = 0
  | unlink => getModeBit t d modeWusr modeWoth = 0
  | chdir => getModeBit t d modeXusr modeXoth ≠ 1
  | exec | traverse => getModeBit t d modeXusr modeXoth = 0

instance (t : UserInfo) (d : Dinode) : ∀ c : Check, Decidable (c.Refuses t d)
  | openRdonly | openWronly | unlink | exec | traverse => inferInstanceAs (Decidable (_ = _))
  | openRdwr => inferInstanceAs (Decidable (_ ∨ _))
  | chdir => inferInstanceAs (Decidable (_ ≠ _))

/-- What the permission says: the bits of the owner count for the owner and for `root`, those
of the others for everybody else. -/
def Granted (t : UserInfo) (d : Dinode) (c : Check) : Prop :=
  ∀ b ∈ c.bits, (if t.Owns d ∨ t.IsRoot then b.1 else b.2) &&& d.permission ≠ 0

instance (t : UserInfo) (d : Dinode) (c : Check) : Decidable (c.Granted t d) :=
  inferInstanceAs (Decidable (∀ _ ∈ _, _))

/-! ### Where the checks are -/

/-- The inode is given back when the check refuses, and otherwise the call goes on. -/
def guard {α : Type} (c : Check) (s : Fs) (ip : Fin ninode) (refuse : α) (rest : Op α) : Op α :=
  if c.Refuses s.info (s.inode ip) then do
    iunlockput ip
    pure refuse
  else
    rest

/-- The check that `open` makes in a mode, when it makes one. -/
def ofMode (omode : UInt32) : Option Check :=
  if omode = oRdonly then some openRdonly
  else if omode = oWronly then some openWronly
  else if omode = oRdwr then some openRdwr
  else none

end Check

variable {p : Fin nproc} {path : CharPtr}

theorem exec_guarded (r : ℤ) : ∃ rest : Fin ninode → Fs → Op ℤ,
    exec p path r = (do
      match ← namei p path with
      | none => pure (-1)
      | some ip => do
        ilock ip
        let s ← get
        Check.exec.guard s ip (-1) (rest ip s)) :=
  ⟨_, rfl⟩

theorem sysUnlink_guarded : ∃ rest : Fin ninode → List UInt8 → Fs → Op ℤ,
    sysUnlink p path = (do
      match ← nameiparent p path with
      | none => pure (-1)
      | some (dp, name) => do
        ilock dp
        let s ← get
        Check.unlink.guard s dp (-1) (rest dp name s)) :=
  ⟨_, rfl⟩

/-- The type is looked at first. -/
theorem sysChdir_guarded : ∃ rest : Fin ninode → Fs → Op ℤ,
    sysChdir p path = (do
      match ← namei p path with
      | none => pure (-1)
      | some ip => do
        ilock ip
        let s ← get
        if (s.inode ip).type ≠ .dir then do
          iunlockput ip
          pure (-1)
        else
          Check.chdir.guard s ip (-1) (rest ip s)) :=
  ⟨_, rfl⟩

/-- A directory is checked before anything is looked up in it, or returned as the parent. -/
theorem namexLoop_guarded (b : Bool) (name : List UInt8) (rest : List (List UInt8))
    (ip : Fin ninode) : ∃ next : Fs → Op (Option (Fin ninode × List UInt8)),
    namexLoop b (name :: rest) ip = (do
      ilock ip
      let s ← get
      if (s.inode ip).type ≠ .dir then do
        iunlockput ip
        pure none
      else
        Check.traverse.guard s ip none (next s)) :=
  ⟨_, rfl⟩

/-- What `open` tests in a mode. -/
theorem Check.refuses_ofMode {omode : UInt32} {c : Check} {t : UserInfo} {d : Dinode}
    (h : ofMode omode = some c) : c.Refuses t d ↔
      (omode = oWronly ∨ omode = oRdwr) ∧ getModeBit t d modeWusr modeWoth = 0 ∨
        (omode = oRdonly ∨ omode = oRdwr) ∧ getModeBit t d modeRusr modeRoth = 0 := by
  have h₀ : oRdonly ≠ oWronly ∧ oRdonly ≠ oRdwr := by decide
  have h₁ : oWronly ≠ oRdonly ∧ oWronly ≠ oRdwr := by decide
  have h₂ : oRdwr ≠ oRdonly ∧ oRdwr ≠ oWronly := by decide
  unfold ofMode at h
  split_ifs at h with hr hw hrw
  · cases h
    simp only [hr, h₀, Refuses, false_or, true_or, true_and, false_and]
  · cases h
    simp only [hw, h₁, Refuses, or_false, true_and, false_and]
  · cases h
    simp only [hrw, Refuses, or_true, true_and]

/-- In each of the three modes, the inode is checked before it gets a descriptor. -/
theorem sysOpen_guarded {omode : UInt32} {c : Check} (h : Check.ofMode omode = some c) :
    ∃ rest : Fin ninode → Fs → Op ℤ,
    sysOpen p path omode = (do
      match ← openInode p path omode with
      | none => pure (-1)
      | some ip => do
        let s ← get
        c.guard s ip (-1) (rest ip s)) := by
  refine ⟨?rest, ?_⟩
  swap
  unfold sysOpen
  congr 1
  funext r
  cases r with
  | none => rfl
  | some ip =>
    refine congrArg (get >>= ·) (funext fun s => ?_)
    have hrefuse := Check.refuses_ofMode (t := s.info) (d := s.inode ip) h
    by_cases hw : (omode = oWronly ∨ omode = oRdwr) ∧
        getModeBit s.info (s.inode ip) modeWusr modeWoth = 0
    · rw [Check.guard, if_pos hw, if_pos (hrefuse.2 (.inl hw))]
    · by_cases hr : (omode = oRdonly ∨ omode = oRdwr) ∧
          getModeBit s.info (s.inode ip) modeRusr modeRoth = 0
      · rw [Check.guard, if_neg hw, if_pos hr, if_pos (hrefuse.2 (.inr hr))]
      · have hpass : ¬ c.Refuses s.info (s.inode ip) := fun h => (hrefuse.1 h).elim hw hr
        rw [Check.guard, if_neg hw, if_neg hr]
        exact (if_neg hpass).symm

/-! ### What they grant -/

variable {t : UserInfo} {d : Dinode}

/-- Nothing is refused to the owner or to `root`. -/
theorem getModeBit_own {own oth : UInt32} (hinit : t.initial = true) (ho : t.Owns d ∨ t.IsRoot)
    (hown : own &&& 1 = 0) : getModeBit t d own oth = 1 := by
  have hbit : own &&& (if d.permission = 0 then 1 else 0) = 0 := by
    split
    · exact hown
    · simp
  rw [getModeBit, if_neg (by rw [hinit]; decide), if_pos ho, if_neg (not_not.2 hbit)]

namespace Check

/-- No bit of the owner is the lowest one. -/
theorem own_ne_one (c : Check) : ∀ b ∈ c.bits, b.1 &&& 1 = 0 := by
  intro b hb
  cases c
  all_goals
    simp only [bits, List.mem_cons, List.not_mem_nil, or_false] at hb
    rcases hb with rfl | rfl
    all_goals decide

/-- A place refuses when one of its bits is missing. -/
theorem refuses_iff (c : Check) :
    c.Refuses t d ↔ ∃ b ∈ c.bits, getModeBit t d b.1 b.2 = 0 := by
  have hbit : ∀ own oth, getModeBit t d own oth ≠ 1 ↔ getModeBit t d own oth = 0 := by
    intro own oth
    unfold getModeBit
    split_ifs <;> simp
  cases c
  case chdir => simpa only [Refuses, bits, List.mem_singleton, exists_eq_left] using hbit _ _
  case openRdwr => simp only [Refuses, bits, List.mem_cons, List.not_mem_nil, or_false,
    exists_eq_or_imp, exists_eq_left]
  all_goals simp only [Refuses, bits, List.mem_singleton, exists_eq_left]

/-- Once the users are there, a check grants what the permission says if and only if the user
is neither the owner nor `root`, or has the bits of the owner. -/
theorem check_iff (c : Check) (t : UserInfo) (d : Dinode) (hinit : t.initial = true) :
    (¬ c.Refuses t d ↔ c.Granted t d) ↔
      ¬ t.Owns d ∧ ¬ t.IsRoot ∨ ∀ b ∈ c.bits, b.1 &&& d.permission ≠ 0 := by
  rw [refuses_iff, ← not_or]
  by_cases ho : t.Owns d ∨ t.IsRoot
  · have hpass : ¬ ∃ b ∈ c.bits, getModeBit t d b.1 b.2 = 0 := by
      rintro ⟨b, hb, h⟩
      rw [getModeBit_own hinit ho (c.own_ne_one b hb)] at h
      cases h
    rw [iff_true_left hpass, Granted]
    simp only [ho, if_true, not_true, false_or]
  · refine iff_of_true ?_ (.inl ho)
    obtain ⟨hown, hroot⟩ := not_or.1 ho
    rw [Granted]
    simp only [if_neg ho]
    constructor
    · intro h b hb
      exact (getModeBit_other hinit hroot hown).1 fun h0 => h ⟨b, hb, h0⟩
    · rintro h ⟨b, hb, h0⟩
      exact (getModeBit_other hinit hroot hown).2 (h b hb) h0

/-- `root` takes all rights away from a file of its own. -/
def noRights : List (Fin nproc × Call) :=
  [(0, .myopen []), (0, .openPath filePath (oCreate ||| oRdwr)), (0, .chmod filePath 0)]

/-- The permission of the file that `open` returns, once the users are there, when the check
passes. -/
def passed (s : Fs) (c : Check) (omode : UInt32) : Option UInt32 :=
  match opened s 0 filePath omode with
  | some (_, n, _) =>
    if s.info.initial = true ∧ ¬ c.Refuses s.info (s.disk n) then some (s.disk n).permission
    else none
  | none => none

theorem passed_eq_some {s : Fs} {c : Check} {omode permission : UInt32}
    (h : passed s c omode = some permission) : ∃ v n s', opened s 0 filePath omode =
      some (v, n, s') ∧ s.info.initial = true ∧ ¬ c.Refuses s.info (s.disk n) ∧
      (s.disk n).permission = permission := by
  unfold passed at h
  split at h
  · next v n s' ho =>
    split at h
    · next hc => exact ⟨v, n, s', ho, hc.1, hc.2, Option.some.inj h⟩
    · cases h
  · cases h

/-- `root` still opens the file for reading. -/
theorem owner_not_checked : ∃ s v n s', Trace.run step (boot (mkfs [])) noRights = some s ∧
    s.info.initial = true ∧ opened s 0 filePath oRdonly = some (v, n, s') ∧
    ¬ (¬ openRdonly.Refuses s.info (s.disk n) ↔ openRdonly.Granted s.info (s.disk n)) := by
  have h : (Trace.run step (boot (mkfs [])) noRights).bind (passed · openRdonly oRdonly) =
      some 0 := by
    decide +kernel
  obtain ⟨s, hs, h⟩ := Option.bind_eq_some_iff.1 h
  obtain ⟨v, n, s', ho, hinit, hpass, hzero⟩ := passed_eq_some h
  refine ⟨s, v, n, s', hs, hinit, ho, fun hiff => ?_⟩
  have hbit := hiff.1 hpass _ List.mem_cons_self
  rw [hzero] at hbit
  exact hbit (by simp)

/-- The rights of the owner are there on the file that others may only write to. -/
theorem check_bob : ∃ s v n s', Trace.run step (boot (mkfs [])) writeOnly = some s ∧
    opened s 0 filePath oWronly = some (v, n, s') ∧
    (¬ openWronly.Refuses s.info (s.disk n) ↔ openWronly.Granted s.info (s.disk n)) := by
  have h : (Trace.run step (boot (mkfs [])) writeOnly).bind (passed · openWronly oWronly) =
      some (modeWusr ||| modeWoth) := by
    decide +kernel
  obtain ⟨s, hs, h⟩ := Option.bind_eq_some_iff.1 h
  obtain ⟨v, n, s', ho, hinit, -, hboth⟩ := passed_eq_some h
  refine ⟨s, v, n, s', hs, ho, (check_iff openWronly s.info (s.disk n) hinit).2 (.inr ?_)⟩
  intro b hb
  obtain rfl := List.mem_singleton.1 hb
  rw [hboth]
  decide

end Check

end FileSystem
