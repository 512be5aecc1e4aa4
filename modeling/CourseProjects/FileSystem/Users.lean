import CourseProjects.Lib.CString

/-!
# The users

The table of the users of the file system, `user_info`: the name and the password of a
user are two arrays of seventeen bytes, of which `strncmp` and `strncpy` use sixteen, and
an empty slot is filled with the letter x. The file `userS` holds a copy of the table.
-/

namespace FileSystem

open CString

/-- The name of the first user. -/
def root : List UInt8 := [114, 111, 111, 116]

/-- Its first password. -/
def rootPassword : List UInt8 := [48, 48, 48, 48]

/-- The letter x, with which the empty slots are filled. -/
def fill : UInt8 := 120

/-- What the sixteen bytes that count of an empty slot are. -/
def blank : List UInt8 := List.replicate 16 fill

/-- The number of slots that the loops go through. -/
abbrev nuser : ℕ := 10

instance : NeZero nuser := ⟨by decide⟩

/-- The size of `priv`, eleven slots of two arrays of seventeen bytes. -/
def privSize : ℕ := 374

/-- `user_info`, with the memory of `priv`, and `initial`. -/
structure UserInfo where
  usingIdx : Fin nuser
  priv : Str
  num : ℤ
  initial : Bool

/-- Before the first call of `myopen`, all is zero. -/
def UserInfo.zero : UserInfo where
  usingIdx := 0
  priv := fun _ => 0
  num := 0
  initial := false

/-- Bytes are copied into a memory. -/
def poke (m : Str) (off n : ℕ) (s : Str) : Str :=
  fun a => if off ≤ a ∧ a < off + n then s (a - off) else m a

namespace UserInfo

variable (t : UserInfo)

/-- `priv[i][0]`. -/
def name (i : Fin nuser) : Str := fun k => t.priv (34 * i + k)

/-- `priv[i][1]`. -/
def password (i : Fin nuser) : Str := fun k => t.priv (34 * i + 17 + k)

/-- The first slot of a name. -/
def findUser (username : Str) : Option (Fin nuser) :=
  (List.finRange nuser).find? fun i => strncmp username (t.name i) 16 = 0

def getNow : Str := if t.num = 0 then ofList root else t.name t.usingIdx

def login (username passward : Str) : ℤ × UserInfo :=
  match t.findUser username with
  | some i =>
    if strncmp passward (t.password i) 16 = 0 then (0, { t with usingIdx := i }) else (-1, t)
  | none => (-1, t)

def logout : ℤ × UserInfo := (0, { t with usingIdx := 0 })

def findEmpty : Option (Fin nuser) := (List.finRange nuser).find? fun i => t.name i 0 = fill

/-- A name and a password are copied into a slot. -/
def setUser (i : Fin nuser) (username passward : Str) : UserInfo :=
  let priv := poke t.priv (34 * i) 16 (strncpy (t.name i) username 16)
  { t with priv := poke priv (34 * i + 17) 16 (strncpy (t.password i) passward 16) }

/-- `addUser`, up to the copy of the table into `userS`, which follows a success. -/
def addUser (username passward : Str) : ℤ × UserInfo :=
  match t.findEmpty with
  | none => (-1, t)
  | some idx =>
    if t.findUser username ≠ none then (-1, t)
    else (0, { t.setUser idx username passward with num := t.num + 1 })

/-- A slot is filled with x. -/
def clear (i : Fin nuser) : UserInfo := { t with priv := poke t.priv (34 * i) 34 fun _ => fill }

/-- `deleteUser`, up to the copy of the table into `userS`, which follows a success. -/
def deleteUser (username : Str) : ℤ × UserInfo :=
  if strncmp username (ofList root) 16 = 0 then (-1, t)
  else
    match t.findUser username with
    | some i => (0, { t.clear i with num := t.num - 1 })
    | none => (-1, t)

/-- The slots in use. -/
def count : ℕ := (List.finRange nuser).countP fun i => t.name i 0 ≠ fill

/-- `myopen`, up to the copy of the table into `userS`: the table is read from the file. -/
def myopen (userS : List UInt8) : UserInfo :=
  let priv := poke (fun _ => fill) 0 (min userS.length privSize) (ofList userS)
  let t := { t with priv := priv }
  let t := { t with num := t.num + t.count }
  let t := if t.num = 0 then { t.setUser 0 (ofList root) (ofList rootPassword) with num := 1 }
    else t
  { t with initial := true }

/-- The table, as `update` writes it. -/
def bytes : List UInt8 := (List.range privSize).map t.priv

end UserInfo

/-! ### Names and passwords -/

/-- The bytes of a string that count. -/
def key (s : Str) : List UInt8 := cstr s 16

namespace UserInfo

variable {t : UserInfo} {i j : Fin nuser} {u p : Str}

/-- The table has an entry in the slot. -/
def Used (t : UserInfo) (i : Fin nuser) : Prop := key (t.name i) ≠ blank

instance (t : UserInfo) : DecidablePred t.Used := fun _ => inferInstanceAs (Decidable (_ ≠ _))

theorem name_setUser :
    key ((t.setUser i u p).name j) = if j = i then key u else key (t.name j) := by
  split
  · rename_i h
    subst h
    rw [key, key, ← cstr_strncpy u (t.name j)]
    refine cstr_congr fun k hk => ?_
    simp only [name, setUser, poke]
    rw [if_neg (by omega), if_pos (by omega), Nat.add_sub_cancel_left]
  · refine cstr_congr fun k hk => ?_
    have : (j : ℕ) ≠ i := fun h' => ‹¬ j = i› (Fin.ext h')
    simp only [name, setUser, poke]
    rw [if_neg (by omega), if_neg (by omega)]

theorem password_setUser :
    key ((t.setUser i u p).password j) = if j = i then key p else key (t.password j) := by
  split
  · rename_i h
    subst h
    rw [key, key, ← cstr_strncpy p (t.password j)]
    refine cstr_congr fun k hk => ?_
    simp only [password, setUser, poke]
    rw [if_pos (by omega), Nat.add_sub_cancel_left]
  · refine cstr_congr fun k hk => ?_
    have : (j : ℕ) ≠ i := fun h' => ‹¬ j = i› (Fin.ext h')
    simp only [password, setUser, poke]
    rw [if_neg (by omega), if_neg (by omega)]

theorem name_clear : key ((t.clear i).name j) = if j = i then blank else key (t.name j) := by
  split
  · rename_i h
    subst h
    refine cstr_fill (by decide) fun k hk => ?_
    simp only [name, clear, poke]
    rw [if_pos (by omega)]
  · refine cstr_congr fun k hk => ?_
    have : (j : ℕ) ≠ i := fun h' => ‹¬ j = i› (Fin.ext h')
    simp only [name, clear, poke]
    rw [if_neg (by omega)]

theorem password_clear :
    key ((t.clear i).password j) = if j = i then blank else key (t.password j) := by
  split
  · rename_i h
    subst h
    refine cstr_fill (by decide) fun k hk => ?_
    simp only [password, clear, poke]
    rw [if_pos (by omega)]
  · refine cstr_congr fun k hk => ?_
    have : (j : ℕ) ≠ i := fun h' => ‹¬ j = i› (Fin.ext h')
    simp only [password, clear, poke]
    rw [if_neg (by omega)]

/-- The first byte of a name is that of what counts of it. -/
theorem name_zero : t.name i 0 = (key (t.name i)).head?.getD 0 := head?_cstr (by decide)

theorem name_zero_of_free (h : ¬ t.Used i) : t.name i 0 = fill := by
  rw [name_zero, not_not.1 h]
  rfl

/-! ### The searches -/

theorem findUser_some (h : t.findUser u = some i) : key (t.name i) = key u := by
  have := List.find?_some h
  exact (strncmp_eq_zero_iff.1 (of_decide_eq_true this)).symm

theorem findUser_none : t.findUser u = none ↔ ∀ i, key (t.name i) ≠ key u := by
  simp only [findUser, List.find?_eq_none, List.mem_finRange, true_imp_iff, decide_eq_true_eq,
    strncmp_eq_zero_iff, key]
  exact forall_congr' fun i => not_congr eq_comm

theorem findEmpty_some (h : t.findEmpty = some i) : t.name i 0 = fill := by
  simpa using List.find?_some h

theorem findEmpty_none : t.findEmpty = none ↔ ∀ i, t.name i 0 ≠ fill := by
  simp [findEmpty]

/-! ### What the calls do -/

theorem login_cases (t : UserInfo) (u p : Str) :
    t.login u p = (-1, t) ∨ ∃ i, t.findUser u = some i ∧ key p = key (t.password i) ∧
      t.login u p = (0, { t with usingIdx := i }) := by
  rw [login]
  split
  · rename_i i hf
    split
    · exact .inr ⟨i, hf, strncmp_eq_zero_iff.1 ‹_›, rfl⟩
    · exact .inl rfl
  · exact .inl rfl

theorem addUser_cases (t : UserInfo) (u p : Str) :
    t.addUser u p = (-1, t) ∨ ∃ i, t.findEmpty = some i ∧ t.findUser u = none ∧
      t.addUser u p = (0, { t.setUser i u p with num := t.num + 1 }) := by
  rw [addUser]
  split
  · exact .inl rfl
  · rename_i i he
    split
    · exact .inl rfl
    · exact .inr ⟨i, he, not_not.1 ‹_›, rfl⟩

theorem deleteUser_cases (t : UserInfo) (u : Str) :
    t.deleteUser u = (-1, t) ∨ ∃ i, key u ≠ root ∧ t.findUser u = some i ∧
      t.deleteUser u = (0, { t.clear i with num := t.num - 1 }) := by
  rw [deleteUser]
  split
  · exact .inl rfl
  · rename_i hr
    split
    · rename_i i hf
      exact .inr ⟨i, fun h => hr (strncmp_eq_zero_iff.2 h), hf, rfl⟩
    · exact .inl rfl

end UserInfo
end FileSystem
