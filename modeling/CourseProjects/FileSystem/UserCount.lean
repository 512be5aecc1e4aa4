import CourseProjects.FileSystem.Sessions

/-!
# The number of users

`user_info.num` is counted up and down by the functions on the users, and `myopen` adds to it what it
finds in the file. Each function decides on its own what an empty slot is: `find_empty` and `myopen`
read the first letter of the name, `deleteUser` compares names.

* `num_exact_iff`: the counter is the number of the registered users in every state of a run exactly
  when no call of it is one of those that miscount (`Counting`).
-/

namespace FileSystem

open CString

namespace UserInfo

variable {t : UserInfo} {i j : Fin nuser} {u p : Str} {n : ℤ}

/-- The registered users: none before the first `myopen`, when the table holds no names. -/
def registered (t : UserInfo) : ℕ := if t.initial then (Finset.univ.filter t.Used).card else 0

/-- The counter is the number of the users, of which there is one after the first `myopen`. -/
structure Counted (t : UserInfo) : Prop where
  num : t.num = t.registered
  ne_zero : t.initial = true → t.num ≠ 0

/-- The table that the file holds, x where it is shorter. -/
def load (t : UserInfo) (userS : List UInt8) : UserInfo :=
  { t with priv := poke (fun _ => fill) 0 (min userS.length privSize) (ofList userS) }

theorem count_eq_card (t : UserInfo) :
    t.count = (Finset.univ.filter fun i => t.name i 0 ≠ fill).card :=
  List.countP_eq_length_filter

theorem count_eq_zero : t.count = 0 ↔ ∀ i, t.name i 0 = fill := by
  simp [count, List.countP_eq_zero]

theorem used_of_ne_fill (h : t.name i 0 ≠ fill) : t.Used i := fun hi => h (name_zero_of_free (not_not.2 hi))

theorem used_setUser (h : key u ≠ blank) :
    Finset.univ.filter (t.setUser i u p).Used = insert i (Finset.univ.filter t.Used) := by
  ext j
  rw [Finset.mem_insert, Finset.mem_filter_univ, Finset.mem_filter_univ, Used, name_setUser, Used]
  rcases eq_or_ne j i with rfl | hj
  · rw [if_pos rfl]
    exact iff_of_true h (.inl rfl)
  · rw [if_neg hj, or_iff_right hj]

theorem used_setUser_subset (hi : t.Used i) :
    Finset.univ.filter (t.setUser i u p).Used ⊆ Finset.univ.filter t.Used := by
  intro j hj
  rw [Finset.mem_filter_univ, Used, name_setUser] at hj
  rw [Finset.mem_filter_univ]
  rcases eq_or_ne j i with rfl | hne
  · exact hi
  · rwa [if_neg hne] at hj

theorem used_clear :
    Finset.univ.filter (t.clear i).Used = (Finset.univ.filter t.Used).erase i := by
  ext j
  rw [Finset.mem_erase, Finset.mem_filter_univ, Finset.mem_filter_univ, Used, name_clear, Used]
  rcases eq_or_ne j i with rfl | hj
  · rw [if_pos rfl]
    exact iff_of_false (not_not.2 rfl) fun h => h.1 rfl
  · rw [if_neg hj, and_iff_right hj]

/-- The name of a new user is blank only where a slot is, in which case it is found. -/
theorem key_ne_blank (h : t.findUser u = none) (hi : ¬ t.Used i) : key u ≠ blank :=
  fun hu => findUser_none.1 h i ((not_not.1 hi).trans hu.symm)

theorem registered_of_initial (h : t.initial = true) :
    t.registered = (Finset.univ.filter t.Used).card := if_pos h

theorem Counted.congr {t' : UserInfo} (h : t.Counted) (hn : t'.num = t.num)
    (hi : t'.initial = t.initial) (hu : ∀ i, t'.Used i ↔ t.Used i) : t'.Counted := by
  have hr : t'.registered = t.registered := by
    rw [registered, registered, hi, Finset.filter_congr fun i _ => hu i]
  exact ⟨by rw [hn, hr, h.num], by rw [hi, hn]; exact h.ne_zero⟩

/-- The counter goes up with the users when the slot was empty. -/
theorem counted_setUser_iff (h : t.Counted) (hinit : t.initial = true) (hf : t.findUser u = none) :
    Counted { t.setUser i u p with num := t.num + 1 } ↔ ¬ t.Used i := by
  have hnum : t.num = (Finset.univ.filter t.Used).card := by
    rw [h.num, registered_of_initial hinit]
  have hreg : registered { t.setUser i u p with num := t.num + 1 } =
      (Finset.univ.filter (t.setUser i u p).Used).card := if_pos hinit
  constructor
  · rintro ⟨hn, -⟩ hi
    have hsub : Finset.univ.filter (t.setUser i u p).Used ⊆ Finset.univ.filter t.Used :=
      used_setUser_subset hi
    have hle := Finset.card_le_card hsub
    rw [hreg] at hn
    change t.num + 1 = _ at hn
    omega
  · intro hi
    have hcard : (Finset.univ.filter (t.setUser i u p).Used).card =
        (Finset.univ.filter t.Used).card + 1 := by
      rw [used_setUser (key_ne_blank hf hi), Finset.card_insert_of_notMem (by simpa using hi)]
    refine ⟨?_, fun _ => ?_⟩
    · rw [hreg, hcard, Nat.cast_add, ← hnum]
      rfl
    · change t.num + 1 ≠ 0
      omega

/-- The counter goes down with the users when the slot was that of one, and not of the only one. -/
theorem counted_clear_iff (h : t.Counted) (hinit : t.initial = true) :
    Counted { t.clear i with num := t.num - 1 } ↔ t.Used i ∧ t.num ≠ 1 := by
  have hnum : t.num = (Finset.univ.filter t.Used).card := by
    rw [h.num, registered_of_initial hinit]
  have hreg : registered { t.clear i with num := t.num - 1 } =
      ((Finset.univ.filter t.Used).erase i).card := by
    rw [← used_clear]
    exact if_pos hinit
  constructor
  · rintro ⟨hn, h0⟩
    have h1 : t.num - 1 ≠ 0 := h0 hinit
    refine ⟨by_contra fun hi => ?_, by omega⟩
    rw [hreg, Finset.erase_eq_of_notMem (by simpa using hi), ← hnum] at hn
    change t.num - 1 = _ at hn
    omega
  · rintro ⟨hi, h1⟩
    have hcard := Finset.card_erase_add_one (Finset.mem_filter_univ i |>.2 hi)
    refine ⟨?_, fun _ => ?_⟩
    · rw [hreg]
      change t.num - 1 = _
      omega
    · change t.num - 1 ≠ 0
      omega

theorem myopen_eq (t : UserInfo) (userS : List UInt8) :
    t.myopen userS = { (if t.num + (t.load userS).count = 0 then
        { (t.load userS).setUser 0 (ofList root) (ofList rootPassword) with num := 1 }
      else { t.load userS with num := t.num + (t.load userS).count } : UserInfo) with
        initial := true } := rfl

/-- The users after a first `myopen`, where the file holds a name. -/
theorem myopen_of_count_ne_zero {userS : List UInt8} (h0 : t.num = 0)
    (hc : (t.load userS).count ≠ 0) :
    (t.myopen userS).num = (t.load userS).count ∧
      (t.myopen userS).registered = (Finset.univ.filter (t.load userS).Used).card := by
  have hn : t.num + ((t.load userS).count : ℤ) ≠ 0 := by omega
  rw [myopen_eq, if_neg hn, h0, zero_add]
  exact ⟨rfl, if_pos rfl⟩

/-- The users after a first `myopen`, where the file holds none. -/
theorem myopen_of_count_eq_zero {userS : List UInt8} (h0 : t.num = 0)
    (hc : (t.load userS).count = 0) :
    (t.myopen userS).num = 1 ∧ (t.myopen userS).registered =
      (insert 0 (Finset.univ.filter (t.load userS).Used)).card := by
  have hn : t.num + ((t.load userS).count : ℤ) = 0 := by omega
  have hroot : key (ofList root) ≠ blank := by decide
  rw [myopen_eq, if_pos hn, ← used_setUser (p := ofList rootPassword) hroot]
  exact ⟨rfl, if_pos rfl⟩

/-- The first `myopen` counts the users when no name begins with x, or when there is no user but
    possibly one in the slot that it gives to `root`. -/
theorem counted_myopen_iff {userS : List UInt8} (h0 : t.num = 0) :
    (t.myopen userS).Counted ↔ ∀ i, (t.load userS).Used i → (t.load userS).name i 0 = fill →
      i = 0 ∧ (t.load userS).count = 0 := by
  by_cases hc : (t.load userS).count = 0
  · obtain ⟨hnum, hreg⟩ := myopen_of_count_eq_zero h0 hc
    constructor
    · rintro ⟨hn, -⟩ i hi -
      rw [hnum, hreg] at hn
      obtain ⟨j, hj⟩ := Finset.card_eq_one.1 (by exact_mod_cast hn.symm)
      have hz : (0 : Fin nuser) ∈ ({j} : Finset _) := hj ▸ Finset.mem_insert_self _ _
      have hi' : i ∈ ({j} : Finset _) :=
        hj ▸ Finset.mem_insert_of_mem ((Finset.mem_filter_univ i).2 hi)
      exact ⟨(Finset.mem_singleton.1 hi').trans (Finset.mem_singleton.1 hz).symm, hc⟩
    · intro h
      have hsub : Finset.univ.filter (t.load userS).Used ⊆ {0} := fun i hi =>
        Finset.mem_singleton.2 (h i ((Finset.mem_filter_univ i).1 hi) (count_eq_zero.1 hc i)).1
      refine ⟨?_, fun _ => ?_⟩
      · rw [hnum, hreg, Finset.insert_eq, Finset.union_eq_left.2 hsub, Finset.card_singleton,
          Nat.cast_one]
      · rw [hnum]
        exact one_ne_zero
  · obtain ⟨hnum, hreg⟩ := myopen_of_count_ne_zero h0 hc
    have hsub : (Finset.univ.filter fun i => (t.load userS).name i 0 ≠ fill) ⊆
        Finset.univ.filter (t.load userS).Used := fun i hi =>
      (Finset.mem_filter_univ i).2 (used_of_ne_fill ((Finset.mem_filter_univ i).1 hi))
    constructor
    · rintro ⟨hn, -⟩ i hi hx
      rw [hnum, hreg, count_eq_card] at hn
      have heq := Finset.eq_of_subset_of_card_le hsub (by exact_mod_cast hn.ge)
      have hmem := heq ▸ (Finset.mem_filter_univ i).2 hi
      exact absurd hx ((Finset.mem_filter_univ i).1 hmem)
    · intro h
      refine ⟨?_, fun _ => ?_⟩
      · rw [hnum, hreg, count_eq_card]
        refine congrArg (fun s => (Finset.card s : ℤ)) (hsub.antisymm fun i hi => ?_)
        refine (Finset.mem_filter_univ i).2 fun hx => ?_
        exact hc (h i ((Finset.mem_filter_univ i).1 hi) hx).2
      · rw [hnum]
        exact_mod_cast hc

end UserInfo

namespace Session

variable {s : Session} {t : UserInfo} {e : SessionCall} {u p : Str}

/-- The functions, which do not ask who calls them. -/
def perform (s : Session) : SessionCall → ℤ × Session
  | .login u p =>
    let r := s.info.login u p
    (r.1, { s with info := r.2 })
  | .logout =>
    let r := s.info.logout
    (r.1, { s with info := r.2 })
  | .addUser u p =>
    let r := s.info.addUser u p
    if r.1 = 0 then (0, s.update r.2) else (-1, s)
  | .deleteUser u =>
    let r := s.info.deleteUser u
    if r.1 = 0 then (0, s.update r.2) else (-1, s)
  | .myopen => (0, s.update (s.info.myopen s.userS))

/-- A call that does not miscount: `addUser` does not take a slot whose user's name begins with x;
    `deleteUser` is not called before `myopen`, and deletes neither an empty slot nor the only user;
    the first `myopen` finds no name that begins with x, or no name at all but in the first slot, and
    later ones find only names that begin with x. -/
def Counting (s : Session) : SessionCall → Prop
  | .login _ _ | .logout => True
  | .addUser u _ => ∀ i ∈ s.info.findEmpty, s.info.findUser u = none → ¬ s.info.Used i
  | .deleteUser u => s.info.findUser u ≠ none → key u ≠ root →
      s.info.initial = true ∧ key u ≠ blank ∧ s.info.num ≠ 1
  | .myopen =>
    if s.info.initial then s.info.count = 0
    else
      let t := s.info.load s.userS
      ∀ i, t.Used i → t.name i 0 = fill → i = 0 ∧ t.count = 0

/-- The counter is exact, and the table is still that of the beginning or the file holds it. -/
structure Exact (s : Session) : Prop where
  counted : s.info.Counted
  table : if s.info.initial then s.Saved else ∀ i, key (s.info.name i) = []

theorem exact_boot (userS : List UInt8) : (boot userS).Exact where
  counted := ⟨rfl, fun h => absurd h (Bool.false_ne_true)⟩
  table := fun _ => rfl

/-- A later `myopen` adds to the counter what it counted before. -/
theorem Exact.counted_myopen_iff (h : s.Exact) (hinit : s.info.initial = true) :
    (s.info.myopen s.userS).Counted ↔ s.info.count = 0 := by
  have hsaved : s.Saved := by
    have := h.table
    rwa [if_pos hinit] at this
  have hnum := h.counted.num
  have h0 : s.info.num ≠ 0 := h.counted.ne_zero hinit
  have hc : s.info.num + (s.info.count : ℤ) ≠ 0 := by omega
  obtain ⟨hpriv, hnum', -⟩ := hsaved.myopen hc
  have hu : ∀ i, (s.info.myopen s.userS).Used i ↔ s.info.Used i := fun i => by
    rw [UserInfo.Used, UserInfo.Used, (name_congr hpriv i).1]
  have hreg : (s.info.myopen s.userS).registered = s.info.registered := by
    rw [UserInfo.registered_of_initial hinit, UserInfo.registered_of_initial rfl,
      Finset.filter_congr fun i _ => hu i]
  constructor
  · rintro ⟨hn, -⟩
    rw [hreg, hnum', ← hnum] at hn
    omega
  · intro hz
    exact h.counted.congr (by rw [hnum', hz, Nat.cast_zero, add_zero]) hinit.symm hu

/-- Before the first `myopen` there is no empty slot. -/
theorem Exact.initial_of_findEmpty (h : s.Exact) {i : Fin nuser} (hf : s.info.findEmpty = some i) :
    s.info.initial = true := by
  by_contra hinit
  have htable := h.table
  rw [if_neg hinit] at htable
  have hx := UserInfo.findEmpty_some hf
  rw [UserInfo.name_zero, htable i] at hx
  exact absurd hx (by decide)

theorem Exact.counting_addUser_iff (h : s.Exact) :
    s.Counting (.addUser u p) ↔ (s.perform (.addUser u p)).2.info.Counted := by
  rcases hf : s.info.findEmpty with _ | i
  · have he : s.info.addUser u p = (-1, s.info) := by rw [UserInfo.addUser, hf]
    rw [perform, he]
    exact iff_of_true (fun i hi => by rw [hf] at hi; cases hi) h.counted
  · by_cases hu : s.info.findUser u = none
    · have he : s.info.addUser u p =
          (0, { s.info.setUser i u p with num := s.info.num + 1 }) := by
        rw [UserInfo.addUser, hf]
        exact if_neg (not_not.2 hu)
      rw [perform, he]
      change _ ↔ UserInfo.Counted { s.info.setUser i u p with num := s.info.num + 1 }
      rw [UserInfo.counted_setUser_iff h.counted (h.initial_of_findEmpty hf) hu]
      constructor
      · intro hc
        exact hc i hf hu
      · rintro hi j hj -
        obtain rfl : i = j := Option.some.inj (hf.symm.trans hj)
        exact hi
    · have he : s.info.addUser u p = (-1, s.info) := by
        rw [UserInfo.addUser, hf]
        exact if_pos hu
      rw [perform, he]
      exact iff_of_true (fun i _ hu' => absurd hu' hu) h.counted

theorem Exact.counting_deleteUser_iff (h : s.Exact) :
    s.Counting (.deleteUser u) ↔ (s.perform (.deleteUser u)).2.info.Counted := by
  by_cases hr : strncmp u (ofList root) 16 = 0
  · have he : s.info.deleteUser u = (-1, s.info) := if_pos hr
    rw [perform, he]
    exact iff_of_true (fun _ hr' => absurd (strncmp_eq_zero_iff.1 hr) hr') h.counted
  · have hkey : key u ≠ root := fun h' => hr (strncmp_eq_zero_iff.2 h')
    rcases hf : s.info.findUser u with _ | i
    · have he : s.info.deleteUser u = (-1, s.info) := by rw [UserInfo.deleteUser, if_neg hr, hf]
      rw [perform, he]
      exact iff_of_true (fun hf' => absurd hf hf') h.counted
    · have he : s.info.deleteUser u = (0, { s.info.clear i with num := s.info.num - 1 }) := by
        rw [UserInfo.deleteUser, if_neg hr, hf]
      have hused : s.info.Used i ↔ key u ≠ blank := by
        rw [UserInfo.Used, UserInfo.findUser_some hf]
      have hsome : s.info.findUser u ≠ none := by rw [hf]; exact Option.some_ne_none i
      rw [perform, he]
      change _ ↔ UserInfo.Counted { s.info.clear i with num := s.info.num - 1 }
      by_cases hinit : s.info.initial = true
      · rw [UserInfo.counted_clear_iff h.counted hinit, hused]
        constructor
        · intro hc
          exact (hc hsome hkey).2
        · exact fun hc _ _ => ⟨hinit, hc⟩
      · -- Before the first `myopen` the counter, which is zero, goes down.
        refine iff_of_false (fun hc => hinit (hc hsome hkey).1) fun hc => ?_
        have hn := hc.num
        have h0 : s.info.num = 0 := by
          rw [h.counted.num, UserInfo.registered, if_neg hinit, Nat.cast_zero]
        change s.info.num - 1 = _ at hn
        omega

/-- A function keeps the counter exact exactly when its call does not miscount. -/
theorem Exact.counting_iff (h : s.Exact) (e : SessionCall) :
    s.Counting e ↔ (s.perform e).2.info.Counted := by
  cases e with
  | login u p =>
    refine iff_of_true trivial ?_
    rcases s.info.login_cases u p with he | ⟨i, -, -, he⟩
    · rw [perform, he]
      exact h.counted
    · rw [perform, he]
      exact h.counted.congr rfl rfl fun _ => Iff.rfl
  | logout => exact iff_of_true trivial (h.counted.congr rfl rfl fun _ => Iff.rfl)
  | addUser u p => exact h.counting_addUser_iff
  | deleteUser u => exact h.counting_deleteUser_iff
  | myopen =>
    rw [Counting]
    split
    · exact (h.counted_myopen_iff ‹_›).symm
    · refine (UserInfo.counted_myopen_iff ?_).symm
      rw [h.counted.num, UserInfo.registered, if_neg ‹_›, Nat.cast_zero]

theorem exact_update (ht : t.Counted) (hinit : t.initial = true) : (s.update t).Exact := by
  refine ⟨ht, ?_⟩
  rw [if_pos (show (s.update t).info.initial = true from hinit)]
  exact saved_update

theorem Exact.perform (h : s.Exact) (he : s.Counting e) : (s.perform e).2.Exact := by
  have hc := (h.counting_iff e).1 he
  cases e with
  | login u p =>
    refine ⟨hc, ?_⟩
    rcases s.info.login_cases u p with hl | ⟨i, -, -, hl⟩
    · rw [Session.perform, hl]
      exact h.table
    · rw [Session.perform, hl]
      exact h.table
  | logout => exact ⟨hc, h.table⟩
  | addUser u p =>
    rcases s.info.addUser_cases u p with ha | ⟨i, hf, -, ha⟩
    · rw [Session.perform, ha]
      exact h
    · rw [Session.perform, ha] at hc ⊢
      exact exact_update hc (h.initial_of_findEmpty hf)
  | deleteUser u =>
    rcases s.info.deleteUser_cases u with hd | ⟨i, hu, hf, hd⟩
    · rw [Session.perform, hd]
      exact h
    · rw [Session.perform, hd] at hc ⊢
      exact exact_update hc (he (by rw [hf]; exact Option.some_ne_none i) hu).1
  | myopen => exact exact_update hc rfl

/-- From before the first `myopen`, with whatever `userS` holds: the counter is the number of the
    registered users in every state of a run, and not zero once `myopen` was called, exactly when no
    call of the run miscounts. -/
theorem num_exact_iff (userS : List UInt8) (es : List SessionCall) :
    (∀ fs, fs <+: es → (Reply.replies perform (boot userS) fs).2.info.Counted) ↔
      Reply.Along perform Counting (boot userS) es :=
  Reply.forall_prefix_iff_along (I := Exact) (fun _ h => h.counted) (fun _ e h => h.counting_iff e)
    (fun _ _ h he => h.perform he) (exact_boot userS)

/-- An empty slot is deleted, and `root` is no longer counted. -/
theorem num_zero_with_root :
    let s := (Reply.replies perform (boot []) [.myopen, .deleteUser (ofList blank)]).2
    s.info.initial = true ∧ s.info.registered = 1 ∧ s.info.num = 0 := by
  decide +kernel

end Session
end FileSystem
