import CourseProjects.FileSystem.Users
import CourseProjects.Lib.Reply

/-!
# The table of users as a finite map

What `addUser`, `deleteUser` and `login` are for: a finite map from names to passwords
with at most ten names (`Registry`). The table represents a map (`Represents`) where
names are those of the slots in use.

The code takes a slot whose name begins with the letter x for an empty one, and an
empty one for a user whose name and password are sixteen of them.

* `user_table_map`: as long as the calls do not run into this, they reply as the map does,
  and a call that does is not the call of the map.
-/

namespace FileSystem

open CString

/-- The calls on the table. -/
inductive UserCall
  | addUser (username passward : Str)
  | deleteUser (username : Str)
  | login (username passward : Str)

/-- A map from names to passwords. -/
abbrev Registry := Finmap fun _ : List UInt8 => List UInt8

namespace Registry

variable (m : Registry)

def addUser (u p : List UInt8) : ℤ × Registry :=
  if u ∉ m ∧ m.keys.card < nuser then (0, m.insert u p) else (-1, m)

def deleteUser (u : List UInt8) : ℤ × Registry :=
  if u ∈ m ∧ u ≠ root then (0, m.erase u) else (-1, m)

def login (u p : List UInt8) : ℤ × Registry := (if m.lookup u = some p then 0 else -1, m)

/-- A call on the map: the first sixteen bytes of the strings count. -/
def call : UserCall → ℤ × Registry
  | .addUser u p => m.addUser (key u) (key p)
  | .deleteUser u => m.deleteUser (key u)
  | .login u p => m.login (key u) (key p)

end Registry

namespace UserInfo

variable {t t' : UserInfo} {m m' : Registry} {u p : Str} {i j : Fin nuser} {e : UserCall}

/-- A call on the table. -/
def call (t : UserInfo) : UserCall → ℤ × UserInfo
  | .addUser u p => t.addUser u p
  | .deleteUser u => t.deleteUser u
  | .login u p => t.login u p

/-! ### Tables that represent maps -/

/-- The entries of the table are those of the map. -/
structure Represents (t : UserInfo) (m : Registry) : Prop where
  entry : ∀ u p, m.lookup u = some p ↔
    ∃ i, t.Used i ∧ key (t.name i) = u ∧ key (t.password i) = p
  inj : ∀ i j, t.Used i → t.Used j → key (t.name i) = key (t.name j) → i = j
  unused : ∀ i, ¬ t.Used i → key (t.password i) = blank

namespace Represents

theorem congr (h : t.Represents m) (hp : t'.priv = t.priv) : t'.Represents m := by
  have hname : ∀ i, t'.name i = t.name i := fun i => by
    unfold name
    rw [hp]
  have hpass : ∀ i, t'.password i = t.password i := fun i => by
    unfold password
    rw [hp]
  constructor
  · simpa only [Used, hname, hpass] using h.entry
  · simpa only [Used, hname] using h.inj
  · simpa only [Used, hname, hpass] using h.unused

theorem mem_iff (h : t.Represents m) {u : List UInt8} :
    u ∈ m ↔ ∃ i, t.Used i ∧ key (t.name i) = u := by
  rw [Finmap.mem_iff]
  constructor
  · rintro ⟨p, hp⟩
    obtain ⟨i, hi, hu, -⟩ := (h.entry u p).1 hp
    exact ⟨i, hi, hu⟩
  · rintro ⟨i, hi, hu⟩
    exact ⟨_, (h.entry u _).2 ⟨i, hi, hu, rfl⟩⟩

theorem blank_notMem (h : t.Represents m) : blank ∉ m := by
  rw [h.mem_iff]
  rintro ⟨i, hi, hu⟩
  exact hi hu

/-- A name that is not blank is found where the map has it. -/
theorem findUser_isSome (h : t.Represents m) (hu : key u ≠ blank) :
    t.findUser u ≠ none ↔ key u ∈ m := by
  rw [h.mem_iff, Ne, findUser_none, not_forall]
  refine exists_congr fun i => ?_
  rw [not_not]
  exact ⟨fun hi => ⟨fun hb => hu (hi ▸ hb), hi⟩, fun hi => hi.2⟩

/-- The map has a name for each slot in use. -/
theorem card_keys (h : t.Represents m) :
    m.keys.card = (Finset.univ.filter fun i => t.Used i).card := by
  have himage : m.keys = (Finset.univ.filter fun i => t.Used i).image fun i => key (t.name i) := by
    ext u
    simp [Finmap.mem_keys, h.mem_iff]
  rw [himage, Finset.card_image_of_injOn]
  intro i hi j hj hij
  exact h.inj i j (by simpa using hi) (by simpa using hj) hij

theorem card_lt (h : t.Represents m) : m.keys.card < nuser ↔ ∃ i, ¬ t.Used i := by
  rw [h.card_keys]
  constructor
  · intro hlt
    by_contra hall
    push Not at hall
    rw [Finset.filter_true_of_mem fun i _ => hall i] at hlt
    simp [nuser] at hlt
  · rintro ⟨i, hi⟩
    have := Finset.card_lt_card (Finset.filter_ssubset.2 ⟨i, Finset.mem_univ i, hi⟩)
    simpa [nuser] using this

/-- Filling a slot that is not in use adds an entry. -/
theorem setUser (h : t.Represents m) (hi : ¬ t.Used i) (hu : key u ≠ blank)
    (hm : key u ∉ m) : (t.setUser i u p).Represents (m.insert (key u) (key p)) := by
  have hname : ∀ j, key ((t.setUser i u p).name j) = if j = i then key u else key (t.name j) :=
    fun j => name_setUser
  have hused : ∀ j, (t.setUser i u p).Used j ↔ j = i ∨ t.Used j := fun j => by
    rw [Used, hname]
    by_cases hj : j = i
    · simp [hj, hu]
    · simp [hj, Used]
  refine ⟨fun v q => ?_, fun j j' hj hj' heq => ?_, fun j hj => ?_⟩
  · by_cases hv : v = key u
    · subst hv
      rw [Finmap.lookup_insert, Option.some.injEq]
      constructor
      · rintro rfl
        exact ⟨i, (hused i).2 (.inl rfl), by simp [hname], by simp [password_setUser]⟩
      · rintro ⟨j, hj, hn, hp⟩
        rw [hname] at hn
        rw [password_setUser] at hp
        split at hn
        · simpa [‹j = i›] using hp
        · exact absurd (h.mem_iff.2 ⟨j, ((hused j).1 hj).resolve_left ‹_›, hn⟩) hm
    · rw [Finmap.lookup_insert_of_ne _ hv, h.entry]
      refine exists_congr fun j => ?_
      rw [hused, hname, password_setUser]
      by_cases hj : j = i
      · subst hj
        simp [hi, Ne.symm hv]
      · simp [hj]
  · rw [hname, hname] at heq
    split at heq <;> split at heq
    · simp [*]
    · exact absurd (h.mem_iff.2 ⟨j', ((hused j').1 hj').resolve_left ‹_›, heq.symm⟩) hm
    · exact absurd (h.mem_iff.2 ⟨j, ((hused j).1 hj).resolve_left ‹_›, heq⟩) hm
    · exact h.inj j j' (((hused j).1 hj).resolve_left ‹_›) (((hused j').1 hj').resolve_left ‹_›)
        heq
  · rw [hused, not_or] at hj
    rw [password_setUser, if_neg hj.1]
    exact h.unused j hj.2

/-- Clearing a slot in use removes its entry. -/
theorem clear (h : t.Represents m) (hi : t.Used i) :
    (t.clear i).Represents (m.erase (key (t.name i))) := by
  have hused : ∀ j, (t.clear i).Used j ↔ j ≠ i ∧ t.Used j := fun j => by
    rw [Used, name_clear]
    by_cases hj : j = i
    · simp [hj]
    · simp [hj, Used]
  refine ⟨fun v q => ?_, fun j j' hj hj' heq => ?_, fun j hj => ?_⟩
  · by_cases hv : v = key (t.name i)
    · subst hv
      rw [Finmap.lookup_erase]
      refine iff_of_false (by simp) ?_
      rintro ⟨j, hj, hn, -⟩
      rw [hused] at hj
      rw [name_clear, if_neg hj.1] at hn
      exact hj.1 (h.inj j i hj.2 hi hn)
    · rw [Finmap.lookup_erase_ne hv, h.entry]
      refine exists_congr fun j => ?_
      rw [hused, name_clear, password_clear]
      by_cases hj : j = i
      · subst hj
        simp [Ne.symm hv]
      · simp [hj]
  · rw [hused] at hj hj'
    rw [name_clear, name_clear, if_neg hj.1, if_neg hj'.1] at heq
    exact h.inj j j' hj.2 hj'.2 heq
  · rw [hused, not_and_or, not_not] at hj
    rw [password_clear]
    split
    · rfl
    · exact h.unused j (hj.resolve_left ‹_›)

/-- A table full of the letter x represents the empty map. -/
theorem of_fill (h : ∀ a, t.priv a = fill) : t.Represents ∅ := by
  have hfree : ∀ i, ¬ t.Used i := fun i => not_not.2 (cstr_fill (by decide) fun k _ => h _)
  refine ⟨fun u p => ?_, fun i _ hi => absurd hi (hfree i), fun i _ => ?_⟩
  · simp [hfree]
  · exact cstr_fill (by decide) fun k _ => h _

/-- The table read from an empty file has the first user. -/
theorem myopen : (zero.myopen []).Represents (Finmap.singleton root rootPassword) := by
  have hpriv : poke (fun _ => fill) 0 0 (ofList []) = fun _ => fill := by
    funext a
    exact if_neg (by omega)
  have hcount : count { zero with priv := fun _ => fill } = 0 :=
    List.countP_eq_zero.2 fun i _ => by simp [name]
  have h₀ := of_fill (t := { zero with priv := fun _ => fill }) fun _ => rfl
  have hfree : ¬ Used { zero with priv := fun _ => fill } 0 :=
    not_not.2 (cstr_fill (by decide) fun k _ => rfl)
  have h := h₀.setUser (i := 0) (u := ofList root) (p := ofList rootPassword) hfree (by decide)
    Finmap.notMem_empty
  refine Represents.congr (m := Finmap.singleton root rootPassword) h ?_
  simp only [UserInfo.myopen, List.length_nil, Nat.zero_min, hpriv, hcount]
  rfl

end Represents

/-! ### Calls that do not run into the letter x -/

/-- The slot that `addUser` fills, if any, is empty, and the name is not blank; `deleteUser`
    and `login` are not called for an empty slot. -/
def Plain (t : UserInfo) : UserCall → Prop
  | .addUser u _ => ∀ i ∈ t.findEmpty, key u ≠ blank ∧ (t.findUser u = none → ¬ t.Used i)
  | .deleteUser u => key u = blank → ∀ i, t.Used i
  | .login u p => key u = blank → key p = blank → ∀ i, t.Used i

instance (t : UserInfo) : DecidablePred (Plain t)
  | .addUser u _ => inferInstanceAs (Decidable (∀ i ∈ t.findEmpty, key u ≠ blank ∧ _))
  | .deleteUser u => inferInstanceAs (Decidable (key u = blank → ∀ i, t.Used i))
  | .login u p => inferInstanceAs (Decidable (key u = blank → key p = blank → ∀ i, t.Used i))

/-- The first byte of the name tells that a slot is in use, unless a name begins with x. -/
theorem used_of_findEmpty_none (h : t.findEmpty = none) (i : Fin nuser) : t.Used i := by
  by_contra hi
  exact findEmpty_none.1 h i (name_zero_of_free hi)

theorem findUser_blank (hi : ¬ t.Used i) (hu : key u = blank) : t.findUser u ≠ none := fun h =>
  findUser_none.1 h i ((not_not.1 hi).trans hu.symm)

theorem Represents.addUser_iff (h : t.Represents m) :
    (t.addUser u p).1 = (m.addUser (key u) (key p)).1 ∧
        (t.addUser u p).2.Represents (m.addUser (key u) (key p)).2 ↔
      t.Plain (.addUser u p) := by
  simp only [Plain, addUser, Registry.addUser, h.card_lt]
  cases he : t.findEmpty with
  | none =>
    have hall := used_of_findEmpty_none he
    rw [if_neg fun hc => hc.2.elim fun i hi => hi (hall i)]
    simp [h]
  | some i =>
    simp only [Option.mem_some_iff, forall_eq']
    by_cases hu : key u = blank
    · -- The name is taken for that of an empty slot, or the entry of the slot is lost.
      refine iff_of_false ?_ fun hp => hp.1 hu
      rintro ⟨hr, -⟩
      rw [hu] at hr
      by_cases hfree : ∃ j, ¬ t.Used j
      · obtain ⟨j, hj⟩ := hfree
        rw [if_pos (findUser_blank hj hu), if_pos ⟨h.blank_notMem, ⟨j, hj⟩⟩] at hr
        cases hr
      · have hnone : t.findUser u = none := findUser_none.2 fun j hj =>
          hfree ⟨j, not_not.2 (hj.trans hu)⟩
        rw [if_neg (not_not.2 hnone), if_neg fun hc => hfree hc.2] at hr
        cases hr
    · by_cases hf : t.findUser u = none
      · have hm : key u ∉ m := fun hm => (h.findUser_isSome hu).2 hm hf
        rw [if_neg (not_not.2 hf)]
        by_cases hi : t.Used i
        · refine iff_of_false ?_ fun hp => hp.2 hf hi
          rintro ⟨hr, hrep⟩
          by_cases hfree : ∃ j, ¬ t.Used j
          · -- The map still has the entry that was in the slot.
            rw [if_pos ⟨hm, hfree⟩] at hrep
            have hvm : key (t.name i) ∈ m := h.mem_iff.2 ⟨i, hi, rfl⟩
            obtain ⟨j, -, hj⟩ := hrep.mem_iff.1 (Finmap.mem_insert.2 (.inr hvm))
            have hj' : key ((t.setUser i u p).name j) = key (t.name i) := hj
            rw [name_setUser] at hj'
            split at hj'
            · exact hm (hj' ▸ hvm)
            · have hjused : t.Used j := fun hb => hi (hj'.symm.trans hb)
              exact ‹¬ j = i› (h.inj j i hjused hi hj')
          · rw [if_neg fun hc => hfree hc.2] at hr
            cases hr
        · rw [if_pos ⟨hm, i, hi⟩]
          exact iff_of_true ⟨rfl, (h.setUser hi hu hm).congr rfl⟩ ⟨hu, fun _ => hi⟩
      · have hm : key u ∈ m := (h.findUser_isSome hu).1 hf
        rw [if_pos hf, if_neg fun hc => hc.1 hm]
        exact iff_of_true ⟨rfl, h⟩ ⟨hu, fun hn => absurd hn hf⟩

theorem Represents.deleteUser_iff (h : t.Represents m) :
    (t.deleteUser u).1 = (m.deleteUser (key u)).1 ∧
        (t.deleteUser u).2.Represents (m.deleteUser (key u)).2 ↔
      t.Plain (.deleteUser u) := by
  have hroot : strncmp u (ofList root) 16 = 0 ↔ key u = root := strncmp_eq_zero_iff
  simp only [Plain, deleteUser, Registry.deleteUser, hroot]
  by_cases hr : key u = root
  · rw [if_pos hr, if_neg fun hc => hc.2 hr]
    exact iff_of_true ⟨rfl, h⟩ fun hb => absurd (hb.symm.trans hr) (by decide)
  rw [if_neg hr]
  by_cases hu : key u = blank
  · rw [if_neg fun hc => h.blank_notMem (hu ▸ hc.1)]
    cases hf : t.findUser u with
    | none =>
      refine iff_of_true ⟨rfl, h⟩ fun _ i => ?_
      by_contra hi
      exact findUser_blank hi hu hf
    | some i =>
      refine iff_of_false (fun hc => ?_) fun hall => hall hu i ((findUser_some hf).trans hu)
      cases hc.1
  · refine iff_of_true ?_ fun hb => absurd hb hu
    cases hf : t.findUser u with
    | none =>
      rw [if_neg fun hc => (h.findUser_isSome hu).2 hc.1 hf]
      exact ⟨rfl, h⟩
    | some i =>
      have hi : key (t.name i) = key u := findUser_some hf
      have hused : t.Used i := fun hb => hu (hi.symm.trans hb)
      rw [if_pos ⟨(h.findUser_isSome hu).1 (by simp [hf]), hr⟩, ← hi]
      exact ⟨rfl, (h.clear hused).congr rfl⟩

theorem Represents.login_iff (h : t.Represents m) :
    (t.login u p).1 = (m.login (key u) (key p)).1 ∧
        (t.login u p).2.Represents (m.login (key u) (key p)).2 ↔
      t.Plain (.login u p) := by
  have hsame : (t.login u p).2.Represents (m.login (key u) (key p)).2 := by
    rw [login]
    split
    · split
      · exact h.congr rfl
      · exact h
    · exact h
  rw [and_iff_left hsame]
  simp only [Plain, Registry.login, login]
  cases hf : t.findUser u with
  | none =>
    rw [if_neg]
    · refine iff_of_true rfl fun hu _ i => ?_
      by_contra hi
      exact findUser_blank hi hu hf
    · rw [h.entry]
      rintro ⟨i, -, hi, -⟩
      exact findUser_none.1 hf i hi
  | some i =>
    have hi : key (t.name i) = key u := findUser_some hf
    have hpass : strncmp p (t.password i) 16 = 0 ↔ key p = key (t.password i) :=
      strncmp_eq_zero_iff
    simp only [hpass]
    by_cases hu : key u = blank
    · have hfree : ¬ t.Used i := not_not.2 (hi.trans hu)
      have hlook : m.lookup (key u) ≠ some (key p) := fun hl =>
        h.blank_notMem (hu ▸ Finmap.mem_of_lookup_eq_some hl)
      rw [if_neg hlook, h.unused i hfree]
      by_cases hp : key p = blank
      · rw [if_pos hp]
        exact iff_of_false (by simp) fun hall => hfree (hall hu hp i)
      · rw [if_neg hp]
        exact iff_of_true rfl fun _ hb => absurd hb hp
    · refine iff_of_true ?_ fun hb => absurd hb hu
      have hused : t.Used i := fun hb => hu (hi.symm.trans hb)
      have hlook : m.lookup (key u) = some (key (t.password i)) :=
        (h.entry _ _).2 ⟨i, hused, hi, rfl⟩
      simp only [hlook, Option.some.injEq, eq_comm]
      split <;> rfl

/-- A call is the call of the map, in its reply and its effect, exactly when it does not run
    into the letter x. -/
theorem Represents.call_iff (h : t.Represents m) :
    (t.call e).1 = (m.call e).1 ∧ (t.call e).2.Represents (m.call e).2 ↔ t.Plain e := by
  cases e with
  | addUser u p => exact h.addUser_iff
  | deleteUser u => exact h.deleteUser_iff
  | login u p => exact h.login_iff

/-- In every sequence of calls after `myopen` on an empty file that do not run into the letter
    x, the replies are those of a map that starts with `root`, and so is the table after it; and
    a further call is that of the map if and only if it does not run into it. -/
theorem user_table_map {es : List UserCall} (hp : Reply.Along call Plain (zero.myopen []) es) :
    (Reply.replies call (zero.myopen []) es).1 =
        (Reply.replies Registry.call (Finmap.singleton root rootPassword) es).1 ∧
      (Reply.replies call (zero.myopen []) es).2.Represents
        (Reply.replies Registry.call (Finmap.singleton root rootPassword) es).2 ∧
      ∀ e, let t := (Reply.replies call (zero.myopen []) es).2
        let m := (Reply.replies Registry.call (Finmap.singleton root rootPassword) es).2
        (t.call e).1 = (m.call e).1 ∧ (t.call e).2.Represents (m.call e).2 ↔ t.Plain e := by
  have hstep : ∀ (t : UserInfo) (m : Registry) e, t.Represents m → t.Plain e →
      (t.call e).1 = (m.call e).1 ∧ (t.call e).2.Represents (m.call e).2 :=
    fun t m e h hp => h.call_iff.2 hp
  have h := Reply.replies_eq hstep Represents.myopen hp
  exact ⟨h.1, h.2, fun e => h.2.call_iff⟩

/-- The calls that add the user `bob`, add it again, log it in, and delete it twice. -/
def bobCalls : List UserCall :=
  let bob := ofList [98, 111, 98]
  let pw := ofList [112, 119]
  [.addUser bob pw, .addUser bob pw, .login bob pw, .deleteUser bob, .deleteUser bob]

theorem user_table_map_bobCalls :
    (Reply.replies call (zero.myopen []) bobCalls).1 = [0, -1, 0, 0, -1] ∧
      (Reply.replies Registry.call (Finmap.singleton root rootPassword) bobCalls).1 =
        [0, -1, 0, 0, -1] := by
  have hr : (Reply.replies call (zero.myopen []) bobCalls).1 = [0, -1, 0, 0, -1] := by
    decide +kernel
  have h := user_table_map
    (show Reply.Along call Plain (zero.myopen []) bobCalls by decide +kernel)
  exact ⟨hr, h.1 ▸ hr⟩

/-- The users `xavier` and `bob` are added, and `xavier` cannot log in: his slot was taken for
    an empty one. -/
theorem xavier_lost :
    let xavier := ofList [120, 97, 118, 105, 101, 114]
    let bob := ofList [98, 111, 98]
    let pw := ofList [112, 119]
    let calls := [.addUser xavier pw, .addUser bob pw, .login xavier pw]
    (Reply.replies call (zero.myopen []) calls).1 = [0, 0, -1] ∧
      (Reply.replies Registry.call (Finmap.singleton root rootPassword) calls).1 = [0, 0, 0] := by
  decide +kernel

end UserInfo
end FileSystem
