import CourseProjects.Registration.Grades

/-!
# The average of a student

The update of a user divides the sum of the grades, in credits, by the sum of the credits, and
looks for a row to divide by only in that the sum is not null. A class may be stored with any
number of credits.

* `averaged_iff`: when the update completes with the truncated quotient;
* `average_of_nothing`: a class without credits, and a grade.
-/

namespace Registration

open Tx

namespace Db

variable (db : Db) (userId : ℤ)

/-- The grades of a user, in credits. -/
def points : List ℤ := (db.graded userId).map fun p => p.1.grade * p.2.gradeAmount

/-- The credits of the classes in which a user has a grade. -/
def credited : List ℤ := (db.graded userId).map fun p => p.2.gradeAmount

/-- The credits of the classes of a user that are not graded. -/
def pending : List ℤ := (db.current userId).map fun p => p.2.gradeAmount

/-- The truncated quotient of the sums, which is zero when there are no rows. -/
def quotient : ℤ := (db.points userId).sum.tdiv (db.credited userId).sum

end Db

/-- A list of `Long` whose sum is a `Long`. -/
def Summable (l : List ℤ) : Prop := ∀ x ∈ l.sum :: l, Fits x

/-- The update of the user completes, and stores the quotient of the sums. -/
def Averaged (db : Db) (userId : ℤ) : Prop :=
  ∀ requestDto, ∃ db', (UserService.update userId requestDto).run db = .ok (userId, db') ∧
    (db'.users.find userId).bind User.averageScore = some (db.quotient userId)

/-- There is something to divide by when there are grades, and no number leaves `Long`. -/
structure Divides (db : Db) (userId : ℤ) : Prop where
  credits : db.graded userId = [] ∨ (db.credited userId).sum ≠ 0
  points : Summable (db.points userId)
  credited : Summable (db.credited userId)
  pending : Summable (db.pending userId)
  least : ¬((db.points userId).sum = -2 ^ 63 ∧ (db.credited userId).sum = -1)

section

variable {db : Db} {userId : ℤ} {l : List ℤ} {o : Option ℤ}

theorem sqlSum_eq_ok :
    Db.sqlSum l = .ok o ↔ Summable l ∧ o = if l = [] then none else some l.sum := by
  rw [Db.sqlSum]
  by_cases hl : l = []
  · subst hl
    have hfits : Summable [] := by
      intro x hx
      rw [List.mem_singleton.1 hx]
      decide
    rw [if_pos rfl, if_pos rfl, and_iff_right hfits, Except.ok.injEq, eq_comm]
  · rw [if_neg hl, if_neg hl, Summable]
    by_cases hfits : ∀ x ∈ l.sum :: l, Fits x
    · rw [if_pos hfits, and_iff_right hfits, Except.ok.injEq, eq_comm]
    · rw [if_neg hfits]
      exact iff_of_false nofun fun h => hfits h.1

theorem wrap_eq_iff {x : ℤ} : wrap x = x ↔ Fits x := by
  refine ⟨fun h => ?_, wrap_eq⟩
  rw [← h, Fits, wrap]
  omega

/-- The quotient of two values of type `Long` is one, but for the least one and `-1`. -/
theorem fits_tdiv_iff {a b : ℤ} (ha : Fits a) (hb : b ≠ 0) :
    Fits (a.tdiv b) ↔ ¬(a = -2 ^ 63 ∧ b = -1) := by
  obtain ⟨hl, hu⟩ := ha
  have habs : (a.tdiv b).natAbs = a.natAbs / b.natAbs := Int.natAbs_tdiv a b
  rcases lt_or_ge b.natAbs 2 with hlt | hge
  · obtain rfl | rfl : b = 1 ∨ b = -1 := by omega
    · rw [Int.tdiv_one, Fits]
      omega
    · rw [Int.tdiv_neg, Int.tdiv_one, Fits]
      omega
  · have hhalf : a.natAbs / b.natAbs ≤ a.natAbs / 2 := Nat.div_le_div_left hge Nat.two_pos
    rw [Fits]
    omega

theorem credited_eq_nil : db.credited userId = [] ↔ db.graded userId = [] := List.map_eq_nil_iff

theorem points_eq_nil : db.points userId = [] ↔ db.graded userId = [] := List.map_eq_nil_iff

/-- The average that is computed, when there is something to divide by. -/
theorem avg_eq : UserService.avg (if db.points userId = [] then none else some (db.points userId).sum)
    (if db.credited userId = [] then none else some (db.credited userId).sum) =
      wrap (db.quotient userId) := by
  by_cases h : db.graded userId = []
  · have hpoints := points_eq_nil.2 h
    have hcredited := credited_eq_nil.2 h
    rw [if_pos hpoints, if_pos hcredited, Db.quotient, hpoints, hcredited]
    rfl
  · rw [if_neg (mt points_eq_nil.1 h), if_neg (mt credited_eq_nil.1 h)]
    rfl

/-- The sums are there if and only if there is something to divide by, and they are values of type
`Long`. -/
theorem totals_iff : (∃ t, db.totals userId = some t) ↔
    (db.graded userId = [] ∨ (db.credited userId).sum ≠ 0) ∧ Summable (db.points userId) ∧
      Summable (db.credited userId) ∧ Summable (db.pending userId) := by
  have hzero : (if db.credited userId = [] then none else some (db.credited userId).sum) ≠ some 0 ↔
      db.graded userId = [] ∨ (db.credited userId).sum ≠ 0 := by
    by_cases h : db.graded userId = []
    · rw [if_pos (credited_eq_nil.2 h)]
      exact iff_of_true nofun (.inl h)
    · rw [if_neg (mt credited_eq_nil.1 h), or_iff_right h, ne_eq, Option.some.injEq]
  constructor
  · rintro ⟨t, ht⟩
    obtain ⟨sum, done, year, hsum, hdone, hne, hyear, -⟩ := Db.totals_eq_some.1 ht
    obtain ⟨hpoints, -⟩ := sqlSum_eq_ok.1 hsum
    obtain ⟨hcredited, rfl⟩ := sqlSum_eq_ok.1 hdone
    obtain ⟨hpending, -⟩ := sqlSum_eq_ok.1 hyear
    exact ⟨hzero.1 hne, hpoints, hcredited, hpending⟩
  · rintro ⟨hne, hpoints, hcredited, hpending⟩
    exact ⟨_, Db.totals_eq_some.2 ⟨_, _, _, sqlSum_eq_ok.2 ⟨hpoints, rfl⟩,
      sqlSum_eq_ok.2 ⟨hcredited, rfl⟩, hzero.2 hne, sqlSum_eq_ok.2 ⟨hpending, rfl⟩, rfl⟩⟩

theorem averageScore_totals {t : Totals} (h : db.totals userId = some t) :
    t.averageScore = wrap (db.quotient userId) := by
  obtain ⟨sum, done, year, hsum, hdone, -, -, rfl⟩ := Db.totals_eq_some.1 h
  obtain ⟨-, rfl⟩ := sqlSum_eq_ok.1 hsum
  obtain ⟨-, rfl⟩ := sqlSum_eq_ok.1 hdone
  exact avg_eq

/-- What an update of a user stores as the average. -/
theorem averageScore_updateUser {user : User} {requestDto : UserUpdateRequestDto}
    (huser : db.users.find userId = some user) :
    ((db.updateUser userId requestDto).users.find userId).bind User.averageScore =
      requestDto.averageScore := by
  rw [Db.find_updateUser, huser, Option.map_some, if_pos (Table.key_of_find huser)]
  rfl

/-- The update of a user completes with the truncated quotient of the sums if and only if there is
something to divide by when there are grades, and no number leaves `Long`. -/
theorem averaged_iff {user : User} (huser : db.users.find userId = some user) :
    Averaged db userId ↔ Divides db userId := by
  have hquotient : Summable (db.points userId) →
      (db.graded userId = [] ∨ (db.credited userId).sum ≠ 0) →
        (wrap (db.quotient userId) = db.quotient userId ↔
          ¬((db.points userId).sum = -2 ^ 63 ∧ (db.credited userId).sum = -1)) := by
    intro hpoints hne
    rw [wrap_eq_iff, Db.quotient]
    rcases hne with hnil | hne
    · rw [points_eq_nil.2 hnil, credited_eq_nil.2 hnil]
      exact iff_of_true (by decide) (by decide)
    · exact fits_tdiv_iff (hpoints _ List.mem_cons_self) hne
  constructor
  · intro h
    obtain ⟨db', hrun, hscore⟩ := h ⟨none, none, none, none, none⟩
    obtain ⟨-, t, ht, rfl⟩ := (UserService.update_eq_ok huser).1 hrun
    obtain ⟨hne, hpoints, hcredited, hpending⟩ := totals_iff.1 ⟨t, ht⟩
    rw [averageScore_updateUser huser] at hscore
    have haverage := (averageScore_totals ht).symm.trans (Option.some.inj hscore)
    exact ⟨hne, hpoints, hcredited, hpending, (hquotient hpoints hne).1 haverage⟩
  · intro h requestDto
    obtain ⟨t, ht⟩ := totals_iff.2 ⟨h.credits, h.points, h.credited, h.pending⟩
    refine ⟨_, (UserService.update_eq_ok huser).2 ⟨rfl, t, ht, rfl⟩, ?_⟩
    rw [averageScore_updateUser huser]
    exact congrArg some
      ((averageScore_totals ht).trans ((hquotient h.points h.credits).2 h.least))

end

/-! ### A class without credits -/

/-- A student, a course and a room. -/
def oneStudent : Db where
  users := twoClasses.users
  classes := .empty
  takeClasses := .empty
  hopeClasses := .empty
  courses := [1]
  majors := [1]
  rooms := [⟨1, 50⟩]
  credits := []

/-- A class without credits is added, the student takes it, and gets a grade. -/
def gradedNothing : Db := (Reply.replies call oneStudent
  [.saveClasses (some 1) (some 1) ⟨30, 0, none, 1, some "Lee", none, none, some 1, some 3, some 1,
    some 0⟩, .save 1 0, .gradeUpdate 0 1 0 ⟨some 5⟩]).2

/-- The student has a row with the grade, and the update divides by zero. -/
theorem average_of_nothing : ¬Averaged gradedNothing 1 := by
  intro h
  obtain ⟨db', hrun, -⟩ := h ⟨none, none, none, none, none⟩
  obtain ⟨sum, done, year, -, hdone, hne, -⟩ := UserService.update_cases hrun
  have hzero : (gradedNothing.findDoneGradeSum 1).toOption = some (some 0) := by decide +kernel
  rw [hdone] at hzero
  exact hne (Option.some.inj hzero)

/-- The student before any grade. -/
theorem averaged_oneStudent : Averaged oneStudent 1 ↔ Divides oneStudent 1 := by
  have huser : oneStudent.users.find 1 =
      some ⟨1, false, "kim", "Kim", none, none, some 0, some 0, some 0⟩ := by decide +kernel
  exact averaged_iff huser

end Registration
