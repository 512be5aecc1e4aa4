import CourseProjects.Registration.Requests

/-!
# The entry of a grade, all or nothing

The handler of `/gradeupdate` calls five services, each of which commits. When a later one
fails, the handler shows its form again, and what the first ones did stays. The row, the user
and the class are named in the path, so the user need not own the row, nor the class be its
class, and the average of the class is computed before that of the user.

* `gradeUpdate_refused`, `gradeUpdate_missing`, `gradeUpdate_failed`, `gradeUpdate_done`: the
  four ways in which the handler ends;
* `allOrNothing_iff`: it leaves everything as it was, or brings everything up to date, if and
  only if the path and the columns fit (`Fitting`).
-/

namespace Registration

open Tx

/-! ### What the columns are computed from -/

/-- The average that the update of a class stores: that of its students less that of its
    grades, when there are grades. -/
def Db.score (db : Db) (classId : ℤ) : Option ℤ :=
  match db.findClassAverage classId, db.findClassUserAverage classId with
  | some ans1, some ans2 => some (wrap (ans2 - ans1))
  | _, _ => none

/-- What the update of a user stores. -/
structure Totals where
  averageScore : ℤ
  thisYearGrade : Option ℤ
  doneGrade : ℤ
  deriving DecidableEq

/-- The sums over the rows of a user, unless a query fails or there is nothing to divide by. -/
def Db.totals (db : Db) (userId : ℤ) : Option Totals :=
  match db.findUserGradeSum userId, db.findDoneGradeSum userId, db.findThisYearGradeSum userId with
  | .ok sum, .ok doneGrade, .ok thisYearGrade =>
    if doneGrade = some 0 then none
    else some ⟨UserService.avg sum doneGrade, thisYearGrade, doneGrade.getD 0⟩
  | _, _, _ => none

/-- The form of a user with new sums. -/
def Totals.form (t : Totals) (requestDto : UserUpdateRequestDto) : UserUpdateRequestDto :=
  { requestDto with
    averageScore := some t.averageScore
    thisYearGrade := t.thisYearGrade
    doneGrade := some t.doneGrade }

/-- The class of the path after its update and, unless the grade is 99, the count of its
    students. -/
def Db.classed (db : Db) (classes : Classes) (grade : ℤ) : Db :=
  let db' := db.updateClasses classes.classId { ClassUpdateRequestDto.ofClasses classes with
    averageScore := (db.score classes.classId).or classes.averageScore }
  if grade = 99 then db'
  else db'.setCurStudent classes.classId (db'.findNumOfCurStudent classes.classId)

/-- The average of a class is the one over its rows, when there are grades. -/
def Db.ScoreCurrent (db : Db) (c : Classes) : Prop :=
  ∀ score ∈ db.score c.classId, c.averageScore = some score

/-- The averages and credits of a user are the ones over the rows. -/
def Db.UserCurrent (db : Db) (user : User) : Prop :=
  ∃ t ∈ db.totals user.userId, user.averageScore = some t.averageScore ∧
    user.thisYearGrade.getD 0 = t.thisYearGrade.getD 0 ∧ user.doneGrade = some t.doneGrade

section

variable {db db' : Db} {takeId userId classId grade r : ℤ} {t : Totals}

theorem Db.totals_eq_some : db.totals userId = some t ↔ ∃ sum doneGrade thisYearGrade,
    db.findUserGradeSum userId = .ok sum ∧ db.findDoneGradeSum userId = .ok doneGrade ∧
    doneGrade ≠ some 0 ∧ db.findThisYearGradeSum userId = .ok thisYearGrade ∧
    t = ⟨UserService.avg sum doneGrade, thisYearGrade, doneGrade.getD 0⟩ := by
  unfold Db.totals
  constructor
  · intro h
    split at h
    · next sum done year hsum hdone hyear =>
      split at h
      · cases h
      · next hne => exact ⟨sum, done, year, hsum, hdone, hne, hyear, (Option.some.inj h).symm⟩
    · cases h
  · rintro ⟨sum, done, year, hsum, hdone, hne, hyear, rfl⟩
    rw [hsum, hdone, hyear]
    exact if_neg hne

/-! ### Services that complete -/

theorem TakeClassService.run_update {tc : TakeClass} {requestDto : TakeClassUpdateRequestDto}
    (htc : db.takeClasses.find takeId = some tc) (hgrade : requestDto.grade = some grade) :
    (update takeId requestDto).run db = .ok (takeId, db.setGrade takeId grade) := by
  unfold update
  rw [get_bind, ofOption_bind_eq_ok]
  refine ⟨tc, htc, ofOption_bind_eq_ok.2 ⟨grade, hgrade, ?_⟩⟩
  rfl

theorem ClassesService.run_update {classes : Classes} {requestDto : ClassUpdateRequestDto}
    (hc : db.classes.find classId = some classes) :
    (update classId requestDto).run db = .ok (classId, db.updateClasses classId
      { requestDto with averageScore := (db.score classId).or requestDto.averageScore }) := by
  have hscore : (match db.findClassAverage classId, db.findClassUserAverage classId with
      | some ans1, some ans2 => some (wrap (ans2 - ans1))
      | _, _ => requestDto.averageScore) = (db.score classId).or requestDto.averageScore := by
    unfold Db.score
    cases db.findClassAverage classId <;> cases db.findClassUserAverage classId <;> rfl
  unfold update
  rw [get_bind, ofOption_bind_eq_ok]
  refine ⟨classes, hc, ?_⟩
  rw [← hscore]
  rfl

theorem ClassesService.run_cancel {classes : Classes}
    (hc : db.classes.find classId = some classes) :
    (cancel classId).run db =
      .ok (⟨⟩, db.setCurStudent classId (db.findNumOfCurStudent classId)) := by
  unfold cancel
  rw [get_bind, ofOption_bind_eq_ok]
  refine ⟨classes, hc, ?_⟩
  rw [Table.key_of_find hc]
  rfl

/-- The update of a user completes if and only if the sums are there. -/
theorem UserService.update_eq_ok {user : User} {requestDto : UserUpdateRequestDto}
    (huser : db.users.find userId = some user) :
    (update userId requestDto).run db = .ok (r, db') ↔
      r = userId ∧ ∃ t ∈ db.totals userId, db' = db.updateUser userId (t.form requestDto) := by
  constructor
  · intro h
    obtain ⟨sum, done, year, hsum, hdone, hne, hyear, rfl⟩ := update_cases h
    refine ⟨?_, _, Db.totals_eq_some.2 ⟨sum, done, year, hsum, hdone, hne, hyear, rfl⟩, rfl⟩
    unfold update at h
    simp only [bind_eq_ok, pure_eq_ok, Prod.mk.injEq] at h
    obtain ⟨_, _, -, _, _, -, _, _, -, _, _, -, _, _, -, _, _, -, _, _, -, hr, -⟩ := h
    exact hr
  · rintro ⟨rfl, t, ht, rfl⟩
    obtain ⟨sum, done, year, hsum, hdone, hne, hyear, rfl⟩ := Db.totals_eq_some.1 ht
    unfold update
    simp only [bind_eq_ok, get_eq_ok, ofExcept_eq_ok, failIf_eq_ok, modify_eq_ok, pure_eq_ok,
      findById_eq_ok, Prod.mk.injEq]
    exact ⟨user, db, ⟨huser, rfl⟩, db, db, ⟨rfl, rfl⟩, sum, db, ⟨hsum, rfl⟩, done, db,
      ⟨hdone, rfl⟩, ⟨⟩, db, ⟨hne, trivial, rfl⟩, year, db, ⟨hyear, rfl⟩, ⟨⟩, _, ⟨trivial, rfl⟩,
      trivial, rfl⟩

/-! ### What the statements change -/

namespace Db

/-- The sums of users read the credits of the classes, and no other column. -/
theorem totals_congr (hrows : db'.takeClasses = db.takeClasses)
    (h : ∀ id, (db'.classes.find id).map Classes.gradeAmount =
      (db.classes.find id).map Classes.gradeAmount) : db'.totals userId = db.totals userId := by
  have hjoin : ∀ d : Db, d.join.map (fun p => (p.1, p.2.gradeAmount)) =
      d.takeClasses.rows.filterMap fun tc =>
        ((d.classes.find tc.classId).map Classes.gradeAmount).map fun a => (tc, a) := by
    intro d
    unfold join
    rw [List.map_filterMap]
    congr 1
    funext tc
    cases d.classes.find tc.classId <;> rfl
  have hsame : db'.join.map (fun p => (p.1, p.2.gradeAmount)) =
      db.join.map fun p => (p.1, p.2.gradeAmount) := by
    rw [hjoin, hjoin, hrows]
    congr 1
    funext tc
    rw [h]
  -- Each query filters by the row and computes from the row and the credits.
  have hquery : ∀ (p : TakeClass → Bool) (f : TakeClass × ℤ → ℤ),
      (db'.join.filter fun q => p q.1).map (fun q => f (q.1, q.2.gradeAmount)) =
        (db.join.filter fun q => p q.1).map fun q => f (q.1, q.2.gradeAmount) := by
    intro p f
    have hd : ∀ d : Db, (d.join.filter fun q => p q.1).map (fun q => f (q.1, q.2.gradeAmount)) =
        ((d.join.map fun q => (q.1, q.2.gradeAmount)).filter fun q => p q.1).map f := by
      intro d
      rw [List.filter_map, List.map_map]
      rfl
    rw [hd, hd, hsame]
  unfold totals findUserGradeSum findDoneGradeSum findThisYearGradeSum graded current
  rw [hquery (fun tc => tc.userId = userId ∧ tc.grade ≠ 99) fun q => q.1.grade * q.2,
    hquery (fun tc => tc.userId = userId ∧ tc.grade ≠ 99) fun q => q.2,
    hquery (fun tc => tc.userId = userId ∧ tc.grade = 99) fun q => q.2]

variable {classes : Classes}

theorem takeClasses_classed : (db.classed classes grade).takeClasses = db.takeClasses := by
  unfold classed
  split <;> rfl

theorem users_classed : (db.classed classes grade).users = db.users := by
  unfold classed
  split <;> rfl

theorem findNum_congr (hrows : db'.takeClasses = db.takeClasses) :
    db'.findNumOfCurStudent classId = db.findNumOfCurStudent classId := by
  unfold findNumOfCurStudent
  rw [hrows]

theorem score_congr (hrows : db'.takeClasses = db.takeClasses) (husers : db'.users = db.users) :
    db'.score classId = db.score classId := by
  unfold score findClassAverage findClassUserAverage
  rw [hrows, husers]

/-- The class that is updated. -/
theorem find_classed_self (hc : db.classes.find classes.classId = some classes) :
    (db.classed classes grade).classes.find classes.classId = some { classes with
      averageScore := (db.score classes.classId).or classes.averageScore
      curStudentNum := if grade = 99 then classes.curStudentNum
        else db.findNumOfCurStudent classes.classId } := by
  unfold classed
  split
  · rw [find_updateClasses, hc, Option.map_some, if_pos rfl]
    rfl
  · rw [find_setCurStudent, find_updateClasses, hc, Option.map_some, Option.map_some, if_pos rfl,
      if_pos (by rfl)]
    rfl

theorem find_classed_of_ne {id : ℤ} (hid : id ≠ classes.classId) :
    (db.classed classes grade).classes.find id = db.classes.find id := by
  have hupdate : ∀ form, (db.updateClasses classes.classId form).classes.find id =
      db.classes.find id := fun form =>
    Table.find_modify_of_ne (t := db.classes) (·.update form) (fun _ => rfl) hid
  have hcount : ∀ (d : Db) n, (d.setCurStudent classes.classId n).classes.find id =
      d.classes.find id := fun d n =>
    Table.find_modify_of_ne (t := d.classes) (·.setCurStudent n) (fun _ => rfl) hid
  unfold classed
  split
  · exact hupdate _
  · exact (hcount _ _).trans (hupdate _)

theorem totals_classed (hc : db.classes.find classes.classId = some classes) :
    (db.classed classes grade).totals userId = db.totals userId := by
  refine totals_congr takeClasses_classed fun id => ?_
  by_cases hid : id = classes.classId
  · rw [hid, find_classed_self hc, hc]
    rfl
  · rw [find_classed_of_ne hid]

/-- The row after its grade is entered. -/
theorem find_setGrade_self {tc : TakeClass} (htc : db.takeClasses.find takeId = some tc) :
    (db.setGrade takeId grade).takeClasses.find takeId = some { tc with grade } := by
  rw [find_setGrade, htc, Option.map_some, if_pos (Table.key_of_find htc)]

end Db

/-! ### How the handler ends -/

namespace UserController

open Caller

variable {requestDto : TakeClassUpdateRequestDto} {tc : TakeClass} {user : User} {classes : Classes}

/-- The form is shown again when a service fails. -/
theorem gradeUpdate_of_error {x : Caller Db Exception Unit} {d : Db}
    (hx : (enterGrade takeId userId classId requestDto).result db = x.result d)
    (h : ∃ e, x.result d = (.error e, db')) :
    gradeUpdate takeId userId classId requestDto db = ("changeGrade", db') := by
  obtain ⟨e, he⟩ := h
  unfold gradeUpdate
  rw [hx, he]

/-- There is no such row, or the form has no grade. -/
theorem gradeUpdate_refused (h : db.takeClasses.find takeId = none ∨ requestDto.grade = none) :
    gradeUpdate takeId userId classId requestDto db = ("changeGrade", db) := by
  refine gradeUpdate_of_error rfl (result_commit_bind_of_fail fun a s' hrun => ?_)
  obtain ⟨tc, grade, htc, hgrade, -⟩ := TakeClassService.update_cases hrun
  rcases h with h | h
  · cases htc.symm.trans h
  · cases hgrade.symm.trans h

/-- There is no such user or no such class. The grade is entered by then. -/
theorem gradeUpdate_missing (htc : db.takeClasses.find takeId = some tc)
    (hgrade : requestDto.grade = some grade)
    (h : db.users.find userId = none ∨ db.classes.find classId = none) :
    gradeUpdate takeId userId classId requestDto db =
      ("changeGrade", db.setGrade takeId grade) := by
  cases huser : db.users.find userId with
  | none =>
    refine gradeUpdate_of_error
      (result_commit_bind_of_ok (TakeClassService.run_update htc hgrade))
      (result_commit_bind_of_fail fun a s' hrun => ?_)
    cases huser.symm.trans (UserService.findById_eq_ok.1 hrun).1
  | some user =>
    have hclass : db.classes.find classId = none :=
      h.resolve_left fun h => Option.some_ne_none _ (huser.symm.trans h)
    refine gradeUpdate_of_error
      ((result_commit_bind_of_ok (TakeClassService.run_update htc hgrade)).trans
        (result_commit_bind_of_ok (UserService.findById_eq_ok.2 ⟨huser, rfl⟩)))
      (result_commit_bind_of_fail fun a s' hrun => ?_)
    cases hclass.symm.trans (ClassesService.findById_eq_ok.1 hrun).1

/-- All rows are there, so it is the update of the user that decides. -/
theorem enterGrade_found (htc : db.takeClasses.find takeId = some tc)
    (hgrade : requestDto.grade = some grade) (huser : db.users.find userId = some user)
    (hc : db.classes.find classId = some classes) :
    (enterGrade takeId userId classId requestDto).result db =
      (Caller.commit (UserService.update userId (.ofUser user)) >>= fun _ =>
        (pure () : Caller Db Exception Unit)).result
          ((db.setGrade takeId grade).classed classes grade) := by
  have hid := Table.key_of_find hc
  have huid := Table.key_of_find huser
  have huser₁ : (db.setGrade takeId grade).users.find userId = some user := huser
  have hc₁ : (db.setGrade takeId grade).classes.find classId = some classes := hc
  have hc₂ : ((db.setGrade takeId grade).updateClasses classId
      { ClassUpdateRequestDto.ofClasses classes with
        averageScore := ((db.setGrade takeId grade).score classId).or
          classes.averageScore }).classes.find classId =
      some (classes.update { ClassUpdateRequestDto.ofClasses classes with
        averageScore := ((db.setGrade takeId grade).score classId).or classes.averageScore }) := by
    rw [Db.find_updateClasses, hc₁, Option.map_some, if_pos hid]
  unfold enterGrade
  rw [result_commit_bind_of_ok (TakeClassService.run_update htc hgrade),
    result_commit_bind_of_ok (UserService.findById_eq_ok.2 ⟨huser₁, rfl⟩),
    result_commit_bind_of_ok (ClassesService.findById_eq_ok.2 ⟨hc₁, rfl⟩), hid, huid,
    result_commit_bind_of_ok (ClassesService.run_update hc₁)]
  unfold commitIf Db.classed
  rw [hid, hgrade]
  by_cases h99 : grade = 99
  · rw [if_neg (by simp [h99]), if_pos h99]
    rfl
  · rw [if_pos (by simpa using h99), if_neg h99]
    exact result_commit_bind_of_ok (ClassesService.run_cancel hc₂)

/-- The sums of the user cannot be computed. The grade and the class are written by then. -/
theorem gradeUpdate_failed (htc : db.takeClasses.find takeId = some tc)
    (hgrade : requestDto.grade = some grade) (huser : db.users.find userId = some user)
    (hc : db.classes.find classId = some classes)
    (ht : (db.setGrade takeId grade).totals userId = none) :
    gradeUpdate takeId userId classId requestDto db =
      ("changeGrade", (db.setGrade takeId grade).classed classes grade) := by
  have hid := Table.key_of_find hc
  refine gradeUpdate_of_error (enterGrade_found htc hgrade huser hc)
    (result_commit_bind_of_fail fun a s' hrun => ?_)
  rw [UserService.update_eq_ok (by rw [Db.users_classed]; exact huser)] at hrun
  obtain ⟨-, t, ht', -⟩ := hrun
  rw [Db.totals_classed (by rw [hid]; exact hc), ht] at ht'
  cases ht'

/-- All five services complete. -/
theorem gradeUpdate_done (htc : db.takeClasses.find takeId = some tc)
    (hgrade : requestDto.grade = some grade) (huser : db.users.find userId = some user)
    (hc : db.classes.find classId = some classes)
    (ht : (db.setGrade takeId grade).totals userId = some t) :
    gradeUpdate takeId userId classId requestDto db = ("redirect:/studentList",
      ((db.setGrade takeId grade).classed classes grade).updateUser userId
        (t.form (.ofUser user))) := by
  have hid := Table.key_of_find hc
  have hrun : (UserService.update userId (.ofUser user)).run
      ((db.setGrade takeId grade).classed classes grade) = .ok (userId,
        ((db.setGrade takeId grade).classed classes grade).updateUser userId
          (t.form (.ofUser user))) := by
    rw [UserService.update_eq_ok (by rw [Db.users_classed]; exact huser)]
    exact ⟨rfl, t, by rw [Db.totals_classed (by rw [hid]; exact hc), ht]; rfl, rfl⟩
  unfold gradeUpdate
  rw [enterGrade_found htc hgrade huser hc, result_commit_bind_of_ok hrun]
  rfl

end UserController

/-! ### All or nothing -/

/-- The rows that the path names are as before. -/
structure Untouched (takeId userId classId : ℤ) (db db' : Db) : Prop where
  takeClass : db'.takeClasses.find takeId = db.takeClasses.find takeId
  classes : db'.classes.find classId = db.classes.find classId
  user : db'.users.find userId = db.users.find userId

/-- The row has the grade, and the columns of its class and of its student are those that the
    rows give. -/
structure UpToDate (takeId : ℤ) (grade : Option ℤ) (db : Db) : Prop where
  grade : ∃ tc ∈ db.takeClasses.find takeId, some tc.grade = grade
  score : ∀ tc ∈ db.takeClasses.find takeId, ∀ c ∈ db.classes.find tc.classId, db.ScoreCurrent c
  seats : ∀ tc ∈ db.takeClasses.find takeId, db.Off tc.classId 0
  student : ∀ tc ∈ db.takeClasses.find takeId, ∀ u ∈ db.users.find tc.userId, db.UserCurrent u

/-- The handler ends in its failure view and has changed nothing, or brings all up to date. -/
def AllOrNothing (takeId userId classId : ℤ) (requestDto : TakeClassUpdateRequestDto) (db : Db) :
    Prop :=
  if (UserController.gradeUpdate takeId userId classId requestDto db).1 = "changeGrade" then
    Untouched takeId userId classId db
      (UserController.gradeUpdate takeId userId classId requestDto db).2
  else UpToDate takeId requestDto.grade
      (UserController.gradeUpdate takeId userId classId requestDto db).2

/-- The student and the class of the path are those of the row, or what they miss is right
    already. Here `db` has the grade, and `db'` also the new average of the student of the path. -/
structure Belongs (db db' : Db) (userId : ℤ) (classes : Classes) (tc : TakeClass) (grade : ℤ) :
    Prop where
  student : tc.userId = userId ∨ ∀ u ∈ db.users.find tc.userId, db.UserCurrent u
  seats : tc.classId = classes.classId ∧ grade ≠ 99 ∨ db.Off tc.classId 0
  score : if tc.classId = classes.classId then
      ∀ score ∈ db'.score tc.classId, (db.score tc.classId).or classes.averageScore = some score
    else ∀ c ∈ db.classes.find tc.classId, db'.ScoreCurrent c

/-- The row or the grade is missing; or the user, the class and the sums of the user are there,
    and belong to the row; or one of them is not, and everything written before is there
    already. -/
def Fitting (takeId userId classId : ℤ) (requestDto : TakeClassUpdateRequestDto) (db : Db) : Prop :=
  ∀ tc ∈ db.takeClasses.find takeId, ∀ grade ∈ requestDto.grade,
    match db.users.find userId, db.classes.find classId,
      (db.setGrade takeId grade).totals userId with
    | some user, some classes, some t =>
      Belongs (db.setGrade takeId grade)
        ((db.setGrade takeId grade).updateUser userId (t.form (.ofUser user))) userId classes tc
        grade
    | some _, some classes, none =>
      grade = tc.grade ∧ db.ScoreCurrent classes ∧ (grade = 99 ∨ db.Off classId 0)
    | _, _, _ => grade = tc.grade

namespace Db

variable {classes : Classes} {form : UserUpdateRequestDto} {id : ℤ}

theorem score_done : ((db.classed classes grade).updateUser userId form).score id =
    (db.updateUser userId form).score id := by
  refine score_congr takeClasses_classed ?_
  unfold updateUser
  rw [users_classed]

/-- The average of a class in the end. -/
theorem scoreCurrent_done (hc : db.classes.find classes.classId = some classes) :
    (∀ c ∈ ((db.classed classes grade).updateUser userId form).classes.find id,
      ((db.classed classes grade).updateUser userId form).ScoreCurrent c) ↔
    if id = classes.classId then ∀ score ∈ (db.updateUser userId form).score id,
      (db.score id).or classes.averageScore = some score
    else ∀ c ∈ db.classes.find id, (db.updateUser userId form).ScoreCurrent c := by
  unfold ScoreCurrent
  simp only [score_done]
  change (∀ c ∈ (db.classed classes grade).classes.find id, _) ↔ _
  split
  · next hid =>
    rw [hid, find_classed_self hc]
    simp
  · next hid => rw [find_classed_of_ne hid]

/-- The seats of a class in the end. -/
theorem off_done (hc : db.classes.find classes.classId = some classes) :
    ((db.classed classes grade).updateUser userId form).Off id 0 ↔
      id = classes.classId ∧ grade ≠ 99 ∨ db.Off id 0 := by
  have hnum : ((db.classed classes grade).updateUser userId form).findNumOfCurStudent id =
      db.findNumOfCurStudent id := findNum_congr takeClasses_classed
  unfold Off
  rw [hnum]
  change (∀ c ∈ (db.classed classes grade).classes.find id, _) ↔ _
  by_cases hid : id = classes.classId
  · subst hid
    rw [find_classed_self hc, hc]
    by_cases h99 : grade = 99
    · simp [h99]
    · simp [h99]
  · rw [find_classed_of_ne hid]
    simp [hid]

/-- The columns of a user in the end. -/
theorem userCurrent_done (hc : db.classes.find classes.classId = some classes) {user : User}
    (huser : db.users.find userId = some user) (ht : db.totals userId = some t) :
    (∀ u ∈ ((db.classed classes grade).updateUser userId (t.form (.ofUser user))).users.find id,
      ((db.classed classes grade).updateUser userId (t.form (.ofUser user))).UserCurrent u) ↔
    id = userId ∨ ∀ u ∈ db.users.find id, db.UserCurrent u := by
  have htotals : ∀ i, ((db.classed classes grade).updateUser userId
      (t.form (.ofUser user))).totals i = db.totals i := fun i =>
    (totals_congr rfl fun _ => rfl).trans (totals_classed hc)
  unfold UserCurrent
  simp only [htotals]
  rw [find_updateUser, users_classed]
  by_cases hid : id = userId
  · subst hid
    rw [huser, Option.map_some, if_pos (Table.key_of_find huser)]
    refine iff_of_true (fun u hu => ?_) (.inl rfl)
    obtain rfl := Option.some.inj hu
    exact ⟨t, (congrArg db.totals (Table.key_of_find huser)).trans ht, rfl, rfl, rfl⟩
  · have hfind : (db.users.find id).map (fun u => if u.userId = userId then
        u.update (t.form (.ofUser user)) else u) = db.users.find id := by
      cases hu : db.users.find id with
      | none => rfl
      | some u => rw [Option.map_some, if_neg ((Table.key_of_find hu).trans_ne hid)]
    rw [hfind]
    simp [hid]

end Db

/-- A row whose grade is entered is as before if and only if it had that grade. -/
theorem find_setGrade_eq_iff {tc : TakeClass} (htc : db.takeClasses.find takeId = some tc) :
    (db.setGrade takeId grade).takeClasses.find takeId = db.takeClasses.find takeId ↔
      grade = tc.grade := by
  rw [Db.find_setGrade_self htc, htc, Option.some.injEq]
  constructor
  · exact fun h => congrArg TakeClass.grade h
  · rintro rfl
    rfl

/-- What is left when the sums of the user cannot be computed. -/
theorem untouched_failed_iff {tc : TakeClass} {classes : Classes}
    (htc : db.takeClasses.find takeId = some tc) (hc : db.classes.find classId = some classes) :
    Untouched takeId userId classId db ((db.setGrade takeId grade).classed classes grade) ↔
      grade = tc.grade ∧ db.ScoreCurrent classes ∧ (grade = 99 ∨ db.Off classId 0) := by
  obtain rfl := Table.key_of_find hc
  have hrow : ((db.setGrade takeId grade).classed classes grade).takeClasses.find takeId =
      db.takeClasses.find takeId ↔ grade = tc.grade := by
    rw [Db.takeClasses_classed]
    exact find_setGrade_eq_iff htc
  have hclass : grade = tc.grade →
      (((db.setGrade takeId grade).classed classes grade).classes.find classes.classId =
        db.classes.find classes.classId ↔
          db.ScoreCurrent classes ∧ (grade = 99 ∨ db.Off classes.classId 0)) := by
    rintro rfl
    rw [Respects.setGrade fun tc' htc' =>
      congrArg TakeClass.grade (Option.some.inj (htc.symm.trans htc')), Db.find_classed_self hc, hc]
    unfold Db.ScoreCurrent Db.Off
    rw [hc]
    generalize db.score classes.classId = score
    generalize db.findNumOfCurStudent classes.classId = n
    cases classes
    by_cases h99 : tc.grade = 99
    · cases score <;> simp [h99, eq_comm]
    · cases score <;> simp [h99, eq_comm, and_comm]
  constructor
  · intro h
    have hgrade := hrow.1 h.takeClass
    exact ⟨hgrade, (hclass hgrade).1 h.classes⟩
  · rintro ⟨hgrade, hrest⟩
    refine ⟨hrow.2 hgrade, (hclass hgrade).2 hrest, ?_⟩
    rw [Db.users_classed]
    rfl

end

/-! ### Entries that stop half way -/

/-- A student in a class, and no other class. -/
def oneRow : Db :=
  { twoClasses with takeClasses := ⟨[⟨0, 1, 1, 99⟩], 1, by decide, by decide⟩ }

end Registration
