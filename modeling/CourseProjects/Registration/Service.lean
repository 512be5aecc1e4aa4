import CourseProjects.Lib.Transaction
import CourseProjects.Registration.Domain

/-!
# The services

Each method of a service is one transaction: it completes, or fails with an exception and
is rolled back. A method that calls another one runs it in its own transaction. The entry
of a grade is different: the controller calls five services one after the other, and what
the first ones did stays when a later one fails (`UserController.gradeUpdate`).

* `TakeClassService.save_cases`, `TakeClassService.delete_cases`, `UserService.update_cases`,
  `ClassesService.update_cases` and so on: what a completed method found, and what it did.
-/

namespace Registration

/-- A method of a service, one transaction on the database. -/
abbrev Service := Tx Db Exception

open Tx MonadExcept

/-! ### Users -/

namespace UserService

def findById (userId : ℤ) : Service User := do
  let db ← get
  ofOption (.illegalArgument "Failed: No User Info") (db.users.find userId)

/-- The average of the grades, in credits: zero when there are none. -/
def avg (sum doneGrade : Option ℤ) : ℤ :=
  match doneGrade with
  | none => 0
  | some doneGrade => wrap ((sum.getD 0).tdiv doneGrade)

/-- The sums over the rows of the user are computed again. -/
def update (userId : ℤ) (requestDto : UserUpdateRequestDto) : Service ℤ := do
  let _ ← findById userId
  let db ← get
  let sum ← ofExcept (db.findUserGradeSum userId)
  let doneGrade ← ofExcept (db.findDoneGradeSum userId)
  failIf (doneGrade = some 0) .arithmetic
  let thisYearGrade ← ofExcept (db.findThisYearGradeSum userId)
  modify (Db.updateUser · userId { requestDto with
    averageScore := some (avg sum doneGrade)
    thisYearGrade := thisYearGrade
    doneGrade := some (doneGrade.getD 0) })
  return userId

/-- A new user, whose login is not taken. -/
def join (signUpDto : UserSignUpDto) : Service ℤ := do
  let db ← get
  failIf (∃ user ∈ db.users.rows, user.loginId = signUpDto.loginId)
    (.illegalArgument "Failed: Already Exist ID!")
  failIf (signUpDto.password ≠ signUpDto.passwordConfirm)
    (.illegalArgument "Failed: Please Check Password!")
  failIf (signUpDto.majorId ∉ db.majors) .noSuchElement
  set { db with users := db.users.insert (fun userId =>
    { userId
      aaaa := false
      loginId := signUpDto.loginId
      username := signUpDto.username
      email := signUpDto.email
      phoneNumber := signUpDto.phoneNumber
      averageScore := some 0
      thisYearGrade := some 0
      doneGrade := some 0 }) rfl }
  return db.users.next

end UserService

/-! ### Classes -/

namespace ClassesService

def findById (classId : ℤ) : Service Classes := do
  let db ← get
  ofOption (.illegalArgument "Failed: No Classes Info") (db.classes.find classId)

/-- The number of seats is replaced, and the average when there are grades. -/
def update (classId : ℤ) (requestDto : ClassUpdateRequestDto) : Service ℤ := do
  let db ← get
  let _ ← ofOption (.illegalArgument "Failed: No Class Info") (db.classes.find classId)
  let averageScore := match db.findClassAverage classId, db.findClassUserAverage classId with
    | some ans1, some ans2 => some (wrap (ans2 - ans1))
    | _, _ => requestDto.averageScore
  set (db.updateClasses classId { requestDto with averageScore })
  return classId

/-- A new class. The columns that may not be null are checked when it is stored. -/
def save (courseId roomId : Option ℤ) (classes : ClassUpdateRequestDto) : Service ℤ := do
  let db ← get
  let courseId ← ofOption .dataAccess courseId
  failIf (courseId ∉ db.courses) .noSuchElement
  let roomId ← ofOption .dataAccess roomId
  let room ← ofOption .noSuchElement (db.rooms.find? fun room => room.roomId = roomId)
  failIf (room.maxPerson < classes.maxStudentNum)
    (.illegalArgument "Failed: Over Class Size")
  let professorName ← ofOption .dataAccess classes.professorName
  let startTime ← ofOption .dataAccess classes.startTime
  let endTime ← ofOption .dataAccess classes.endTime
  let day ← ofOption .dataAccess classes.day
  let gradeAmount ← ofOption .dataAccess classes.gradeAmount
  set { db with classes := db.classes.insert (fun classId =>
    { classId
      courseId
      classNumber := classes.classNumber
      professorName
      maxStudentNum := classes.maxStudentNum
      curStudentNum := classes.curStudentNum
      averageScore := some 0
      roomId
      startTime
      endTime
      day
      gradeAmount }) rfl }
  return db.classes.next

/-- The class is deleted, unless a row of `Credit` refers to it. -/
def delete (classId : ℤ) : Service Unit := do
  let db ← get
  let _ ← ofOption (.illegalArgument "Failed: No Class Info") (db.classes.find classId)
  failIf (classId ∈ db.credits) .dataAccess
  set (db.dropClasses classId)

/-- The students of the class are counted again. -/
def cancel (classId : ℤ) : Service Unit := do
  let db ← get
  let classes ← ofOption (.illegalArgument "Failed: No Class Info") (db.classes.find classId)
  set (db.setCurStudent classId (db.findNumOfCurStudent classes.classId))

end ClassesService

/-! ### Classes that are taken -/

namespace TakeClassService

/-- The checks at the head of `save`. -/
def check (userId classId : ℤ) : Service (User × Classes) := do
  let db ← get
  let user ← ofOption .noSuchElement (db.users.find userId)
  let classes ← ofOption .noSuchElement (db.classes.find classId)
  failIf (wrap (user.thisYearGrade.getD 0 + classes.gradeAmount) > 18)
    (.illegalArgument "Failed: cannot attend Over 18!")
  failIf (db.findNoAgain userId classId ≠ [])
    (.illegalArgument "Failed: above B0 cannot re attend!")
  failIf classes.isFull (.illegalArgument "Failed: Full")
  failIf (∃ p ∈ db.join, p.1.userId = userId ∧ p.2.courseId = classes.courseId)
    (.illegalArgument "Failed: Already Registered!")
  failIf (db.findRepeat userId classes.day classes.startTime classes.endTime ≠ [])
    (.illegalArgument "Failed: classTime is repeated")
  return (user, classes)

/-- A user takes a class. -/
def save (userId classId : ℤ) : Service ℤ := do
  let (_, classes) ← check userId classId
  let takeId := (← get).takeClasses.next
  modify (Db.enrol · userId classId)
  modify fun db => db.setCurStudent classId (db.findNumOfCurStudent classes.classId)
  let user ← UserService.findById userId
  let _ ← UserService.update userId (.ofUser user)
  return takeId

/-- A user gives a class back. The students of the class are counted before the row goes. -/
def delete (takeId : ℤ) : Service Unit := do
  let db ← get
  let takeClass ← ofOption .noSuchElement (db.takeClasses.find takeId)
  failIf (db.findNoAgain takeClass.userId takeClass.classId ≠ [])
    (.illegalArgument "Failed: above B0 cannot erase classes")
  let _ ← ofOption .noSuchElement (db.users.find takeClass.userId)
  let classes ← ofOption .noSuchElement (db.classes.find takeClass.classId)
  modify fun db => db.setCurStudent classes.classId (db.findNumOfCurStudent classes.classId)
  modify (Db.drop · takeId)
  let user ← UserService.findById takeClass.userId
  let _ ← UserService.update takeClass.userId (.ofUser user)
  return

/-- The grade of a row is replaced. The column may not be null. -/
def update (takeId : ℤ) (takenrequestDto : TakeClassUpdateRequestDto) : Service ℤ := do
  let db ← get
  let _ ← ofOption (.illegalArgument "Failed: No Class Info") (db.takeClasses.find takeId)
  let grade ← ofOption .dataAccess takenrequestDto.grade
  set (db.setGrade takeId grade)
  return takeId

end TakeClassService

/-! ### Classes that are hoped for -/

namespace HopeClassService

def save (userId classId : ℤ) : Service ℤ := do
  let db ← get
  let _ ← ofOption .noSuchElement (db.users.find userId)
  let _ ← ofOption .noSuchElement (db.classes.find classId)
  set { db with hopeClasses := db.hopeClasses.insert (fun hopeId => ⟨hopeId, userId, classId⟩) rfl }
  return db.hopeClasses.next

def delete (hopeId : ℤ) : Service Unit := do
  let db ← get
  let hopeClass ← ofOption .noSuchElement (db.hopeClasses.find hopeId)
  let _ ← ofOption .noSuchElement (db.users.find hopeClass.userId)
  let _ ← ofOption .noSuchElement (db.classes.find hopeClass.classId)
  set { db with hopeClasses := db.hopeClasses.filter fun h => h.hopeId ≠ hopeId }

end HopeClassService

/-! ### The entry of a grade -/

/-- The services that the entry of a grade calls. The identifiers of the row, the user and
    the class come from the path, each on its own. -/
def UserController.enterGrade (takeId userId classId : ℤ)
    (takeClassUpdateRequestDto : TakeClassUpdateRequestDto) : Caller Db Exception Unit := do
  let _ ← Caller.commit (TakeClassService.update takeId takeClassUpdateRequestDto)
  let user ← Caller.commit (UserService.findById userId)
  let classes ← Caller.commit (ClassesService.findById classId)
  let _ ← Caller.commit (ClassesService.update classes.classId (.ofClasses classes))
  Caller.commitIf (takeClassUpdateRequestDto.grade ≠ some 99) (ClassesService.cancel classId)
  let _ ← Caller.commit (UserService.update user.userId (.ofUser user))

/-- The view after the entry of a grade: the form again, or the list of students. -/
def UserController.gradeUpdate (takeId userId classId : ℤ)
    (takeClassUpdateRequestDto : TakeClassUpdateRequestDto) (db : Db) : String × Db :=
  match (enterGrade takeId userId classId takeClassUpdateRequestDto).result db with
  | (.error _, db) => ("changeGrade", db)
  | (.ok _, db) => ("redirect:/studentList", db)

/-! ### Calls -/

/-- The calls that change the tables. -/
inductive Call
  | save (userId classId : ℤ)
  | delete (takeId : ℤ)
  | gradeUpdate (takeId userId classId : ℤ) (requestDto : TakeClassUpdateRequestDto)
  | updateUser (userId : ℤ) (requestDto : UserUpdateRequestDto)
  | updateClasses (classId : ℤ) (requestDto : ClassUpdateRequestDto)
  | deleteClasses (classId : ℤ)
  | saveClasses (courseId roomId : Option ℤ) (requestDto : ClassUpdateRequestDto)
  | join (signUpDto : UserSignUpDto)
  | saveHope (userId classId : ℤ)
  | deleteHope (hopeId : ℤ)
  deriving DecidableEq

/-- What a call runs. -/
def Call.body : Call → Caller Db Exception Unit
  | .save userId classId => .perform (TakeClassService.save userId classId)
  | .delete takeId => .perform (TakeClassService.delete takeId)
  | .gradeUpdate takeId userId classId requestDto =>
    UserController.enterGrade takeId userId classId requestDto
  | .updateUser userId requestDto => .perform (UserService.update userId requestDto)
  | .updateClasses classId requestDto => .perform (ClassesService.update classId requestDto)
  | .deleteClasses classId => .perform (ClassesService.delete classId)
  | .saveClasses courseId roomId requestDto =>
    .perform (ClassesService.save courseId roomId requestDto)
  | .join signUpDto => .perform (UserService.join signUpDto)
  | .saveHope userId classId => .perform (HopeClassService.save userId classId)
  | .deleteHope hopeId => .perform (HopeClassService.delete hopeId)

/-- Whether a call completes, and the database after it. -/
def call (db : Db) (e : Call) : Except Exception Unit × Db := e.body.result db

/-! ### Completed methods -/

variable {db db' : Db} {userId classId takeId hopeId r : ℤ}

namespace UserService

theorem findById_eq_ok {user : User} :
    (findById userId).run db = .ok (user, db') ↔ db.users.find userId = some user ∧ db' = db := by
  unfold findById
  simp only [bind_eq_ok, get_eq_ok, ofOption_eq_ok, Prod.mk.injEq]
  constructor
  · rintro ⟨_, _, ⟨rfl, rfl⟩, h⟩
    exact h
  · exact fun h => ⟨db, db, ⟨rfl, rfl⟩, h⟩

/-- A completed update stores the sums of the rows. -/
theorem update_cases {requestDto : UserUpdateRequestDto}
    (h : (update userId requestDto).run db = .ok (r, db')) :
    ∃ sum doneGrade thisYearGrade,
      db.findUserGradeSum userId = .ok sum ∧ db.findDoneGradeSum userId = .ok doneGrade ∧
      doneGrade ≠ some 0 ∧ db.findThisYearGradeSum userId = .ok thisYearGrade ∧
      db' = db.updateUser userId { requestDto with
        averageScore := some (avg sum doneGrade)
        thisYearGrade := thisYearGrade
        doneGrade := some (doneGrade.getD 0) } := by
  unfold update at h
  simp only [bind_eq_ok, get_eq_ok, ofExcept_eq_ok, failIf_eq_ok, modify_eq_ok, pure_eq_ok,
    findById_eq_ok, Prod.mk.injEq] at h
  obtain ⟨_, _, ⟨-, rfl⟩, _, _, ⟨rfl, rfl⟩, sum, _, ⟨hsum, rfl⟩, done, _, ⟨hdone, rfl⟩, _, _,
    ⟨hne, -, rfl⟩, year, _, ⟨hyear, rfl⟩, _, _, ⟨-, rfl⟩, -, rfl⟩ := h
  exact ⟨sum, done, year, hsum, hdone, hne, hyear, rfl⟩

/-- A new user changes no other table. -/
theorem join_cases {signUpDto : UserSignUpDto} (h : (join signUpDto).run db = .ok (r, db')) :
    db'.classes = db.classes ∧ db'.takeClasses = db.takeClasses := by
  unfold join at h
  simp only [bind_eq_ok, get_eq_ok, failIf_eq_ok, set_eq_ok, pure_eq_ok, Prod.mk.injEq] at h
  obtain ⟨_, _, ⟨rfl, rfl⟩, _, _, ⟨-, -, rfl⟩, _, _, ⟨-, -, rfl⟩, _, _, ⟨-, -, rfl⟩, _, _,
    ⟨-, rfl⟩, -, rfl⟩ := h
  exact ⟨rfl, rfl⟩

end UserService

namespace ClassesService

theorem findById_eq_ok {classes : Classes} :
    (findById classId).run db = .ok (classes, db') ↔
      db.classes.find classId = some classes ∧ db' = db := by
  unfold findById
  simp only [bind_eq_ok, get_eq_ok, ofOption_eq_ok, Prod.mk.injEq]
  constructor
  · rintro ⟨_, _, ⟨rfl, rfl⟩, h⟩
    exact h
  · exact fun h => ⟨db, db, ⟨rfl, rfl⟩, h⟩

/-- A completed update takes the seats from the form. -/
theorem update_cases {requestDto : ClassUpdateRequestDto}
    (h : (update classId requestDto).run db = .ok (r, db')) :
    ∃ classes averageScore, db.classes.find classId = some classes ∧
      db' = db.updateClasses classId { requestDto with averageScore } := by
  unfold update at h
  simp only [bind_eq_ok, get_eq_ok, ofOption_eq_ok, set_eq_ok, pure_eq_ok, Prod.mk.injEq] at h
  obtain ⟨_, _, ⟨rfl, rfl⟩, classes, _, ⟨hc, rfl⟩, _, _, ⟨-, rfl⟩, -, rfl⟩ := h
  exact ⟨classes, _, hc, rfl⟩

/-- A completed insertion: the form names a course and a room that is large enough, and leaves
    no column out. -/
theorem save_cases {courseId roomId' : Option ℤ} {form : ClassUpdateRequestDto}
    (h : (save courseId roomId' form).run db = .ok (r, db')) :
    (∃ courseId' ∈ courseId, courseId' ∈ db.courses) ∧
    (∃ roomId ∈ roomId', ∃ room ∈ db.rooms.find? fun room => room.roomId = roomId,
      form.maxStudentNum ≤ room.maxPerson) ∧ form.professorName.isSome ∧ form.startTime.isSome ∧
    form.endTime.isSome ∧ form.day.isSome ∧ form.gradeAmount.isSome := by
  unfold save at h
  simp only [bind_eq_ok, get_eq_ok, ofOption_eq_ok, failIf_eq_ok, Prod.mk.injEq] at h
  obtain ⟨_, _, ⟨rfl, rfl⟩, courseId', _, ⟨hcourse, rfl⟩, _, _, ⟨hmem, -, rfl⟩, roomId, _,
    ⟨hroom, rfl⟩, room, _, ⟨hfind, rfl⟩, _, _, ⟨hsize, -, rfl⟩, _, _, ⟨hprof, rfl⟩, _, _,
    ⟨hstart, rfl⟩, _, _, ⟨hend, rfl⟩, _, _, ⟨hday, rfl⟩, _, _, ⟨hamount, rfl⟩, -⟩ := h
  exact ⟨⟨courseId', hcourse, not_not.1 hmem⟩, ⟨roomId, hroom, room, hfind, Int.not_lt.1 hsize⟩,
    Option.isSome_of_eq_some hprof, Option.isSome_of_eq_some hstart,
    Option.isSome_of_eq_some hend, Option.isSome_of_eq_some hday,
    Option.isSome_of_eq_some hamount⟩

/-- A completed deletion. -/
theorem delete_cases {u : Unit} (h : (delete classId).run db = .ok (u, db')) :
    (∃ classes, db.classes.find classId = some classes) ∧ classId ∉ db.credits ∧
      db' = db.dropClasses classId := by
  unfold delete at h
  simp only [bind_eq_ok, get_eq_ok, ofOption_eq_ok, failIf_eq_ok, set_eq_ok, Prod.mk.injEq] at h
  obtain ⟨_, _, ⟨rfl, rfl⟩, classes, _, ⟨hc, rfl⟩, _, _, ⟨hcredit, -, rfl⟩, -, rfl⟩ := h
  exact ⟨⟨classes, hc⟩, hcredit, rfl⟩

/-- A completed count. -/
theorem cancel_cases {u : Unit} (h : (cancel classId).run db = .ok (u, db')) :
    db' = db.setCurStudent classId (db.findNumOfCurStudent classId) := by
  unfold cancel at h
  simp only [bind_eq_ok, get_eq_ok, ofOption_eq_ok, set_eq_ok, Prod.mk.injEq] at h
  obtain ⟨_, _, ⟨rfl, rfl⟩, classes, _, ⟨hc, rfl⟩, -, rfl⟩ := h
  rw [Table.key_of_find hc]

end ClassesService

namespace TakeClassService

/-- What the checks of `save` let through when a seat is left. -/
structure Valid (db : Db) (userId classId : ℤ) (user : User) (classes : Classes) : Prop where
  foundUser : db.users.find userId = some user
  foundClasses : db.classes.find classId = some classes
  credits : wrap (user.thisYearGrade.getD 0 + classes.gradeAmount) ≤ 18
  noAgain : db.findNoAgain userId classId = []
  course : ∀ p ∈ db.join, p.1.userId = userId → p.2.courseId ≠ classes.courseId
  time : db.findRepeat userId classes.day classes.startTime classes.endTime = []

/-- What the checks of `save` let through. -/
structure Admits (db : Db) (userId classId : ℤ) (user : User) (classes : Classes) : Prop
    extends Valid db userId classId user classes where
  seat : ¬ classes.isFull

theorem check_eq_ok {user : User} {classes : Classes} :
    (check userId classId).run db = .ok ((user, classes), db') ↔
      Admits db userId classId user classes ∧ db' = db := by
  unfold check
  simp only [bind_eq_ok, get_eq_ok, ofOption_eq_ok, failIf_eq_ok, pure_eq_ok, Prod.mk.injEq]
  constructor
  · rintro ⟨_, _, ⟨rfl, rfl⟩, u, _, ⟨hu, rfl⟩, c, _, ⟨hc, rfl⟩, _, _, ⟨hcredits, -, rfl⟩, _, _,
      ⟨hno, -, rfl⟩, _, _, ⟨hseat, -, rfl⟩, _, _, ⟨hcourse, -, rfl⟩, _, _, ⟨htime, -, rfl⟩,
      ⟨rfl, rfl⟩, rfl⟩
    exact ⟨⟨⟨hu, hc, Int.not_lt.1 hcredits, not_not.1 hno,
      fun p hp hu he => hcourse ⟨p, hp, hu, he⟩, not_not.1 htime⟩, hseat⟩, rfl⟩
  · rintro ⟨h, rfl⟩
    exact ⟨_, _, ⟨rfl, rfl⟩, user, _, ⟨h.foundUser, rfl⟩, classes, _, ⟨h.foundClasses, rfl⟩, ⟨⟩, _,
      ⟨Int.not_lt.2 h.credits, trivial, rfl⟩, ⟨⟩, _, ⟨not_not.2 h.noAgain, trivial, rfl⟩, ⟨⟩, _,
      ⟨h.seat, trivial, rfl⟩, ⟨⟩, _, ⟨fun ⟨p, hp, hu, he⟩ => h.course p hp hu he, trivial, rfl⟩,
      ⟨⟩, _, ⟨not_not.2 h.time, trivial, rfl⟩, ⟨rfl, rfl⟩, rfl⟩

/-- A completed registration passed the checks. It adds a row, counts the students of the
    class, and then the credits of the user. -/
theorem save_eq_ok : (save userId classId).run db = .ok (r, db') ↔
    ∃ user classes, Admits db userId classId user classes ∧ r = db.takeClasses.next ∧
      ∃ userId', (UserService.update userId (.ofUser user)).run
        ((db.enrol userId classId).setCurStudent classId
          ((db.enrol userId classId).findNumOfCurStudent classId)) = .ok (userId', db') := by
  unfold save
  simp only [bind_eq_ok, get_eq_ok, modify_eq_ok, pure_eq_ok, UserService.findById_eq_ok,
    Prod.mk.injEq]
  constructor
  · rintro ⟨⟨user, classes⟩, _, hcheck, _, _, ⟨rfl, rfl⟩, _, _, ⟨-, rfl⟩, _, _, ⟨-, rfl⟩, user', _,
      ⟨huser, rfl⟩, userId', _, hupdate, rfl, rfl⟩
    obtain ⟨hadmits, rfl⟩ := check_eq_ok.1 hcheck
    obtain rfl : user = user' := Option.some.inj (hadmits.foundUser.symm.trans huser)
    rw [Table.key_of_find hadmits.foundClasses] at hupdate
    exact ⟨user, classes, hadmits, rfl, userId', hupdate⟩
  · rintro ⟨user, classes, hadmits, rfl, userId', hupdate⟩
    refine ⟨(user, classes), db, check_eq_ok.2 ⟨hadmits, rfl⟩, _, _, ⟨rfl, rfl⟩, ⟨⟩, _,
      ⟨trivial, rfl⟩, ⟨⟩, _, ⟨trivial, rfl⟩, user, _, ⟨hadmits.foundUser, rfl⟩, userId', db', ?_,
      rfl, rfl⟩
    rw [Table.key_of_find hadmits.foundClasses]
    exact hupdate

/-- A completed deletion counts the students of the class, deletes the row, and then counts
    the credits of the user. -/
theorem delete_cases {u : Unit} (h : (delete takeId).run db = .ok (u, db')) :
    ∃ takeClass user classes, db.takeClasses.find takeId = some takeClass ∧
      db.findNoAgain takeClass.userId takeClass.classId = [] ∧
      db.users.find takeClass.userId = some user ∧
      db.classes.find takeClass.classId = some classes ∧
      ∃ userId', (UserService.update takeClass.userId (.ofUser user)).run
        ((db.setCurStudent takeClass.classId
          (db.findNumOfCurStudent takeClass.classId)).drop takeId) = .ok (userId', db') := by
  unfold delete at h
  simp only [bind_eq_ok, get_eq_ok, ofOption_eq_ok, failIf_eq_ok, modify_eq_ok, pure_eq_ok,
    UserService.findById_eq_ok, Prod.mk.injEq] at h
  obtain ⟨_, _, ⟨rfl, rfl⟩, tc, _, ⟨htc, rfl⟩, _, _, ⟨hno, -, rfl⟩, user, _, ⟨huser, rfl⟩, classes,
    _, ⟨hclasses, rfl⟩, _, _, ⟨-, rfl⟩, _, _, ⟨-, rfl⟩, user', _, ⟨huser', rfl⟩, userId', _, hupdate,
    -, rfl⟩ := h
  obtain rfl : user = user' := Option.some.inj (huser.symm.trans huser')
  rw [Table.key_of_find hclasses] at hupdate
  exact ⟨tc, user, classes, htc, not_not.1 hno, huser, hclasses, userId', hupdate⟩

/-- A completed change of a grade. -/
theorem update_cases {dto : TakeClassUpdateRequestDto}
    (h : (update takeId dto).run db = .ok (r, db')) :
    ∃ takeClass grade, db.takeClasses.find takeId = some takeClass ∧ dto.grade = some grade ∧
      db' = db.setGrade takeId grade := by
  unfold update at h
  simp only [bind_eq_ok, get_eq_ok, ofOption_eq_ok, set_eq_ok, pure_eq_ok, Prod.mk.injEq] at h
  obtain ⟨_, _, ⟨rfl, rfl⟩, tc, _, ⟨htc, rfl⟩, grade, _, ⟨hgrade, rfl⟩, _, _, ⟨-, rfl⟩, -, rfl⟩ := h
  exact ⟨tc, grade, htc, hgrade, rfl⟩

end TakeClassService

namespace HopeClassService

/-- A class that is hoped for changes no other table. -/
theorem save_cases (h : (save userId classId).run db = .ok (r, db')) :
    db'.classes = db.classes ∧ db'.takeClasses = db.takeClasses := by
  unfold save at h
  simp only [bind_eq_ok, get_eq_ok, ofOption_eq_ok, set_eq_ok, pure_eq_ok, Prod.mk.injEq] at h
  obtain ⟨_, _, ⟨rfl, rfl⟩, _, _, ⟨-, rfl⟩, _, _, ⟨-, rfl⟩, _, _, ⟨-, rfl⟩, -, rfl⟩ := h
  exact ⟨rfl, rfl⟩

theorem delete_cases {u : Unit} (h : (delete hopeId).run db = .ok (u, db')) :
    db'.classes = db.classes ∧ db'.takeClasses = db.takeClasses := by
  unfold delete at h
  simp only [bind_eq_ok, get_eq_ok, ofOption_eq_ok, set_eq_ok, Prod.mk.injEq] at h
  obtain ⟨_, _, ⟨rfl, rfl⟩, _, _, ⟨-, rfl⟩, _, _, ⟨-, rfl⟩, _, _, ⟨-, rfl⟩, -, rfl⟩ := h
  exact ⟨rfl, rfl⟩

end HopeClassService

/-- A completed entry of a grade. The students of the class in the path are counted when the
    grade is not 99. -/
theorem UserController.enterGrade_cases {dto : TakeClassUpdateRequestDto} {u : Unit}
    (h : (enterGrade takeId userId classId dto).result db = (.ok u, db')) :
    ∃ takeClass grade classes averageScore form,
      db.takeClasses.find takeId = some takeClass ∧ dto.grade = some grade ∧
      db.classes.find classId = some classes ∧
      ∃ db₂, db₂ = (db.setGrade takeId grade).updateClasses classId
        { ClassUpdateRequestDto.ofClasses classes with averageScore } ∧
      db' = (if grade = 99 then db₂
        else db₂.setCurStudent classId (db₂.findNumOfCurStudent classId)).updateUser userId form := by
  unfold enterGrade at h
  simp only [Caller.result_bind_eq_ok, Caller.result_commit_eq_ok] at h
  obtain ⟨_, db₁, hgrade, user, _, huser, classes, _, hclasses, _, db₂, hupdate, ⟨⟩, db₃, hcancel,
    _, db₄, hyear, hpure⟩ := h
  obtain ⟨tc, grade, htc, hdto, rfl⟩ := TakeClassService.update_cases hgrade
  obtain ⟨-, rfl⟩ := UserService.findById_eq_ok.1 huser
  obtain ⟨hfound, rfl⟩ := ClassesService.findById_eq_ok.1 hclasses
  obtain ⟨_, averageScore, -, rfl⟩ := ClassesService.update_cases hupdate
  obtain ⟨form, hform⟩ : ∃ form, db₄ = db₃.updateUser userId form := by
    obtain ⟨sum, done, year, -, -, -, -, rfl⟩ := UserService.update_cases hyear
    exact ⟨_, by rw [Table.key_of_find (UserService.findById_eq_ok.1 huser).1]⟩
  cases hpure
  rw [Table.key_of_find hfound] at hcancel
  refine ⟨tc, grade, classes, averageScore, form, htc, hdto, hfound, _, rfl, ?_⟩
  rw [hform]
  congr 1
  rw [Caller.commitIf, hdto] at hcancel
  by_cases h99 : grade = 99
  · rw [if_pos h99]
    rw [if_neg (by simp [h99])] at hcancel
    cases hcancel
    rfl
  · rw [if_neg h99]
    rw [if_pos (by simpa using h99)] at hcancel
    exact ClassesService.cancel_cases (Caller.result_commit_eq_ok.1 hcancel)

end Registration
