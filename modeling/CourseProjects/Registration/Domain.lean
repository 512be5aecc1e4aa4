import CourseProjects.Lib.Table

/-!
# The tables of the course registration

Users, classes of courses, and the classes that users take, with a grade that is 99 until
one is entered. Two columns are kept beside the rows they are computed from: the credits of
a user this year (`thisYearGrade`) and the students of a class (`curStudentNum`).

References between rows are not null, as every writer sets them from rows it has just read,
and the queries join a row with the class it refers to. Columns that no service reads are
left out: the password, the role and the major of a user.
-/

namespace Registration

/-! ### Numbers and failures -/

/-- The value of `Long` arithmetic: modulo `2 ^ 64`, from `-2 ^ 63` to `2 ^ 63 - 1`. -/
def wrap (x : ℤ) : ℤ := (x + 2 ^ 63) % 2 ^ 64 - 2 ^ 63

/-- A value of type `Long`. -/
def Fits (x : ℤ) : Prop := -2 ^ 63 ≤ x ∧ x < 2 ^ 63

instance (x : ℤ) : Decidable (Fits x) := inferInstanceAs (Decidable (_ ∧ _))

theorem wrap_eq {x : ℤ} (h : Fits x) : wrap x = x := by
  obtain ⟨hl, hu⟩ := h
  unfold wrap
  omega

/-- What a service throws. -/
inductive Exception
  | illegalArgument (message : String)
  | noSuchElement
  | arithmetic
  | dataAccess
  deriving DecidableEq

/-! ### Rows -/

structure User where
  userId : ℤ
  aaaa : Bool
  loginId : String
  username : String
  email : Option String
  phoneNumber : Option String
  averageScore : Option ℤ
  thisYearGrade : Option ℤ
  doneGrade : Option ℤ
  deriving DecidableEq

structure Classes where
  classId : ℤ
  courseId : ℤ
  classNumber : ℤ
  professorName : String
  maxStudentNum : ℤ
  curStudentNum : ℤ
  averageScore : Option ℤ
  roomId : ℤ
  startTime : ℤ
  endTime : ℤ
  day : ℤ
  gradeAmount : ℤ
  deriving DecidableEq

structure TakeClass where
  takeId : ℤ
  userId : ℤ
  classId : ℤ
  grade : ℤ
  deriving DecidableEq

structure HopeClass where
  hopeId : ℤ
  userId : ℤ
  classId : ℤ
  deriving DecidableEq

structure Room where
  roomId : ℤ
  maxPerson : ℤ
  deriving DecidableEq

/-! ### Requests -/

structure UserUpdateRequestDto where
  email : Option String
  phoneNumber : Option String
  averageScore : Option ℤ
  thisYearGrade : Option ℤ
  doneGrade : Option ℤ
  deriving DecidableEq

structure ClassUpdateRequestDto where
  maxStudentNum : ℤ
  curStudentNum : ℤ
  courseId : Option ℤ
  classNumber : ℤ
  professorName : Option String
  averageScore : Option ℤ
  roomId : Option ℤ
  startTime : Option ℤ
  endTime : Option ℤ
  day : Option ℤ
  gradeAmount : Option ℤ
  deriving DecidableEq

structure TakeClassUpdateRequestDto where
  grade : Option ℤ
  deriving DecidableEq

structure UserSignUpDto where
  username : String
  loginId : String
  password : String
  passwordConfirm : String
  email : Option String
  phoneNumber : Option String
  majorId : ℤ
  deriving DecidableEq

/-- The form of a user's data, by way of `UserResponseDto`. -/
def UserUpdateRequestDto.ofUser (user : User) : UserUpdateRequestDto where
  email := user.email
  phoneNumber := user.phoneNumber
  averageScore := user.averageScore
  thisYearGrade := user.thisYearGrade
  doneGrade := user.doneGrade

/-- The form of a class, by way of `ClassesResponseDto`, which leaves the students at zero and
    the key of the course out. -/
def ClassUpdateRequestDto.ofClasses (classes : Classes) : ClassUpdateRequestDto where
  maxStudentNum := classes.maxStudentNum
  curStudentNum := 0
  courseId := none
  classNumber := classes.classNumber
  professorName := some classes.professorName
  averageScore := classes.averageScore
  roomId := some classes.roomId
  startTime := some classes.startTime
  endTime := some classes.endTime
  day := some classes.day
  gradeAmount := some classes.gradeAmount

def User.update (user : User) (requestDto : UserUpdateRequestDto) : User :=
  { user with
    email := requestDto.email
    phoneNumber := requestDto.phoneNumber
    averageScore := requestDto.averageScore
    thisYearGrade := requestDto.thisYearGrade
    doneGrade := requestDto.doneGrade }

def Classes.update (classes : Classes) (requestDto : ClassUpdateRequestDto) : Classes :=
  { classes with
    maxStudentNum := requestDto.maxStudentNum
    averageScore := requestDto.averageScore }

def Classes.setCurStudent (classes : Classes) (curStudentNum : ℤ) : Classes :=
  { classes with curStudentNum }

/-- No seat is left. -/
def Classes.isFull (classes : Classes) : Prop := classes.curStudentNum ≥ classes.maxStudentNum

instance (classes : Classes) : Decidable classes.isFull := inferInstanceAs (Decidable (_ ≥ _))

/-! ### The database -/

/-- The tables. Of courses and majors only the keys matter, and of the rows of `Credit` the
    classes they refer to. -/
structure Db where
  users : Table User User.userId
  classes : Table Classes Classes.classId
  takeClasses : Table TakeClass TakeClass.takeId
  hopeClasses : Table HopeClass HopeClass.hopeId
  courses : List ℤ
  majors : List ℤ
  rooms : List Room
  credits : List ℤ
  deriving DecidableEq

namespace Db

variable (db : Db)

/-- The rows of `TakeClass`, each with its class. -/
def join : List (TakeClass × Classes) :=
  db.takeClasses.rows.filterMap fun tc => (db.classes.find tc.classId).map fun c => (tc, c)

/-- The rows of a user with a grade. -/
def graded (userId : ℤ) : List (TakeClass × Classes) :=
  db.join.filter fun p => p.1.userId = userId ∧ p.1.grade ≠ 99

/-- The rows of a user without a grade so far. -/
def current (userId : ℤ) : List (TakeClass × Classes) :=
  db.join.filter fun p => p.1.userId = userId ∧ p.1.grade = 99

/-- `sum` of a query: null without rows, an error when a value leaves `Long`. -/
def sqlSum (l : List ℤ) : Except Exception (Option ℤ) :=
  if l = [] then .ok none
  else if ∀ x ∈ l.sum :: l, Fits x then .ok (some l.sum)
  else .error .dataAccess

/-- `avg` of a query, cut to a `Long`: null without rows. -/
def sqlAvg (l : List ℤ) : Option ℤ :=
  if l = [] then none else some (l.sum.tdiv l.length)

def findUserGradeSum (userId : ℤ) : Except Exception (Option ℤ) :=
  sqlSum ((db.graded userId).map fun p => p.1.grade * p.2.gradeAmount)

def findDoneGradeSum (userId : ℤ) : Except Exception (Option ℤ) :=
  sqlSum ((db.graded userId).map fun p => p.2.gradeAmount)

def findThisYearGradeSum (userId : ℤ) : Except Exception (Option ℤ) :=
  sqlSum ((db.current userId).map fun p => p.2.gradeAmount)

def findClassAverage (classId : ℤ) : Option ℤ :=
  sqlAvg ((db.takeClasses.rows.filter fun tc => tc.grade ≠ 99 ∧ tc.classId = classId).map
    TakeClass.grade)

def findClassUserAverage (classId : ℤ) : Option ℤ :=
  sqlAvg ((db.takeClasses.rows.filter fun tc => tc.grade ≠ 99 ∧ tc.classId = classId).filterMap
    fun tc => (db.users.find tc.userId).bind User.averageScore)

/-- The rows of a user whose class meets on a day between two times. -/
def findRepeat (userId day startTime endTime : ℤ) : List TakeClass :=
  (db.join.filter fun p => p.2.startTime < endTime ∧ p.2.endTime > startTime ∧ p.2.day = day ∧
    p.1.userId = userId ∧ p.1.grade = 99).map Prod.fst

/-- The rows of a user in a class with a grade that stays. -/
def findNoAgain (userId classId : ℤ) : List TakeClass :=
  db.takeClasses.rows.filter fun tc =>
    tc.userId = userId ∧ tc.classId = classId ∧ tc.grade > 4 ∧ tc.grade ≠ 99

/-- The students of a class without a grade so far. -/
def findNumOfCurStudent (classId : ℤ) : ℤ :=
  db.takeClasses.rows.countP fun tc => tc.classId = classId ∧ tc.grade = 99

/-! ### Statements -/

/-- A new row of `TakeClass`, with the grade 99. -/
def enrol (userId classId : ℤ) : Db :=
  { db with takeClasses := db.takeClasses.insert (fun takeId => ⟨takeId, userId, classId, 99⟩) rfl }

/-- The row of `TakeClass` is deleted. -/
def drop (takeId : ℤ) : Db :=
  { db with takeClasses := db.takeClasses.filter fun tc => tc.takeId ≠ takeId }

/-- The grade of a row is replaced. -/
def setGrade (takeId grade : ℤ) : Db :=
  { db with takeClasses := db.takeClasses.modify takeId (fun tc => { tc with grade }) fun _ => rfl }

/-- The students of a class are replaced. -/
def setCurStudent (classId curStudentNum : ℤ) : Db :=
  { db with classes := db.classes.modify classId (·.setCurStudent curStudentNum) fun _ => rfl }

/-- The class is updated from a form. -/
def updateClasses (classId : ℤ) (requestDto : ClassUpdateRequestDto) : Db :=
  { db with classes := db.classes.modify classId (·.update requestDto) fun _ => rfl }

/-- The user is updated from a form. -/
def updateUser (userId : ℤ) (requestDto : UserUpdateRequestDto) : Db :=
  { db with users := db.users.modify userId (·.update requestDto) fun _ => rfl }

/-- The class is deleted, with the rows that refer to it (`orphanRemoval`). -/
def dropClasses (classId : ℤ) : Db :=
  { db with
    classes := db.classes.filter fun c => c.classId ≠ classId
    takeClasses := db.takeClasses.filter fun tc => tc.classId ≠ classId
    hopeClasses := db.hopeClasses.filter fun h => h.classId ≠ classId }

variable {db} {userId classId takeId grade n id : ℤ}

/-! What is found after a statement. -/

theorem find_setCurStudent : (db.setCurStudent classId n).classes.find id =
    (db.classes.find id).map fun c => if c.classId = classId then c.setCurStudent n else c :=
  Table.find_modify (t := db.classes) (·.setCurStudent n) fun _ => rfl

theorem find_updateClasses {requestDto : ClassUpdateRequestDto} :
    (db.updateClasses classId requestDto).classes.find id =
      (db.classes.find id).map fun c => if c.classId = classId then c.update requestDto else c :=
  Table.find_modify (t := db.classes) (·.update requestDto) fun _ => rfl

theorem find_updateUser {requestDto : UserUpdateRequestDto} :
    (db.updateUser userId requestDto).users.find id =
      (db.users.find id).map fun u => if u.userId = userId then u.update requestDto else u :=
  Table.find_modify (t := db.users) (·.update requestDto) fun _ => rfl

theorem find_setGrade : (db.setGrade takeId grade).takeClasses.find id =
    (db.takeClasses.find id).map fun tc => if tc.takeId = takeId then { tc with grade } else tc :=
  Table.find_modify (t := db.takeClasses) (fun tc => { tc with grade }) fun _ => rfl

theorem mem_join {p : TakeClass × Classes} :
    p ∈ db.join ↔ p.1 ∈ db.takeClasses.rows ∧ db.classes.find p.1.classId = some p.2 := by
  unfold join
  rw [List.mem_filterMap]
  constructor
  · rintro ⟨tc, htc, h⟩
    obtain ⟨c, hc, rfl⟩ := Option.map_eq_some_iff.1 h
    exact ⟨htc, hc⟩
  · rintro ⟨htc, hc⟩
    exact ⟨p.1, htc, Option.map_eq_some_iff.2 ⟨p.2, hc, rfl⟩⟩

end Db

end Registration
