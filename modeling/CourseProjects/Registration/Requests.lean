import CourseProjects.Registration.Seats

/-!
# The requests of a student

A request comes from a user that has logged in. The pages for registration act on the rows
of that user; the others take the rows they act on from the path, and only two pages for
reading look at whether the user is an administrator.

* `requests_respect`: as long as the requests of a user keep to their own rows
  (`KeepsToOwn`), the rows of others, all grades, and the classes with their seats stay.
-/

namespace Registration

/-- The user that has logged in. -/
structure Principal where
  userId : ℤ
  aaaa : Bool

/-- The requests, by the pages that they go to. Pages that only read are `page`, apart from the
    two that look at the user. -/
inductive Request
  | register (classId : ℤ)
  | hopeRegister (classId : ℤ)
  | cancel (takeId : ℤ)
  | hopeCancel (hopeId : ℤ)
  | edit (requestDto : UserUpdateRequestDto)
  | classInfoUpdate (classId : ℤ) (requestDto : ClassUpdateRequestDto)
  | gradeUpdate (takeId userId classId : ℤ) (requestDto : TakeClassUpdateRequestDto)
  | classesCancel (classId : ℤ)
  | classesAdd (requestDto : ClassUpdateRequestDto)
  | signup (signUpDto : UserSignUpDto)
  | adminHome
  | updateClasses (classId : ℤ)
  | page (view : String)
  deriving DecidableEq

namespace Request

/-- A service is called, and a view chosen by how it ends. -/
def respond {α : Type} (x : Service α) (done : String) (failed : Exception → String) (db : Db) :
    String × Db :=
  match x.run db with
  | .ok (_, db') => (done, db')
  | .error e => (failed e, db)

/-- The message of an `IllegalArgumentException` goes to a page, other exceptions are not
    caught. -/
def redirect (page : String) : Exception → String
  | .illegalArgument message => "redirect:" ++ page ++ "?msg=" ++ message
  | _ => "error"

/-- The controllers. -/
def handle (user : Principal) (db : Db) : Request → String × Db
  | register classId => respond (TakeClassService.save user.userId classId)
      "redirect:/register?msg=Success!" (redirect "/register") db
  | hopeRegister classId => respond (HopeClassService.save user.userId classId)
      "redirect:/register?msg=Success!" (redirect "/register") db
  | cancel takeId => respond (TakeClassService.delete takeId)
      "redirect:/myCourses?msg=Success!" (redirect "/myCourses") db
  | hopeCancel hopeId => respond (HopeClassService.delete hopeId)
      "redirect:/myHope?msg=Success!" (fun _ => "error") db
  | edit requestDto => respond (UserService.update user.userId requestDto)
      "redirect:/" (fun _ => "edit") db
  | classInfoUpdate classId requestDto => respond (ClassesService.update classId requestDto)
      "redirect:/" (fun _ => "admin1") db
  | gradeUpdate takeId userId classId requestDto =>
    UserController.gradeUpdate takeId userId classId requestDto db
  | classesCancel classId => respond (ClassesService.delete classId)
      "redirect:/admincourses?msg=Success!" (fun _ => "error") db
  | classesAdd requestDto =>
    respond (ClassesService.save requestDto.courseId requestDto.roomId requestDto)
      "redirect:/" (fun _ => "adminClassAdd") db
  | signup signUpDto => respond (UserService.join signUpDto) "redirect:/" (fun _ => "signup") db
  | adminHome => (if user.aaaa then "adminHome" else "home", db)
  | updateClasses classId =>
    if user.aaaa then
      respond (ClassesService.findById classId) "admin1" (fun _ => "error") db
    else ("home", db)
  | page view => (view, db)

/-- The classes that a registration or a cancellation is about. -/
def seatsOf (db : Db) : Request → List ℤ
  | register classId => [classId]
  | cancel takeId => ((db.takeClasses.find takeId).map TakeClass.classId).toList
  | _ => []

end Request

open Request

/-- A form that the pages for new classes accept. -/
structure Db.Accepts (db : Db) (requestDto : ClassUpdateRequestDto) : Prop where
  course : ∃ courseId ∈ requestDto.courseId, courseId ∈ db.courses
  room : ∃ roomId ∈ requestDto.roomId, ∃ room ∈ db.rooms.find? fun room => room.roomId = roomId,
    requestDto.maxStudentNum ≤ room.maxPerson
  professorName : requestDto.professorName.isSome
  startTime : requestDto.startTime.isSome
  endTime : requestDto.endTime.isSome
  day : requestDto.day.isSome
  gradeAmount : requestDto.gradeAmount.isSome

instance (db : Db) (requestDto : ClassUpdateRequestDto) : Decidable (db.Accepts requestDto) :=
  decidable_of_iff ((∃ courseId ∈ requestDto.courseId, courseId ∈ db.courses) ∧
    (∃ roomId ∈ requestDto.roomId, ∃ room ∈ db.rooms.find? fun room => room.roomId = roomId,
      requestDto.maxStudentNum ≤ room.maxPerson) ∧ requestDto.professorName.isSome ∧
    requestDto.startTime.isSome ∧ requestDto.endTime.isSome ∧ requestDto.day.isSome ∧
    requestDto.gradeAmount.isSome)
    ⟨fun ⟨h₁, h₂, h₃, h₄, h₅, h₆, h₇⟩ => ⟨h₁, h₂, h₃, h₄, h₅, h₆, h₇⟩,
      fun h => ⟨h.course, h.room, h.professorName, h.startTime, h.endTime, h.day, h.gradeAmount⟩⟩

/-- A request keeps to the rows of its user: it does not cancel a row of another one, or the
    cancellation is refused; and the pages of an administrator change nothing, or refuse. -/
def KeepsToOwn (user : Principal) (db : Db) : Request → Prop
  | cancel takeId => ∀ tc ∈ db.takeClasses.find takeId,
      tc.userId = user.userId ∨ db.findNoAgain tc.userId tc.classId ≠ []
  | classInfoUpdate classId requestDto => ∀ c ∈ db.classes.find classId,
      requestDto.maxStudentNum = c.maxStudentNum
  | gradeUpdate takeId userId classId requestDto =>
    ∀ tc ∈ db.takeClasses.find takeId, ∀ grade ∈ requestDto.grade, grade = tc.grade ∧
      (grade = 99 ∨ db.users.find userId = none ∨ db.Off classId 0)
  | classesCancel classId => db.classes.find classId = none ∨ classId ∈ db.credits
  | classesAdd requestDto => ¬ db.Accepts requestDto
  | _ => True

instance (user : Principal) (db : Db) : ∀ r, Decidable (KeepsToOwn user db r)
  | cancel takeId => inferInstanceAs (Decidable (∀ tc ∈ db.takeClasses.find takeId, _ ∨ _))
  | classInfoUpdate classId _ => inferInstanceAs (Decidable (∀ c ∈ db.classes.find classId, _ = _))
  | gradeUpdate takeId _ _ requestDto =>
    inferInstanceAs (Decidable (∀ tc ∈ db.takeClasses.find takeId,
      ∀ grade ∈ requestDto.grade, _ ∧ _))
  | classesCancel _ => inferInstanceAs (Decidable (_ ∨ _))
  | classesAdd _ => inferInstanceAs (Decidable (¬ _))
  | register .. | hopeRegister .. | hopeCancel .. | edit .. | signup .. | adminHome
  | updateClasses .. | page .. => inferInstanceAs (Decidable True)

/-- Every row of another user is still there, and every row there is an old one, with its grade,
    or a new one of the user without a grade. The classes are the same, with the same seats. -/
structure Respects (user : Principal) (db db' : Db) : Prop where
  kept : ∀ tc ∈ db.takeClasses.rows, tc.userId ≠ user.userId → tc ∈ db'.takeClasses.rows
  rows : ∀ tc ∈ db'.takeClasses.rows, tc ∈ db.takeClasses.rows ∨
    (tc.userId = user.userId ∧ tc.grade = 99 ∧ db.takeClasses.next ≤ tc.takeId)
  next : db.takeClasses.next ≤ db'.takeClasses.next
  classes : db'.classes.rows.map (fun c => (c.classId, c.maxStudentNum)) =
    db.classes.rows.map fun c => (c.classId, c.maxStudentNum)

section

variable {user : Principal} {db db' : Db} {takeId classId : ℤ}

namespace Respects

theorem refl (user : Principal) (db : Db) : Respects user db db :=
  ⟨fun _ h _ => h, fun _ h => .inl h, le_refl _, rfl⟩

theorem trans {a b c : Db} (h : Respects user a b) (h' : Respects user b c) :
    Respects user a c where
  kept tc htc hne := h'.kept tc (h.kept tc htc hne) hne
  rows tc htc := by
    rcases h'.rows tc htc with htc | ⟨hu, hg, hid⟩
    · exact h.rows tc htc
    · exact .inr ⟨hu, hg, h.next.trans hid⟩
  next := h.next.trans h'.next
  classes := h'.classes.trans h.classes

/-- A row with the key of an old one is the old one, so its grade is too. -/
theorem grade_eq (h : Respects user db db') {tc tc' : TakeClass} (htc : tc ∈ db.takeClasses.rows)
    (htc' : tc' ∈ db'.takeClasses.rows) (hid : tc'.takeId = tc.takeId) : tc'.grade = tc.grade := by
  rcases h.rows tc' htc' with hold | ⟨-, -, hnew⟩
  · rw [Table.eq_of_key hold htc hid]
  · exact absurd (hid ▸ db.takeClasses.fresh tc htc) (Int.not_lt.2 hnew)

/-- The rows stay, and the classes have the same seats. -/
theorem of_classes (hrows : db'.takeClasses = db.takeClasses)
    (hclasses : db'.classes.rows.map (fun c => (c.classId, c.maxStudentNum)) =
      db.classes.rows.map fun c => (c.classId, c.maxStudentNum)) : Respects user db db' :=
  ⟨fun _ h _ => hrows ▸ h, fun _ h => .inl (hrows ▸ h), hrows ▸ le_refl _, hclasses⟩

theorem setCurStudent (n : ℤ) : Respects user db (db.setCurStudent classId n) := by
  refine of_classes rfl ?_
  change (db.classes.rows.map _).map _ = _
  rw [List.map_map]
  refine List.map_congr_left fun c _ => ?_
  dsimp only [Function.comp_apply]
  split
  · rfl
  · rfl

theorem updateClasses {requestDto : ClassUpdateRequestDto}
    (h : ∀ c ∈ db.classes.find classId, requestDto.maxStudentNum = c.maxStudentNum) :
    Respects user db (db.updateClasses classId requestDto) := by
  refine of_classes rfl ?_
  change (db.classes.rows.map _).map _ = _
  rw [List.map_map]
  refine List.map_congr_left fun c hc => ?_
  dsimp only [Function.comp_apply]
  split
  · next hid => exact Prod.ext rfl (h c (Table.find_eq_some.2 ⟨hc, hid⟩))
  · rfl

theorem updateUser {userId : ℤ} {requestDto : UserUpdateRequestDto} :
    Respects user db (db.updateUser userId requestDto) := of_classes rfl rfl

theorem enrol : Respects user db (db.enrol user.userId classId) where
  kept _ htc _ := List.mem_append_left _ htc
  rows tc htc := by
    rcases List.mem_append.1 htc with htc | htc
    · exact .inl htc
    · obtain rfl := List.mem_singleton.1 htc
      exact .inr ⟨rfl, rfl, le_refl _⟩
  next := (Int.lt_succ _).le
  classes := rfl

theorem drop {tc : TakeClass} (htc : db.takeClasses.find takeId = some tc)
    (hu : tc.userId = user.userId) : Respects user db (db.drop takeId) where
  kept tc' htc' hne := by
    refine List.mem_filter.2 ⟨htc', decide_eq_true fun hid => hne ?_⟩
    rw [Table.eq_of_key htc' (Table.mem_of_find htc) (hid.trans (Table.key_of_find htc).symm), hu]
  rows _ htc' := .inl (List.mem_of_mem_filter htc')
  next := le_refl _
  classes := rfl

/-- The grade that a row has is entered again. -/
theorem setGrade {grade : ℤ} (h : ∀ tc ∈ db.takeClasses.find takeId, grade = tc.grade) :
    db.setGrade takeId grade = db := by
  have hsame : db.takeClasses.modify takeId (fun tc => { tc with grade }) (fun _ => rfl) =
      db.takeClasses := Table.modify_eq_self _ _ fun tc htc => by rw [h tc htc]
  unfold Db.setGrade
  rw [hsame]

end Respects

/-- What a service keeps, the answer to its request keeps. -/
theorem Request.respond_keeps {α : Type} {P : Db → Prop} {x : Service α} {done : String}
    {failed : Exception → String} (hdb : P db) (hx : ∀ a db', x.run db = .ok (a, db') → P db') :
    P (respond x done failed db).2 := by
  unfold respond
  cases h : x.run db with
  | error e => exact hdb
  | ok r => exact hx r.1 r.2 h

/-- The number of students in the column of a class. -/
def Db.seats (db : Db) (classId : ℤ) : Option ℤ :=
  (db.classes.find classId).map Classes.curStudentNum

theorem Db.seats_updateClasses {requestDto : ClassUpdateRequestDto} (id : ℤ) :
    (db.updateClasses classId requestDto).seats id = db.seats id := by
  unfold Db.seats
  rw [Db.find_updateClasses, Option.map_map]
  refine Option.map_congr fun c _ => ?_
  dsimp only [Function.comp_apply]
  split
  · rfl
  · rfl

theorem Db.seats_setCurStudent_of_ne {n id : ℤ} (h : id ≠ classId) :
    (db.setCurStudent classId n).seats id = db.seats id :=
  congrArg _ (Table.find_modify_of_ne (t := db.classes) (·.setCurStudent n) (fun _ => rfl) h)

/-- Counting again changes nothing where the column is exact. -/
theorem Db.seats_setCurStudent_of_off (h : db.Off classId 0) (id : ℤ) :
    (db.setCurStudent classId (db.findNumOfCurStudent classId)).seats id = db.seats id := by
  by_cases hid : id = classId
  · subst hid
    unfold Db.seats
    rw [Db.find_setCurStudent, Option.map_map]
    refine Option.map_congr fun c hc => ?_
    dsimp only [Function.comp_apply]
    rw [if_pos (Table.key_of_find hc)]
    exact ((h c hc).trans (add_zero _)).symm
  · exact Db.seats_setCurStudent_of_ne hid

/-- What a request respects, and the classes whose students it may count. -/
structure Leaves (user : Principal) (ids : List ℤ) (db db' : Db) : Prop where
  respects : Respects user db db'
  seats : ∀ id ∉ ids, db'.seats id = db.seats id

theorem Leaves.refl (user : Principal) (ids : List ℤ) (db : Db) : Leaves user ids db db :=
  ⟨.refl user db, fun _ _ => rfl⟩

theorem Leaves.of_tables {ids : List ℤ} (h : db'.classes = db.classes ∧
    db'.takeClasses = db.takeClasses) : Leaves user ids db db' :=
  ⟨.of_classes h.2 (h.1 ▸ rfl), fun id _ => by rw [Db.seats, h.1, Db.seats]⟩

/-- A registration. -/
theorem leaves_save {r : ℤ}
    (h : (TakeClassService.save user.userId classId).run db = .ok (r, db')) :
    Leaves user [classId] db db' := by
  obtain ⟨u, classes, -, -, userId', hupdate⟩ := TakeClassService.save_eq_ok.1 h
  obtain ⟨sum, done, year, -, -, -, -, rfl⟩ := UserService.update_cases hupdate
  refine ⟨(Respects.enrol.trans (.setCurStudent _)).trans .updateUser, fun id hid => ?_⟩
  have hne : id ≠ classId := fun h => hid (List.mem_singleton.2 h)
  calc Db.seats (Db.setCurStudent (db.enrol user.userId classId) classId _) id
      = (db.enrol user.userId classId).seats id := Db.seats_setCurStudent_of_ne hne
    _ = db.seats id := rfl

/-- A cancellation of a row of the user. -/
theorem leaves_delete {u : Unit} (hown : KeepsToOwn user db (.cancel takeId))
    (h : (TakeClassService.delete takeId).run db = .ok (u, db')) :
    Leaves user ((Request.cancel takeId).seatsOf db) db db' := by
  obtain ⟨tc, _, classes, htc, hno, -, -, userId', hupdate⟩ := TakeClassService.delete_cases h
  obtain ⟨sum, done, year, -, -, -, -, rfl⟩ := UserService.update_cases hupdate
  have hu : tc.userId = user.userId := (hown tc htc).resolve_right fun h => h hno
  have hdrop : Respects user (db.setCurStudent tc.classId (db.findNumOfCurStudent tc.classId))
      ((db.setCurStudent tc.classId (db.findNumOfCurStudent tc.classId)).drop takeId) :=
    .drop htc hu
  refine ⟨(Respects.setCurStudent _).trans (hdrop.trans .updateUser), fun id hid => ?_⟩
  have hne : id ≠ tc.classId := by
    intro hid'
    rw [Request.seatsOf, htc, hid'] at hid
    exact hid (List.mem_singleton.2 rfl)
  calc Db.seats (Db.setCurStudent db tc.classId _) id
      = db.seats id := Db.seats_setCurStudent_of_ne hne

/-- A grade that is entered again, completely or not. -/
theorem leaves_enterGrade {userId : ℤ} {requestDto : TakeClassUpdateRequestDto}
    (hown : KeepsToOwn user db (.gradeUpdate takeId userId classId requestDto)) :
    Leaves user [] db
      ((UserController.enterGrade takeId userId classId requestDto).result db).2 := by
  unfold UserController.enterGrade
  refine Caller.result_commit_bind (.refl ..) fun _ db₁ hgrade => ?_
  obtain ⟨tc, grade, htc, hdto, rfl⟩ := TakeClassService.update_cases hgrade
  obtain ⟨hsame, hoff⟩ := hown tc htc grade hdto
  rw [Respects.setGrade fun tc' htc' =>
    hsame.trans (congrArg TakeClass.grade (Option.some.inj (htc.symm.trans htc')))]
  refine Caller.result_commit_bind (.refl ..) fun u _ huser => ?_
  obtain ⟨hu, heq⟩ := UserService.findById_eq_ok.1 huser
  rw [heq]
  refine Caller.result_commit_bind (.refl ..) fun c _ hclasses => ?_
  obtain ⟨hc, heq⟩ := ClassesService.findById_eq_ok.1 hclasses
  rw [heq]
  have hform : ∀ form : ClassUpdateRequestDto, form.maxStudentNum = c.maxStudentNum →
      Leaves user [] db (db.updateClasses c.classId form) := fun form hmax =>
    ⟨.updateClasses fun c' hc' => by
      rw [Table.key_of_find hc] at hc'
      rw [hmax, Option.some.inj (hc.symm.trans hc')], fun id _ => Db.seats_updateClasses id⟩
  refine Caller.result_commit_bind (.refl ..) fun _ db₂ hupdate => ?_
  obtain ⟨_, avg, -, rfl⟩ := ClassesService.update_cases hupdate
  have hclass := hform { ClassUpdateRequestDto.ofClasses c with averageScore := avg } rfl
  have hyear : ∀ db₃, Leaves user [] db db₃ → Leaves user [] db
      ((Caller.commit (UserService.update u.userId (.ofUser u)) >>= fun _ =>
        (pure () : Caller Db Exception Unit)).result db₃).2 := fun db₃ h =>
    Caller.result_commit_bind h fun _ db₄ hrun => by
      obtain ⟨sum, done, year, -, -, -, -, rfl⟩ := UserService.update_cases hrun
      exact ⟨h.respects.trans .updateUser, h.seats⟩
  unfold Caller.commitIf
  split
  · next h99 =>
    refine Caller.result_commit_bind hclass fun _ db₃ hcancel => hyear _ ?_
    rw [ClassesService.cancel_cases hcancel]
    have hexact : db.Off classId 0 := by
      rcases hoff with hg | hnone | hoff
      · exact absurd (hdto.trans (congrArg some hg)) h99
      · exact absurd (hu.symm.trans hnone) nofun
      · exact hoff
    refine ⟨hclass.respects.trans (.setCurStudent _), fun id hid => ?_⟩
    exact (Db.seats_setCurStudent_of_off (Db.off_updateClasses.2 hexact) id).trans
      (hclass.seats id hid)
  · exact hyear _ hclass

/-- A request that keeps to the rows of its user respects the others. -/
theorem handle_leaves (r : Request) (hown : KeepsToOwn user db r) :
    Leaves user (r.seatsOf db) db (handle user db r).2 := by
  cases r with
  | register classId => exact respond_keeps (.refl ..) fun r db' hrun => leaves_save hrun
  | hopeRegister classId =>
    exact respond_keeps (.refl ..) fun r db' hrun => .of_tables (HopeClassService.save_cases hrun)
  | cancel takeId => exact respond_keeps (.refl ..) fun r db' hrun => leaves_delete hown hrun
  | hopeCancel hopeId =>
    exact respond_keeps (.refl ..) fun r db' hrun => .of_tables (HopeClassService.delete_cases hrun)
  | edit requestDto =>
    refine respond_keeps (.refl ..) fun r db' hrun => ?_
    obtain ⟨sum, done, year, -, -, -, -, rfl⟩ := UserService.update_cases hrun
    exact .of_tables ⟨rfl, rfl⟩
  | classInfoUpdate classId requestDto =>
    refine respond_keeps (.refl ..) fun r db' hrun => ?_
    obtain ⟨c, avg, -, rfl⟩ := ClassesService.update_cases hrun
    exact ⟨.updateClasses fun c hc => hown c hc, fun id _ => Db.seats_updateClasses id⟩
  | gradeUpdate takeId userId classId requestDto =>
    have h := leaves_enterGrade hown
    change Leaves user [] db (UserController.gradeUpdate takeId userId classId requestDto db).2
    unfold UserController.gradeUpdate
    split
    · next heq =>
      rw [heq] at h
      exact h
    · next heq =>
      rw [heq] at h
      exact h
  | classesCancel classId =>
    refine respond_keeps (.refl ..) fun r db' hrun => ?_
    obtain ⟨⟨c, hc⟩, hcredit, rfl⟩ := ClassesService.delete_cases hrun
    rcases hown with hnone | hmem
    · exact absurd (hc.symm.trans hnone) nofun
    · exact absurd hmem hcredit
  | classesAdd requestDto =>
    refine respond_keeps (.refl ..) fun r db' hrun => ?_
    obtain ⟨h₁, h₂, h₃, h₄, h₅, h₆, h₇⟩ := ClassesService.save_cases hrun
    exact absurd ⟨h₁, h₂, h₃, h₄, h₅, h₆, h₇⟩ hown
  | signup signUpDto =>
    exact respond_keeps (.refl ..) fun r db' hrun => .of_tables (UserService.join_cases hrun)
  | adminHome => exact .refl ..
  | updateClasses classId =>
    dsimp only [handle]
    split
    · refine respond_keeps (.refl ..) fun c db' hrun => ?_
      rw [(ClassesService.findById_eq_ok.1 hrun).2]
      exact .refl ..
    · exact .refl ..
  | page view => exact .refl ..

/-- Requests of a user that keep to their own rows: the rows of others, the grades, and the
    classes with their seats stay, and the number of students of a class stays unless the user
    registers for it or cancels. -/
theorem requests_respect (user : Principal) (start : Db) {rs : List Request}
    (hown : Reply.Along (handle user) (KeepsToOwn user) start rs) :
    Respects user start (Reply.replies (handle user) start rs).2 ∧
    (∀ tc ∈ start.takeClasses.rows,
      ∀ tc' ∈ (Reply.replies (handle user) start rs).2.takeClasses.rows,
        tc'.takeId = tc.takeId → tc'.grade = tc.grade) ∧
    ∀ id, Reply.Along (handle user) (fun db r => id ∉ r.seatsOf db) start rs →
      (Reply.replies (handle user) start rs).2.seats id = start.seats id := by
  have hrespects : Respects user start (Reply.replies (handle user) start rs).2 :=
    Reply.replies_inv (I := Respects user start)
      (fun db r h hr => h.trans (handle_leaves r hr).respects) (.refl user start) hown
  refine ⟨hrespects, fun tc htc tc' htc' hid => hrespects.grade_eq htc htc' hid, fun id hid => ?_⟩
  exact Reply.replies_inv (I := fun db => db.seats id = start.seats id)
    (P := fun db r => KeepsToOwn user db r ∧ id ∉ r.seatsOf db)
    (fun db r h hr => ((handle_leaves r hr.1).seats id hr.2).trans h) rfl (hown.and hid)

/-- Choi, who is not an administrator, asks for the seat of Kim's class and gives it back. -/
def choi : Principal := ⟨2, false⟩

/-- The class of which Kim is the only student. -/
def kimsClass : Db := (call Rush.oneSeat (.save 1 1)).2

theorem requests_respect_choi : Respects choi kimsClass (Reply.replies (handle choi) kimsClass
    [.register 1, .cancel 7, .adminHome, .gradeUpdate 0 2 1 ⟨some 99⟩]).2 :=
  (requests_respect choi kimsClass (by decide +kernel)).1

/-- Choi cancels the row of Kim, enters a grade for Kim, takes all seats from the class, or deletes
    the class: no page looks at the user. -/
theorem choi_interferes :
    ¬ Respects choi kimsClass (handle choi kimsClass (.cancel 0)).2 ∧
    ¬ Respects choi kimsClass (handle choi kimsClass (.gradeUpdate 0 1 1 ⟨some 8⟩)).2 ∧
    ¬ Respects choi kimsClass (handle choi kimsClass (.classInfoUpdate 1
      (.ofClasses ⟨1, 1, 1, "Lee", 0, 1, some 0, 1, 1, 3, 1, 3⟩))).2 ∧
    ¬ Respects choi kimsClass (handle choi kimsClass (.classesCancel 1)).2 := by
  refine ⟨fun h => ?_, fun h => ?_, fun h => ?_, fun h => ?_⟩
  · exact absurd (h.kept ⟨0, 1, 1, 99⟩ (by decide +kernel) (by decide)) (by decide +kernel)
  · exact absurd (h.kept ⟨0, 1, 1, 99⟩ (by decide +kernel) (by decide)) (by decide +kernel)
  · exact absurd h.classes (by decide +kernel)
  · exact absurd h.classes (by decide +kernel)

end

end Registration
