import CourseProjects.Lib.Trace
import CourseProjects.Registration.Rules

/-!
# The seats of a class

The column `curStudentNum` says how many students a class has. A registration counts them
after its row is there, but a deletion counts them before its row goes, and the entry of a
grade counts those of the class in the path, and only when the grade is not 99.

* `seats_exact_iff`: after a completed call the column is exact if and only if the call
  counts again (`CountsAgain`);
* `not_overbooked`: registrations that run at the same time give away no more seats than
  there are, if and only if each of them leaves room for those that wait to commit.
-/

namespace Registration

open TakeClassService

/-! ### The column and the rows -/

/-- The column of a class is exact. Then the class takes an otherwise valid registration if and
    only if a seat is free. -/
structure Db.SeatsExact (db : Db) (classId : ℤ) : Prop where
  count : ∀ c ∈ db.classes.find classId, c.curStudentNum = db.findNumOfCurStudent classId
  accepts : ∀ c user userId userId' db', Valid db userId classId user c →
    (UserService.update userId (.ofUser user)).run ((db.enrol userId classId).setCurStudent classId
      ((db.enrol userId classId).findNumOfCurStudent classId)) = .ok (userId', db') →
    ((∃ r, (save userId classId).run db = .ok r) ↔ db.findNumOfCurStudent classId < c.maxStudentNum)

/-- The classes that a call is about: those of its row and of its path. -/
def Call.classes (db : Db) : Call → List ℤ
  | .save _ classId => [classId]
  | .delete takeId => ((db.takeClasses.find takeId).map TakeClass.classId).toList
  | .gradeUpdate takeId _ classId _ =>
    ((db.takeClasses.find takeId).map TakeClass.classId).toList ++ [classId]
  | _ => []

/-- The column is as many students off the rows as a call is about to change. -/
def Db.Off (db : Db) (classId n : ℤ) : Prop :=
  ∀ c ∈ db.classes.find classId, c.curStudentNum = db.findNumOfCurStudent classId + n

instance (db : Db) (classId n : ℤ) : Decidable (db.Off classId n) :=
  inferInstanceAs (Decidable (∀ c ∈ db.classes.find classId, _ = _))

/-- A deleted row does not count, and a grade is entered for the class of the row. Otherwise the
    columns that are not computed must be wrong already, by what the call changes. -/
def CountsAgain (db : Db) : Call → Prop
  | .delete takeId => ∀ tc ∈ db.takeClasses.find takeId, tc.grade ≠ 99
  | .gradeUpdate takeId _ classId requestDto => ∀ tc ∈ db.takeClasses.find takeId,
      if requestDto.grade = some 99 then
        db.Off tc.classId (if tc.grade = 99 then 0 else 1) ∧
          (tc.classId = classId ∨ db.Off classId 0)
      else tc.classId = classId ∨ db.Off tc.classId (if tc.grade = 99 then -1 else 0)
  | _ => True

instance (db : Db) : ∀ e, Decidable (CountsAgain db e)
  | .delete takeId => inferInstanceAs (Decidable (∀ tc ∈ db.takeClasses.find takeId, _))
  | .gradeUpdate takeId _ _ _ =>
    inferInstanceAs (Decidable (∀ tc ∈ db.takeClasses.find takeId, ite _ _ _))
  | .save .. | .updateUser .. | .updateClasses .. | .deleteClasses .. | .saveClasses ..
  | .join .. | .saveHope .. | .deleteHope .. => inferInstanceAs (Decidable True)

section

variable {db db' : Db} {userId classId takeId id : ℤ}

/-- The column alone decides. -/
theorem Db.seatsExact_iff : db.SeatsExact classId ↔ db.Off classId 0 := by
  constructor
  · intro h c hc
    rw [h.count c hc, add_zero]
  · intro h
    have hcount : ∀ c ∈ db.classes.find classId,
        c.curStudentNum = db.findNumOfCurStudent classId := fun c hc => (h c hc).trans (add_zero _)
    refine ⟨hcount, fun c user userId userId' db' hvalid hupdate => ?_⟩
    have hseat : c.isFull ↔ c.maxStudentNum ≤ db.findNumOfCurStudent classId := by
      rw [← hcount c hvalid.foundClasses]
      exact Iff.rfl
    constructor
    · rintro ⟨⟨r, db'⟩, hrun⟩
      obtain ⟨user', c', hadmits, -⟩ := save_eq_ok.1 hrun
      obtain rfl : c = c' := Option.some.inj (hvalid.foundClasses.symm.trans hadmits.foundClasses)
      exact Int.not_le.1 fun h => hadmits.seat (hseat.2 h)
    · intro hlt
      refine ⟨(db.takeClasses.next, db'), save_eq_ok.2 ⟨user, c, ⟨hvalid, fun h => ?_⟩, rfl,
        userId', hupdate⟩⟩
      exact absurd (hseat.1 h) (Int.not_le.2 hlt)

/-- A deletion takes one student, if the row counts. -/
theorem Db.count_drop {tc : TakeClass} (h : db.takeClasses.find takeId = some tc) :
    (db.drop takeId).findNumOfCurStudent id + (if tc.classId = id ∧ tc.grade = 99 then 1 else 0) =
      db.findNumOfCurStudent id := by
  obtain ⟨l₁, l₂, hrows, -, hfilter⟩ := Table.rows_split (fun tc => tc) (fun _ => rfl) h
  have hdrop : (db.drop takeId).takeClasses.rows = l₁ ++ l₂ := hfilter
  unfold Db.findNumOfCurStudent
  rw [hdrop, hrows, List.countP_append, List.countP_append, List.countP_cons]
  by_cases hp : tc.classId = id ∧ tc.grade = 99
  · simp [hp]
    omega
  · simp [hp]

/-- A grade takes one student, or gives one. -/
theorem Db.count_setGrade {tc : TakeClass} {grade : ℤ}
    (h : db.takeClasses.find takeId = some tc) :
    (db.setGrade takeId grade).findNumOfCurStudent id +
        (if tc.classId = id ∧ tc.grade = 99 then 1 else 0) =
      db.findNumOfCurStudent id + (if tc.classId = id ∧ grade = 99 then 1 else 0) := by
  obtain ⟨l₁, l₂, hrows, hmodify, -⟩ :=
    Table.rows_split (fun tc => { tc with grade }) (fun _ => rfl) h
  have hset : (db.setGrade takeId grade).takeClasses.rows = l₁ ++ { tc with grade } :: l₂ := hmodify
  unfold Db.findNumOfCurStudent
  rw [hset, hrows, List.countP_append, List.countP_append, List.countP_cons, List.countP_cons]
  by_cases hp : tc.classId = id ∧ tc.grade = 99 <;> by_cases hq : tc.classId = id ∧ grade = 99 <;>
    simp [hp, hq] <;> omega

/-! How far off a column is after a statement. -/

theorem Db.off_updateClasses {requestDto : ClassUpdateRequestDto} {n : ℤ} :
    (db.updateClasses classId requestDto).Off id n ↔ db.Off id n := by
  unfold Db.Off
  rw [Db.find_updateClasses]
  constructor
  · intro h c hc
    have := h _ (Option.map_eq_some_iff.2 ⟨c, hc, rfl⟩)
    split at this
    · exact this
    · exact this
  · intro h c' hc'
    obtain ⟨c, hc, rfl⟩ := Option.map_eq_some_iff.1 hc'
    split
    · exact h c hc
    · exact h c hc

theorem Db.off_setCurStudent_self {n : ℤ} (hn : n = db.findNumOfCurStudent classId) :
    (db.setCurStudent classId n).Off classId 0 := by
  intro c' hc'
  rw [Db.find_setCurStudent] at hc'
  obtain ⟨c, hc, rfl⟩ := Option.map_eq_some_iff.1 hc'
  rw [if_pos (Table.key_of_find hc), add_zero]
  exact hn

theorem Db.off_setCurStudent_of_ne {m n : ℤ} (h : id ≠ classId) :
    (db.setCurStudent classId m).Off id n ↔ db.Off id n := by
  unfold Db.Off
  have hfind : (db.setCurStudent classId m).classes.find id = db.classes.find id :=
    Table.find_modify_of_ne (t := db.classes) (·.setCurStudent m) (fun _ => rfl) h
  rw [hfind]
  rfl

theorem Db.off_drop {tc : TakeClass} {n : ℤ} (h : db.takeClasses.find takeId = some tc) :
    (db.drop takeId).Off id n ↔
      db.Off id (n - if tc.classId = id ∧ tc.grade = 99 then 1 else 0) := by
  have hcount := @Db.count_drop db takeId id tc h
  refine forall₂_congr fun c _ => ?_
  omega

theorem Db.off_setGrade {tc : TakeClass} {grade n : ℤ}
    (h : db.takeClasses.find takeId = some tc) :
    (db.setGrade takeId grade).Off id n ↔
      db.Off id (n + (if tc.classId = id ∧ grade = 99 then 1 else 0) -
        if tc.classId = id ∧ tc.grade = 99 then 1 else 0) := by
  have hcount := @Db.count_setGrade db takeId id tc grade h
  refine forall₂_congr fun c _ => ?_
  omega

/-! ### One call -/

/-- A registration counts after its row is there. -/
theorem save_exact {r : ℤ} (h : (save userId classId).run db = .ok (r, db')) :
    db'.Off classId 0 := by
  obtain ⟨user, classes, hadmits, -, userId', hupdate⟩ := save_eq_ok.1 h
  obtain ⟨sum, done, year, -, -, -, -, rfl⟩ := UserService.update_cases hupdate
  exact Db.off_setCurStudent_self rfl

/-- A deletion counts before its row goes. -/
theorem delete_exact_iff {tc : TakeClass} {u : Unit} (htc : db.takeClasses.find takeId = some tc)
    (h : (delete takeId).run db = .ok (u, db')) : db'.Off tc.classId 0 ↔ tc.grade ≠ 99 := by
  obtain ⟨tc', user, classes, htc', -, -, hc, userId', hupdate⟩ := delete_cases h
  obtain rfl : tc = tc' := Option.some.inj (htc.symm.trans htc')
  obtain ⟨sum, done, year, -, -, -, -, rfl⟩ := UserService.update_cases hupdate
  have hcounted : (db.setCurStudent tc.classId
      (db.findNumOfCurStudent tc.classId)).Off tc.classId 0 := Db.off_setCurStudent_self rfl
  have hfind : (db.setCurStudent tc.classId
      (db.findNumOfCurStudent tc.classId)).takeClasses.find takeId = some tc := htc
  refine (Db.off_drop hfind).trans ?_
  by_cases hg : tc.grade = 99
  · -- The column is one too high, as the class is still there.
    rw [if_pos ⟨rfl, hg⟩]
    refine iff_of_false (fun hoff => ?_) (not_not.2 hg)
    have hcur := hoff (classes.setCurStudent (db.findNumOfCurStudent tc.classId))
      (Table.find_modify_self (t := db.classes)
        (·.setCurStudent (db.findNumOfCurStudent tc.classId)) (fun _ => rfl) hc)
    change db.findNumOfCurStudent tc.classId = db.findNumOfCurStudent tc.classId + _ at hcur
    omega
  · rw [if_neg fun h => hg h.2]
    exact iff_of_true hcounted hg

/-- The entry of a grade counts the students of the class in the path, unless the grade is 99. -/
theorem enterGrade_exact_iff {tc : TakeClass} {requestDto : TakeClassUpdateRequestDto} {u : Unit}
    (htc : db.takeClasses.find takeId = some tc)
    (h : (UserController.enterGrade takeId userId classId requestDto).result db = (.ok u, db')) :
    db'.Off tc.classId 0 ∧ db'.Off classId 0 ↔
      CountsAgain db (.gradeUpdate takeId userId classId requestDto) := by
  obtain ⟨tc', grade, classes, avg, form, htc', hdto, hc, db₂, rfl, rfl⟩ :=
    UserController.enterGrade_cases h
  obtain rfl : tc = tc' := Option.some.inj (htc.symm.trans htc')
  have hset : ∀ i, ((db.setGrade takeId grade).updateClasses classId
      { ClassUpdateRequestDto.ofClasses classes with averageScore := avg }).Off i 0 ↔
      db.Off i (0 + (if tc.classId = i ∧ grade = 99 then 1 else 0) -
        if tc.classId = i ∧ tc.grade = 99 then 1 else 0) :=
    fun i => Db.off_updateClasses.trans (Db.off_setGrade htc)
  have hcond : CountsAgain db (.gradeUpdate takeId userId classId requestDto) ↔
      if grade = 99 then
        db.Off tc.classId (if tc.grade = 99 then 0 else 1) ∧
          (tc.classId = classId ∨ db.Off classId 0)
      else tc.classId = classId ∨ db.Off tc.classId (if tc.grade = 99 then -1 else 0) := by
    simp [CountsAgain, htc, hdto]
  rw [hcond]
  by_cases h99 : grade = 99
  · rw [if_pos h99, if_pos h99]
    refine (and_congr (hset tc.classId) (hset classId)).trans ?_
    by_cases hid : tc.classId = classId
    · subst hid
      by_cases hg : tc.grade = 99 <;> simp [h99, hg]
    · by_cases hg : tc.grade = 99 <;> simp [h99, hg, hid]
  · rw [if_neg h99, if_neg h99]
    generalize (db.setGrade takeId grade).updateClasses classId
      { ClassUpdateRequestDto.ofClasses classes with averageScore := avg } = db₂ at hset ⊢
    have hself : (db₂.setCurStudent classId (db₂.findNumOfCurStudent classId)).Off classId 0 :=
      Db.off_setCurStudent_self rfl
    refine (and_iff_left hself).trans ?_
    by_cases hid : tc.classId = classId
    · rw [← hid] at hself ⊢
      exact iff_of_true hself (.inl rfl)
    · refine (Db.off_setCurStudent_of_ne hid).trans ((hset tc.classId).trans ?_)
      by_cases hg : tc.grade = 99 <;> simp [h99, hg, hid]

/-- After a completed call the columns of its classes are exact if and only if it counts again. -/
theorem call_exact_iff (e : Call) (h : (call db e).1 = .ok ()) :
    (∀ id ∈ e.classes db, (call db e).2.SeatsExact id) ↔ CountsAgain db e := by
  have hrun : e.body.result db = (.ok (), (call db e).2) := Prod.ext h rfl
  generalize (call db e).2 = db' at hrun
  simp only [Db.seatsExact_iff]
  cases e with
  | save userId classId =>
    obtain ⟨r, hsave⟩ := Caller.result_perform_eq_ok.1 hrun
    refine iff_of_true (fun id hid => ?_) trivial
    obtain rfl := List.mem_singleton.1 hid
    exact save_exact hsave
  | delete takeId =>
    obtain ⟨u, hdelete⟩ := Caller.result_perform_eq_ok.1 hrun
    obtain ⟨tc, -, -, htc, -⟩ := delete_cases hdelete
    simp only [Call.classes, CountsAgain, htc, Option.map_some, Option.toList_some,
      List.mem_singleton, forall_eq, Option.mem_def, Option.some.injEq, forall_eq']
    exact delete_exact_iff htc hdelete
  | gradeUpdate takeId userId classId requestDto =>
    obtain ⟨tc, grade, -, -, -, htc, -⟩ := UserController.enterGrade_cases hrun
    rw [← enterGrade_exact_iff htc hrun]
    simp [Call.classes, htc]
  | updateUser | updateClasses | deleteClasses | saveClasses | join | saveHope | deleteHope =>
    exact iff_of_true nofun trivial

/-- In any run of calls, the columns are exact after every completed one if and only if each of
    them counts again. -/
theorem seats_exact_iff (start : Db) (es : List Call) :
    Reply.Along call (fun db e => (call db e).1 = .ok () →
        ∀ id ∈ e.classes db, (call db e).2.SeatsExact id) start es ↔
      Reply.Along call (fun db e => (call db e).1 = .ok () → CountsAgain db e) start es :=
  Reply.along_congr fun _ e => forall_congr' fun h => call_exact_iff e h

/-- After the only student of a class gave it up, the column still says one. -/
theorem delete_inexact : ∃ es, ¬ Reply.Along call (fun db e => (call db e).1 = .ok () →
    ∀ id ∈ e.classes db, (call db e).2.SeatsExact id) twoClasses es := by
  refine ⟨[.save 1 1, .delete 0], fun h => ?_⟩
  have hexact := h.2.1 (by decide +kernel) 1 (by decide +kernel)
  exact absurd (Db.seatsExact_iff.1 hexact) (by decide +kernel)

end

/-! ### Registrations at the same time -/

/-- Registrations on one class that run at the same time: the last committed database, and those
    that passed their checks and wait to commit, each with the number of students it counted. -/
structure Rush where
  db : Db
  pending : List (ℤ × ℤ)

/-- A student's registration reads and checks, or commits. -/
inductive RushStep
  | read (userId : ℤ)
  | commit (userId : ℤ)
  deriving DecidableEq

/-- The checks of the registration pass. -/
def Db.Passes (db : Db) (userId classId : ℤ) : Prop := ((check userId classId).run db).isOk

instance (db : Db) (userId classId : ℤ) : Decidable (db.Passes userId classId) :=
  inferInstanceAs (Decidable (_ = true))

namespace Rush

/-- The checks and the count see the last committed database, the count also the new row. The
    commit adds the row to what is committed by then, and writes the count. -/
def step (classId : ℤ) (s : Rush) : RushStep → Option Rush
  | .read userId =>
    if s.db.Passes userId classId then
      some { s with pending :=
        (userId, (s.db.enrol userId classId).findNumOfCurStudent classId) :: s.pending }
    else some s
  | .commit userId => (s.pending.find? (·.1 = userId)).map fun p =>
      { db := (s.db.enrol userId classId).setCurStudent classId p.2
        pending := s.pending.erase p }

/-- The seats of the class. -/
def seats (classId : ℤ) (s : Rush) : ℤ := (s.db.classes.find classId).elim 0 Classes.maxStudentNum

/-- The students of the class. -/
def taken (classId : ℤ) (s : Rush) : ℤ := s.db.findNumOfCurStudent classId

/-- A registration that passes leaves room for those that wait. -/
def Room (classId : ℤ) (s : Rush) : RushStep → Prop
  | .read userId => s.db.Passes userId classId → taken classId s + s.pending.length < seats classId s
  | .commit _ => True

instance (classId : ℤ) (s : Rush) : ∀ e, Decidable (Room classId s e)
  | .read userId => inferInstanceAs (Decidable (s.db.Passes userId classId → _ < _))
  | .commit _ => inferInstanceAs (Decidable True)

variable {classId : ℤ} {s s' : Rush} {e : RushStep}

/-- What a step does: it passes, fails, or commits one of those that wait. -/
theorem step_cases (h : step classId s e = some s') :
    seats classId s' = seats classId s ∧
    ((∃ userId, e = .read userId ∧ s.db.Passes userId classId ∧
        taken classId s' = taken classId s ∧ s'.pending.length = s.pending.length + 1) ∨
      (∃ userId, e = .read userId ∧ ¬ s.db.Passes userId classId ∧ s' = s) ∨
      (∃ userId, e = .commit userId ∧ taken classId s' = taken classId s + 1 ∧
        s'.pending.length + 1 = s.pending.length)) := by
  cases e with
  | read userId =>
    rw [step] at h
    split at h
    · next hpass =>
      cases h
      exact ⟨rfl, .inl ⟨userId, rfl, hpass, rfl, rfl⟩⟩
    · next hpass =>
      cases h
      exact ⟨rfl, .inr (.inl ⟨userId, rfl, hpass, rfl⟩)⟩
  | commit userId =>
    obtain ⟨p, hp, rfl⟩ := Option.map_eq_some_iff.1 h
    have hmem := List.mem_of_find?_eq_some hp
    refine ⟨?_, .inr (.inr ⟨userId, rfl, ?_, ?_⟩)⟩
    · unfold seats
      rw [Db.find_setCurStudent]
      change Option.elim (Option.map _ (s.db.classes.find classId)) _ _ = _
      cases s.db.classes.find classId with
      | none => rfl
      | some c =>
        dsimp only [Option.map_some, Option.elim_some]
        split
        · rfl
        · rfl
    · exact (Db.count_enrol classId).trans (congrArg _ (if_pos rfl))
    · have hlength := List.length_erase_of_mem hmem
      have hpos := List.length_pos_of_mem hmem
      dsimp only
      omega

/-- The students and those that wait are never fewer than before. -/
theorem claimed_mono {es : List RushStep} (h : Trace.run (step classId) s es = some s') :
    seats classId s' = seats classId s ∧
      taken classId s + s.pending.length ≤ taken classId s' + s'.pending.length := by
  refine Trace.run_inv (P := fun _ _ => True)
    (I := fun t => seats classId t = seats classId s ∧
      taken classId s + s.pending.length ≤ taken classId t + t.pending.length)
    (fun t e t' ⟨hs, hle⟩ _ hstep => ?_) ⟨rfl, le_refl _⟩
    (Trace.along_of_forall fun _ _ _ => trivial) h
  obtain ⟨hs', hcases⟩ := step_cases hstep
  refine ⟨hs'.trans hs, hle.trans ?_⟩
  rcases hcases with ⟨_, -, -, ht, hp⟩ | ⟨_, -, -, rfl⟩ | ⟨_, -, ht, hp⟩
  · omega
  · exact le_refl _
  · omega

/-- When every registration leaves room, no seat is given away twice. -/
theorem claimed_le (hs : taken classId s + s.pending.length ≤ seats classId s)
    {es : List RushStep} (hroom : Trace.Along (step classId) (Room classId) s es)
    (h : Trace.run (step classId) s es = some s') :
    taken classId s' + s'.pending.length ≤ seats classId s' := by
  refine Trace.run_inv (I := fun t => taken classId t + t.pending.length ≤ seats classId t)
    (fun t e t' ht hr hstep => ?_) hs hroom h
  obtain ⟨hs', hcases⟩ := step_cases hstep
  rw [hs']
  rcases hcases with ⟨_, rfl, hpass, ht', hp⟩ | ⟨_, -, -, rfl⟩ | ⟨_, -, ht', hp⟩
  · have := hr hpass
    omega
  · exact ht
  · omega

/-- When one registration leaves no room, there are more of them than seats. -/
theorem room_of_claimed_le {es : List RushStep} (h : Trace.run (step classId) s es = some s')
    (hle : taken classId s' + s'.pending.length ≤ seats classId s') :
    Trace.Along (step classId) (Room classId) s es := by
  induction es generalizing s with
  | nil => trivial
  | cons e es ih =>
    obtain ⟨t, ht, h⟩ := Option.bind_eq_some_iff.1 h
    refine ⟨?_, fun t' ht' => ?_⟩
    · obtain ⟨hs, hmono⟩ := claimed_mono h
      obtain ⟨hs', hcases⟩ := step_cases ht
      rcases hcases with ⟨_, rfl, -, htaken, hp⟩ | ⟨_, rfl, hfail, -⟩ | ⟨_, rfl, -⟩
      · intro _
        omega
      · exact fun hpass => absurd hpass hfail
      · trivial
    · obtain rfl : t = t' := Option.some.inj (ht.symm.trans ht')
      exact ih h

/-- From a class that is not overbooked, in any order of reads and commits: as long as every
    registration that passes leaves room for those that wait, the class is not overbooked. When
    all have committed in the end, the class is overbooked unless they did. -/
theorem not_overbooked (db : Db) (hdb : taken classId ⟨db, []⟩ ≤ seats classId ⟨db, []⟩)
    (es : List RushStep) (h : Trace.run (step classId) ⟨db, []⟩ es = some s') :
    (Trace.Along (step classId) (Room classId) ⟨db, []⟩ es →
      taken classId s' ≤ seats classId s') ∧
    (s'.pending = [] → (taken classId s' ≤ seats classId s' ↔
      Trace.Along (step classId) (Room classId) ⟨db, []⟩ es)) := by
  have hroom : Trace.Along (step classId) (Room classId) ⟨db, []⟩ es →
      taken classId s' + s'.pending.length ≤ seats classId s' := fun hroom =>
    claimed_le (by simpa using hdb) hroom h
  refine ⟨fun hr => ?_, fun hnil => ⟨fun hle => ?_, fun hr => ?_⟩⟩
  · have := hroom hr
    omega
  · exact room_of_claimed_le h (by simpa [hnil] using hle)
  · have := hroom hr
    omega

/-- Two students and a class with one seat. -/
def oneSeat : Db where
  users := ⟨[⟨1, false, "kim", "Kim", none, none, some 0, some 0, some 0⟩,
    ⟨2, false, "choi", "Choi", none, none, some 0, some 0, some 0⟩], 3, by decide, by decide⟩
  classes := ⟨[⟨1, 1, 1, "Lee", 1, 0, some 0, 1, 1, 3, 1, 3⟩], 2, by decide, by decide⟩
  takeClasses := .empty
  hopeClasses := .empty
  courses := [1]
  majors := [1]
  rooms := [⟨1, 50⟩]
  credits := []

/-- One after the other, only the first student gets the seat. -/
theorem not_overbooked_oneSeat : ∃ s', Trace.run (step 1) ⟨oneSeat, []⟩
    [.read 1, .commit 1, .read 2] = some s' ∧ taken 1 s' ≤ seats 1 s' := by
  obtain ⟨s', hs'⟩ := Option.isSome_iff_exists.1 (show (Trace.run (step 1) ⟨oneSeat, []⟩
    [.read 1, .commit 1, .read 2]).isSome by decide +kernel)
  exact ⟨s', hs', (not_overbooked oneSeat (by decide +kernel) _ hs').1 (by decide +kernel)⟩

/-- Both students read before one of them commits, and both get the seat. -/
theorem overbooked : taken 1 ⟨oneSeat, []⟩ ≤ seats 1 ⟨oneSeat, []⟩ ∧
    ∃ s' ∈ Trace.run (step 1) ⟨oneSeat, []⟩ [.read 1, .read 2, .commit 1, .commit 2],
      seats 1 s' < taken 1 s' := by
  decide +kernel

end Rush

end Registration
