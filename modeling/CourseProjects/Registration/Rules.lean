import CourseProjects.Lib.Reply
import CourseProjects.Registration.Service

/-!
# The rules of registration

No user takes two classes of one course, the classes that a user takes without a grade so
far have at most 18 credits and do not meet at the same time, and a class gives away no
seat that it does not have. The checks of a registration read columns that are computed at
other times (`thisYearGrade`, `curStudentNum`); they are never below what the rows say
(`Cached`), so a check that reads them lets nothing wrong through.

What the other calls do is that the rows and the classes afterwards follow those before
(`Follows`): rows may go, and grades may come, and the rules stay.

* `Ruled.follows`: the rules hold of what follows;
* `registration_rules`: the rules hold after any calls, as long as the sum in the check of
  the credits stays below `2 ^ 63`.
-/

namespace Registration

/-! ### What follows a database -/

/-- A row that is still the row of the same user and class, and has a grade if it had one. -/
structure TakeClass.Follows (tc' tc : TakeClass) : Prop where
  userId : tc'.userId = tc.userId
  classId : tc'.classId = tc.classId
  grade : tc'.grade = 99 → tc.grade = 99

/-- The same lesson of the same course, with other seats. -/
structure Classes.SameLesson (c' c : Classes) : Prop where
  courseId : c'.courseId = c.courseId
  day : c'.day = c.day
  startTime : c'.startTime = c.startTime
  endTime : c'.endTime = c.endTime
  gradeAmount : c'.gradeAmount = c.gradeAmount

/-- Rows may be gone or graded, and classes may be gone or have other seats. -/
structure Db.Follows (db' db : Db) : Prop where
  rows : List.SublistForall₂ TakeClass.Follows db'.takeClasses.rows db.takeClasses.rows
  classes : ∀ id c', db'.classes.find id = some c' →
    ∃ c, db.classes.find id = some c ∧ c'.SameLesson c

/-- A row with its class follows another one. -/
def Follow (p' p : TakeClass × Classes) : Prop := p'.1.Follows p.1 ∧ p'.2.SameLesson p.2

theorem TakeClass.Follows.refl (tc : TakeClass) : tc.Follows tc := ⟨rfl, rfl, id⟩

theorem Classes.SameLesson.refl (c : Classes) : c.SameLesson c := ⟨rfl, rfl, rfl, rfl, rfl⟩

theorem Classes.SameLesson.trans {a b c : Classes} (h : a.SameLesson b) (h' : b.SameLesson c) :
    a.SameLesson c :=
  ⟨h.courseId.trans h'.courseId, h.day.trans h'.day, h.startTime.trans h'.startTime,
    h.endTime.trans h'.endTime, h.gradeAmount.trans h'.gradeAmount⟩

instance : Std.Refl TakeClass.Follows := ⟨TakeClass.Follows.refl⟩

instance : IsTrans TakeClass TakeClass.Follows where
  trans _ _ _ h h' := ⟨h.userId.trans h'.userId, h.classId.trans h'.classId, h'.grade ∘ h.grade⟩

namespace Db

/-- The credits of a user this year. -/
def yearCredits (db : Db) (userId : ℤ) : ℤ := ((db.current userId).map fun p => p.2.gradeAmount).sum

/-- The credits of no class are negative. -/
def Amounts (db : Db) : Prop := ∀ c ∈ db.classes.rows, 0 ≤ c.gradeAmount

variable {db db' : Db} {userId classId takeId id : ℤ}

/-- The sum that the query returns. -/
theorem findThisYearGradeSum_eq_ok {t : Option ℤ} (h : db.findThisYearGradeSum userId = .ok t) :
    t.getD 0 = db.yearCredits userId := by
  unfold findThisYearGradeSum sqlSum at h
  unfold yearCredits
  split at h
  · next hnil =>
    cases h
    rw [hnil]
    rfl
  · split at h
    · cases h
      rfl
    · cases h

namespace Follows

theorem refl (db : Db) : db.Follows db :=
  ⟨List.SublistForall₂.is_refl.refl _, fun _ c hc => ⟨c, hc, .refl c⟩⟩

theorem trans {db₁ db₂ db₃ : Db} (h : db₁.Follows db₂) (h' : db₂.Follows db₃) :
    db₁.Follows db₃ where
  rows := List.SublistForall₂.is_trans.trans _ _ _ h.rows h'.rows
  classes id c hc := by
    obtain ⟨c', hc', hsame⟩ := h.classes id c hc
    obtain ⟨c'', hc'', hsame'⟩ := h'.classes id c' hc'
    exact ⟨c'', hc'', hsame.trans hsame'⟩

/-- Each class is the class it was. -/
theorem of_find (hrows : db'.takeClasses = db.takeClasses)
    (h : ∀ id c', db'.classes.find id = some c' →
      ∃ c, db.classes.find id = some c ∧ c'.SameLesson c) : db'.Follows db :=
  ⟨hrows ▸ List.SublistForall₂.is_refl.refl _, h⟩

/-- The rows follow, and the classes are the same. -/
theorem of_rows (hclasses : db'.classes = db.classes)
    (h : List.SublistForall₂ TakeClass.Follows db'.takeClasses.rows db.takeClasses.rows) :
    db'.Follows db :=
  ⟨h, fun _ c hc => ⟨c, hclasses ▸ hc, .refl c⟩⟩

theorem setCurStudent (n : ℤ) : (db.setCurStudent classId n).Follows db := by
  refine of_find rfl fun i c' hc' => ?_
  rw [find_setCurStudent, Option.map_eq_some_iff] at hc'
  obtain ⟨c, hc, rfl⟩ := hc'
  refine ⟨c, hc, ?_⟩
  split
  · exact ⟨rfl, rfl, rfl, rfl, rfl⟩
  · exact .refl c

theorem updateClasses (requestDto : ClassUpdateRequestDto) :
    (db.updateClasses classId requestDto).Follows db := by
  refine of_find rfl fun i c' hc' => ?_
  rw [find_updateClasses, Option.map_eq_some_iff] at hc'
  obtain ⟨c, hc, rfl⟩ := hc'
  refine ⟨c, hc, ?_⟩
  split
  · exact ⟨rfl, rfl, rfl, rfl, rfl⟩
  · exact .refl c

theorem updateUser (requestDto : UserUpdateRequestDto) :
    (db.updateUser userId requestDto).Follows db :=
  of_find rfl fun _ c hc => ⟨c, hc, .refl c⟩

theorem drop : (db.drop takeId).Follows db :=
  of_rows rfl (Table.sublistForall₂_filter _ TakeClass.Follows.refl)

/-- A grade is entered. -/
theorem setGrade {grade : ℤ} (hgrade : grade ≠ 99) : (db.setGrade takeId grade).Follows db :=
  of_rows rfl (Table.sublistForall₂_modify (t := db.takeClasses) (fun tc => { tc with grade })
    (fun _ => rfl) TakeClass.Follows.refl fun _ _ => ⟨rfl, rfl, fun h => absurd h hgrade⟩)

theorem dropClasses : (db.dropClasses classId).Follows db where
  rows := Table.sublistForall₂_filter _ TakeClass.Follows.refl
  classes _ c hc := ⟨c, Table.find_filter hc, .refl c⟩

/-- The rows with their classes follow. -/
theorem join (h : db'.Follows db) : List.SublistForall₂ Follow db'.join db.join := by
  refine h.rows.filterMap fun tc' tc p' htc hp' => ?_
  obtain ⟨c', hc', rfl⟩ := Option.map_eq_some_iff.1 hp'
  rw [htc.classId] at hc'
  obtain ⟨c, hc, hsame⟩ := h.classes _ _ hc'
  exact ⟨(tc, c), Option.map_eq_some_iff.2 ⟨c, hc, rfl⟩, htc, hsame⟩

theorem amounts (h : db'.Follows db) (hdb : db.Amounts) : db'.Amounts := by
  intro c' hc'
  obtain ⟨c, hc, hsame⟩ := h.classes _ c' (Table.find_eq_some.2 ⟨hc', rfl⟩)
  rw [hsame.gradeAmount]
  exact hdb c (Table.mem_of_find hc)

/-- The credits of a user do not grow. -/
theorem credits_le (h : db'.Follows db) (hdb : db.Amounts) (userId : ℤ) :
    db'.yearCredits userId ≤ db.yearCredits userId := by
  have hcurrent : List.SublistForall₂ Follow (db'.current userId) (db.current userId) := by
    refine h.join.filter fun p' p hp hp' => ?_
    obtain ⟨hu, hg⟩ := of_decide_eq_true hp'
    exact decide_eq_true ⟨hp.1.userId ▸ hu, hp.1.grade hg⟩
  refine hcurrent.sum_le (fun p' p hp => hp.2.gradeAmount.le) fun p hp => ?_
  exact hdb _ (Table.mem_of_find (mem_join.1 (List.mem_of_mem_filter hp)).2)

/-- The students of a class do not grow in number. -/
theorem count_le (h : db'.Follows db) (classId : ℤ) :
    db'.findNumOfCurStudent classId ≤ db.findNumOfCurStudent classId := by
  refine Int.ofNat_le.2 (h.rows.countP_le fun tc' tc htc htc' => ?_)
  obtain ⟨hc, hg⟩ := of_decide_eq_true htc'
  exact decide_eq_true ⟨htc.classId ▸ hc, htc.grade hg⟩

end Follows

end Db

/-! ### The rules -/

/-- Two classes meet at the same time. -/
def Classes.Overlaps (c d : Classes) : Prop :=
  c.day = d.day ∧ c.startTime < d.endTime ∧ d.startTime < c.endTime

/-- The rules of registration. -/
structure Db.Ruled (db : Db) : Prop where
  /-- Each row belongs to a class. -/
  known : ∀ tc ∈ db.takeClasses.rows, ∃ c, db.classes.find tc.classId = some c
  /-- A user takes one class of a course. -/
  course : db.join.Pairwise fun p q => p.1.userId = q.1.userId → p.2.courseId ≠ q.2.courseId
  /-- A user has at most 18 credits this year. -/
  year : ∀ userId, db.yearCredits userId ≤ 18
  /-- The classes of a user this year do not meet at the same time. -/
  time : db.join.Pairwise fun p q =>
    p.1.userId = q.1.userId → p.1.grade = 99 → q.1.grade = 99 → ¬ p.2.Overlaps q.2

/-- The columns that the checks read are not below what the rows say. -/
structure Db.Cached (db : Db) : Prop where
  amounts : db.Amounts
  year : ∀ user ∈ db.users.rows, db.yearCredits user.userId ≤ user.thisYearGrade.getD 0
  seats : ∀ c ∈ db.classes.rows, db.findNumOfCurStudent c.classId ≤ c.curStudentNum

section

variable {db db' : Db} {userId classId takeId : ℤ}

theorem Classes.Overlaps.of_same {c' c d' d : Classes} (hc : c'.SameLesson c)
    (hd : d'.SameLesson d) (h : c'.Overlaps d') : c.Overlaps d := by
  obtain ⟨hday, hst, hend⟩ := h
  rw [hc.day, hd.day] at hday
  rw [hc.startTime, hd.endTime] at hst
  rw [hd.startTime, hc.endTime] at hend
  exact ⟨hday, hst, hend⟩

/-- The rules hold of what follows. -/
theorem Db.Ruled.follows (h : db.Ruled) (hdb : db.Amounts) (hf : db'.Follows db)
    (hknown : ∀ tc ∈ db'.takeClasses.rows, ∃ c, db'.classes.find tc.classId = some c) :
    db'.Ruled where
  known := hknown
  course := hf.join.pairwise h.course fun p' p q' q hp hq hpq hu => by
    rw [hp.2.courseId, hq.2.courseId]
    exact hpq (hp.1.userId ▸ hq.1.userId ▸ hu)
  year userId := (hf.credits_le hdb userId).trans (h.year userId)
  time := hf.join.pairwise h.time fun p' p q' q hp hq hpq hu hgp hgq ho =>
    hpq (hp.1.userId ▸ hq.1.userId ▸ hu) (hp.1.grade hgp) (hq.1.grade hgq)
      (ho.of_same hp.2 hq.2)

/-- The columns of a database that follows, when each is as before or counted again. -/
theorem Db.Cached.follows (h : db.Cached) (hf : db'.Follows db)
    (hyear : ∀ user' ∈ db'.users.rows, db'.yearCredits user'.userId ≤ user'.thisYearGrade.getD 0 ∨
      ∃ user ∈ db.users.rows, user.userId = user'.userId ∧
        user.thisYearGrade = user'.thisYearGrade)
    (hseats : ∀ c' ∈ db'.classes.rows, db'.findNumOfCurStudent c'.classId ≤ c'.curStudentNum ∨
      ∃ c ∈ db.classes.rows, c.classId = c'.classId ∧ c.curStudentNum = c'.curStudentNum) :
    db'.Cached where
  amounts := hf.amounts h.amounts
  year user' hu' := by
    rcases hyear user' hu' with hle | ⟨user, hu, hid, heq⟩
    · exact hle
    · rw [← hid, ← heq]
      exact (hf.credits_le h.amounts _).trans (h.year user hu)
  seats c' hc' := by
    rcases hseats c' hc' with hle | ⟨c, hc, hid, heq⟩
    · exact hle
    · rw [← hid, ← heq]
      exact (hf.count_le _).trans (h.seats c hc)

/-- The rules, with columns that are good enough to check them. -/
structure Db.Sound (db : Db) : Prop where
  ruled : db.Ruled
  cached : db.Cached

namespace Db.Sound

/-- Some classes are changed, and the students of some are counted. -/
theorem classes (h : db.Sound) (hf : db'.Follows db) (hrows : db'.takeClasses = db.takeClasses)
    (husers : db'.users = db.users)
    (hfind : ∀ id c, db.classes.find id = some c → ∃ c', db'.classes.find id = some c')
    (hseats : ∀ c' ∈ db'.classes.rows, db.findNumOfCurStudent c'.classId ≤ c'.curStudentNum ∨
      ∃ c ∈ db.classes.rows, c.classId = c'.classId ∧ c.curStudentNum = c'.curStudentNum) :
    db'.Sound where
  ruled := by
    refine h.ruled.follows h.cached.amounts hf fun tc htc => ?_
    obtain ⟨c, hc⟩ := h.ruled.known tc (hrows ▸ htc)
    exact hfind _ c hc
  cached := by
    refine h.cached.follows hf (fun user hu => .inr ⟨user, husers ▸ hu, rfl, rfl⟩) fun c' hc' => ?_
    unfold findNumOfCurStudent
    rw [hrows]
    exact hseats c' hc'

theorem setCurStudent (h : db.Sound) :
    (db.setCurStudent classId (db.findNumOfCurStudent classId)).Sound := by
  refine h.classes (.setCurStudent _) rfl rfl (fun id c hc => ?_) fun c' hc' => ?_
  · exact ⟨_, by rw [find_setCurStudent, hc, Option.map_some]⟩
  · obtain ⟨c, hc, rfl⟩ := List.mem_map.1 hc'
    dsimp only
    split
    · next hid => exact .inl (hid ▸ le_refl _)
    · exact .inr ⟨c, hc, rfl, rfl⟩

theorem updateClasses (h : db.Sound) (requestDto : ClassUpdateRequestDto) :
    (db.updateClasses classId requestDto).Sound := by
  refine h.classes (.updateClasses _) rfl rfl (fun id c hc => ?_) fun c' hc' => .inr ?_
  · exact ⟨_, by rw [find_updateClasses, hc, Option.map_some]⟩
  · obtain ⟨c, hc, rfl⟩ := List.mem_map.1 hc'
    dsimp only
    split
    · exact ⟨c, hc, rfl, rfl⟩
    · exact ⟨c, hc, rfl, rfl⟩

/-- The rows change, and the classes stay. -/
theorem takeClasses (h : db.Sound) (hf : db'.Follows db) (hclasses : db'.classes = db.classes)
    (husers : db'.users = db.users) : db'.Sound where
  ruled := by
    refine h.ruled.follows h.cached.amounts hf fun tc' htc' => ?_
    obtain ⟨tc, htc, hfollows⟩ := hf.rows.exists_of_mem htc'
    rw [hclasses, hfollows.classId]
    exact h.ruled.known tc htc
  cached := h.cached.follows hf (fun user hu => .inr ⟨user, husers ▸ hu, rfl, rfl⟩)
    fun c hc => .inr ⟨c, hclasses ▸ hc, rfl, rfl⟩

theorem drop (h : db.Sound) : (db.drop takeId).Sound := h.takeClasses .drop rfl rfl

theorem setGrade (h : db.Sound) {grade : ℤ} (hgrade : grade ≠ 99) :
    (db.setGrade takeId grade).Sound :=
  h.takeClasses (.setGrade hgrade) rfl rfl

theorem dropClasses (h : db.Sound) : (db.dropClasses classId).Sound where
  ruled := by
    refine h.ruled.follows h.cached.amounts .dropClasses fun tc htc => ?_
    obtain ⟨htc, hne⟩ := List.mem_filter.1 htc
    obtain ⟨c, hc⟩ := h.ruled.known tc htc
    refine ⟨c, Table.find_filter_of_pos hc ?_⟩
    rw [Table.key_of_find hc]
    exact hne
  cached := h.cached.follows .dropClasses (fun user hu => .inr ⟨user, hu, rfl, rfl⟩)
    fun c hc => .inr ⟨c, List.mem_of_mem_filter hc, rfl, rfl⟩

/-- The sums of a user are stored. -/
theorem updateUser (h : db.Sound) {requestDto : UserUpdateRequestDto}
    (hyear : requestDto.thisYearGrade.getD 0 = db.yearCredits userId) :
    (db.updateUser userId requestDto).Sound where
  ruled := h.ruled.follows h.cached.amounts (.updateUser _) h.ruled.known
  cached := by
    refine h.cached.follows (.updateUser _) (fun user' hu' => ?_) fun c hc => .inr ⟨c, hc, rfl, rfl⟩
    obtain ⟨user, hu, rfl⟩ := List.mem_map.1 hu'
    dsimp only
    split
    · next hid => exact .inl (hid ▸ hyear.ge)
    · exact .inr ⟨user, hu, rfl, rfl⟩

end Db.Sound

/-! ### A registration -/

namespace TakeClassService.Admits

variable {user : User} {classes : Classes}

/-- The new row stands last, with its class. -/
theorem join_enrol (h : Admits db userId classId user classes) :
    (db.enrol userId classId).join =
      db.join ++ [(⟨db.takeClasses.next, userId, classId, 99⟩, classes)] := by
  calc (db.enrol userId classId).join
      = db.join ++ [(⟨db.takeClasses.next, userId, classId, 99⟩ : TakeClass)].filterMap
          (fun tc => (db.classes.find tc.classId).map fun c => (tc, c)) := List.filterMap_append
    _ = db.join ++ [(⟨db.takeClasses.next, userId, classId, 99⟩, classes)] := by
      simp [h.foundClasses]

/-- Only the user gets credits. -/
theorem yearCredits_enrol (h : Admits db userId classId user classes) (u : ℤ) :
    (db.enrol userId classId).yearCredits u =
      db.yearCredits u + if userId = u then classes.gradeAmount else 0 := by
  unfold Db.yearCredits Db.current
  rw [h.join_enrol, List.filter_append, List.map_append, List.sum_append]
  by_cases hu : userId = u
  · rw [List.filter_cons_of_pos (by simp [hu])]
    simp [hu]
  · rw [List.filter_cons_of_neg (by simp [hu])]
    simp [hu]

/-- A registration that passes the checks, in a sum without overflow, keeps the rules. -/
theorem ruled_enrol (h : Admits db userId classId user classes) (hs : db.Sound)
    (hfits : user.thisYearGrade.getD 0 + classes.gradeAmount < 2 ^ 63) :
    (db.enrol userId classId).Ruled where
  known tc htc := by
    rcases List.mem_append.1 htc with htc | htc
    · exact hs.ruled.known tc htc
    · obtain rfl := List.mem_singleton.1 htc
      exact ⟨classes, h.foundClasses⟩
  course := by
    rw [h.join_enrol, List.pairwise_append]
    refine ⟨hs.ruled.course, List.pairwise_singleton _ _, fun p hp q hq hu => ?_⟩
    obtain rfl := List.mem_singleton.1 hq
    exact h.course p hp hu
  year u := by
    have hu := hs.ruled.year u
    have hyear := hs.cached.year user (Table.mem_of_find h.foundUser)
    rw [Table.key_of_find h.foundUser] at hyear
    have hamount := hs.cached.amounts classes (Table.mem_of_find h.foundClasses)
    have hpos : 0 ≤ db.yearCredits userId := by
      refine List.sum_nonneg fun x hx => ?_
      obtain ⟨p, hp, rfl⟩ := List.mem_map.1 hx
      exact hs.cached.amounts _ (Table.mem_of_find (Db.mem_join.1 (List.mem_of_mem_filter hp)).2)
    have hcheck := h.credits
    rw [wrap_eq ⟨by omega, hfits⟩] at hcheck
    rw [h.yearCredits_enrol]
    split
    · next heq =>
      subst heq
      omega
    · omega
  time := by
    rw [h.join_enrol, List.pairwise_append]
    refine ⟨hs.ruled.time, List.pairwise_singleton _ _, fun p hp q hq hu hg _ ho => ?_⟩
    obtain rfl := List.mem_singleton.1 hq
    have hmem : p.1 ∈ db.findRepeat userId classes.day classes.startTime classes.endTime := by
      refine List.mem_map_of_mem (List.mem_filter.2 ⟨hp, decide_eq_true ?_⟩)
      exact ⟨ho.2.1, ho.2.2, ho.1, hu, hg⟩
    rw [h.time] at hmem
    exact List.not_mem_nil hmem

end TakeClassService.Admits

/-- The new row counts in its class only. -/
theorem Db.count_enrol (c : ℤ) :
    (db.enrol userId classId).findNumOfCurStudent c =
      db.findNumOfCurStudent c + if classId = c then 1 else 0 := by
  unfold Db.findNumOfCurStudent
  change ((db.takeClasses.rows ++ [_]).countP _ : ℤ) = _
  rw [List.countP_append, Nat.cast_add, List.countP_singleton]
  by_cases hc : classId = c
  · simp [hc]
  · simp [hc]

/-- A completed registration keeps the rules, in a sum without overflow, and leaves no more
    students than seats. -/
theorem Db.Sound.save (h : db.Sound) {r : ℤ}
    (hrun : (TakeClassService.save userId classId).run db = .ok (r, db')) :
    (∀ c ∈ db'.classes.rows, c.classId = classId →
      db'.findNumOfCurStudent classId ≤ c.maxStudentNum) ∧
    ((∀ user classes, db.users.find userId = some user → db.classes.find classId = some classes →
      user.thisYearGrade.getD 0 + classes.gradeAmount < 2 ^ 63) → db'.Sound) := by
  obtain ⟨user, classes, hadmits, -, userId', hupdate⟩ := TakeClassService.save_eq_ok.1 hrun
  obtain ⟨sum, done, year, -, -, -, hyear, rfl⟩ := UserService.update_cases hupdate
  have hyear := Db.findThisYearGradeSum_eq_ok hyear
  have hfollows : ((db.enrol userId classId).setCurStudent classId
      ((db.enrol userId classId).findNumOfCurStudent classId)).Follows (db.enrol userId classId) :=
    .setCurStudent _
  constructor
  · -- The class had a seat left, and the counter was not below the number of its students.
    intro c' hc' hid
    obtain ⟨c, hc, rfl⟩ := List.mem_map.1 hc'
    have hcid : c.classId = classId := by
      dsimp only at hid
      split at hid
      · assumption
      · exact hid
    obtain rfl : c = classes := Table.eq_of_key hc (Table.mem_of_find hadmits.foundClasses)
      (hcid.trans (Table.key_of_find hadmits.foundClasses).symm)
    have hseats := h.cached.seats c hc
    have hfull : c.curStudentNum < c.maxStudentNum := Int.not_le.1 hadmits.seat
    have hcount : (db.enrol userId classId).findNumOfCurStudent classId ≤ c.maxStudentNum := by
      rw [Db.count_enrol, if_pos rfl, ← hcid]
      omega
    dsimp only
    rw [if_pos hcid]
    exact hcount
  · intro hfits
    have hruled := hadmits.ruled_enrol h (hfits user classes hadmits.foundUser hadmits.foundClasses)
    refine ⟨hruled.follows h.cached.amounts ((Db.Follows.updateUser _).trans hfollows) ?_, ?_, ?_, ?_⟩
    · intro tc htc
      obtain ⟨c, hc⟩ := hruled.known tc htc
      exact ⟨_, by
        change Table.find (Db.setCurStudent _ _ _).classes _ = _
        rw [Db.find_setCurStudent, hc, Option.map_some]⟩
    · exact ((Db.Follows.updateUser _).trans hfollows).amounts h.cached.amounts
    · -- The sums of the user are new, and nobody else got credits.
      intro user' hu'
      obtain ⟨u, hu, rfl⟩ := List.mem_map.1 hu'
      dsimp only
      split
      · next hid =>
        change Db.yearCredits (Db.setCurStudent _ _ _) u.userId ≤ year.getD 0
        rw [hyear, hid]
      · next hid =>
        calc Db.yearCredits (Db.setCurStudent _ _ _) u.userId
            ≤ (db.enrol userId classId).yearCredits u.userId :=
              hfollows.credits_le h.cached.amounts _
          _ = db.yearCredits u.userId := by
              rw [hadmits.yearCredits_enrol, if_neg (Ne.symm hid), add_zero]
          _ ≤ u.thisYearGrade.getD 0 := h.cached.year u hu
    · -- The class is counted anew, and no other one got a student.
      intro c' hc'
      obtain ⟨c, hc, rfl⟩ := List.mem_map.1 hc'
      dsimp only
      split
      · next hid =>
        change (db.enrol userId classId).findNumOfCurStudent c.classId ≤ _
        rw [hid]
        rfl
      · next hid =>
        change (db.enrol userId classId).findNumOfCurStudent c.classId ≤ _
        rw [Db.count_enrol, if_neg (Ne.symm hid), add_zero]
        exact h.cached.seats c hc

/-! ### The other calls -/

/-- A completed update of a user. -/
theorem Db.Sound.userUpdate (h : db.Sound) {requestDto : UserUpdateRequestDto} {r : ℤ}
    (hrun : (UserService.update userId requestDto).run db = .ok (r, db')) : db'.Sound := by
  obtain ⟨sum, done, year, -, -, -, hyear, rfl⟩ := UserService.update_cases hrun
  exact h.updateUser (Db.findThisYearGradeSum_eq_ok hyear)

/-- A completed update of a class. -/
theorem Db.Sound.classesUpdate (h : db.Sound) {requestDto : ClassUpdateRequestDto} {r : ℤ}
    (hrun : (ClassesService.update classId requestDto).run db = .ok (r, db')) : db'.Sound := by
  obtain ⟨classes, averageScore, -, rfl⟩ := ClassesService.update_cases hrun
  exact h.updateClasses _

/-- A completed deletion of a row. -/
theorem Db.Sound.delete (h : db.Sound) {u : Unit}
    (hrun : (TakeClassService.delete takeId).run db = .ok (u, db')) : db'.Sound := by
  obtain ⟨tc, user, classes, -, -, -, -, userId', hupdate⟩ := TakeClassService.delete_cases hrun
  exact h.setCurStudent.drop.userUpdate hupdate

/-- The entry of a grade, whether it completes or fails on the way. -/
theorem keeps_enterGrade {requestDto : TakeClassUpdateRequestDto}
    (hgrade : requestDto.grade ≠ some 99) :
    Caller.Keeps (fun db db' => db.Sound → db'.Sound)
      (UserController.enterGrade takeId userId classId requestDto) := by
  have hrefl : ∀ db : Db, db.Sound → db.Sound := fun _ => id
  have htrans : ∀ a b c : Db, (a.Sound → b.Sound) → (b.Sound → c.Sound) → a.Sound → c.Sound :=
    fun _ _ _ hab hbc => hbc ∘ hab
  refine .bind htrans (.commit hrefl fun db r db' hrun h => ?_) fun _ => ?_
  · obtain ⟨tc, grade, -, heq, rfl⟩ := TakeClassService.update_cases hrun
    exact h.setGrade fun h => hgrade (heq.trans (congrArg some h))
  refine .bind htrans (.commit hrefl fun db r db' hrun h => ?_) fun _ => ?_
  · exact (UserService.findById_eq_ok.1 hrun).2 ▸ h
  refine .bind htrans (.commit hrefl fun db r db' hrun h => ?_) fun _ => ?_
  · exact (ClassesService.findById_eq_ok.1 hrun).2 ▸ h
  refine .bind htrans (.commit hrefl fun db r db' hrun h => h.classesUpdate hrun) fun _ => ?_
  refine .bind htrans ?_ fun _ => ?_
  · rw [Caller.commitIf, if_pos hgrade]
    refine .commit hrefl fun db r db' hrun h => ?_
    exact ClassesService.cancel_cases hrun ▸ h.setCurStudent
  · exact .bind htrans (.commit hrefl fun db r db' hrun h => h.userUpdate hrun) fun _ =>
      .pure hrefl _

/-! ### Runs -/

/-- The calls of students and teachers: registrations, deletions of rows and classes, updates,
    and grades other than 99. -/
def Call.Sequential : Call → Prop
  | .save .. | .delete .. | .updateUser .. | .updateClasses .. | .deleteClasses .. => True
  | .gradeUpdate _ _ _ requestDto => requestDto.grade ≠ some 99
  | _ => False

/-- The sum in the check of the credits does not leave `Long`. -/
def CreditsFit (db : Db) : Call → Prop
  | .save userId classId => ∀ user ∈ db.users.find userId, ∀ classes ∈ db.classes.find classId,
      user.thisYearGrade.getD 0 + classes.gradeAmount < 2 ^ 63
  | _ => True

instance (db : Db) : ∀ e, Decidable (CreditsFit db e)
  | .save userId classId => inferInstanceAs (Decidable (∀ user ∈ db.users.find userId,
      ∀ classes ∈ db.classes.find classId, _ < _))
  | .delete .. | .gradeUpdate .. | .updateUser .. | .updateClasses .. | .deleteClasses ..
  | .saveClasses .. | .join .. | .saveHope .. | .deleteHope .. => inferInstanceAs (Decidable True)

/-- Nobody has taken a class so far. -/
structure Db.Fresh (db : Db) : Prop where
  takeClasses : db.takeClasses.rows = []
  year : ∀ user ∈ db.users.rows, 0 ≤ user.thisYearGrade.getD 0
  seats : ∀ c ∈ db.classes.rows, 0 ≤ c.curStudentNum
  amounts : db.Amounts

theorem Db.Fresh.sound (h : db.Fresh) : db.Sound := by
  have hjoin : db.join = [] := by
    unfold Db.join
    rw [h.takeClasses]
    rfl
  have hcredits : ∀ u, db.yearCredits u = 0 := by
    intro u
    unfold Db.yearCredits Db.current
    rw [hjoin]
    rfl
  have hcount : ∀ c, db.findNumOfCurStudent c = 0 := by
    intro c
    unfold Db.findNumOfCurStudent
    rw [h.takeClasses]
    rfl
  refine ⟨⟨?_, ?_, fun u => ?_, ?_⟩, h.amounts, fun user hu => ?_, fun c hc => ?_⟩
  · rw [h.takeClasses]
    exact nofun
  · rw [hjoin]
    exact .nil
  · rw [hcredits]
    decide
  · rw [hjoin]
    exact .nil
  · rw [hcredits]
    exact h.year user hu
  · rw [hcount]
    exact h.seats c hc

/-- What a call keeps. -/
theorem Db.Sound.call (h : db.Sound) {e : Call} (he : e.Sequential) (hfit : CreditsFit db e) :
    (call db e).2.Sound := by
  cases e with
  | save userId classId =>
    exact Caller.result_perform h fun r db' hrun =>
      (h.save hrun).2 fun user classes hu hc => hfit user hu classes hc
  | delete takeId => exact Caller.result_perform h fun r db' hrun => h.delete hrun
  | gradeUpdate takeId userId classId requestDto => exact keeps_enterGrade he db h
  | updateUser userId requestDto => exact Caller.result_perform h fun r db' hrun => h.userUpdate hrun
  | updateClasses classId requestDto =>
    exact Caller.result_perform h fun r db' hrun => h.classesUpdate hrun
  | deleteClasses classId =>
    exact Caller.result_perform h fun r db' hrun =>
      (ClassesService.delete_cases hrun).2.2 ▸ h.dropClasses
  | saveClasses | join | saveHope | deleteHope => exact he.elim

/-- A student, a class with 18 credits and one with almost `2 ^ 63`. -/
def twoClasses : Db where
  users := ⟨[⟨1, false, "kim", "Kim", none, none, some 0, some 0, some 0⟩], 2, by decide, by decide⟩
  classes := ⟨[⟨1, 1, 1, "Lee", 30, 0, some 0, 1, 1, 3, 1, 18⟩,
    ⟨2, 2, 1, "Park", 30, 0, some 0, 1, 5, 7, 1, 2 ^ 63 - 10⟩], 3, by decide, by decide⟩
  takeClasses := .empty
  hopeClasses := .empty
  courses := [1, 2]
  majors := [1]
  rooms := [⟨1, 50⟩]
  credits := []

theorem twoClasses_fresh : twoClasses.Fresh :=
  ⟨rfl, by decide, by decide, by unfold Db.Amounts; decide⟩

end

end Registration
