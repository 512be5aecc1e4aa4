import CourseProjects.JoinOperation.Records

/-!
# The merge join

The program of `test1.cpp`: two cursors go through the tables, which are sorted by name. When the
names of their rows differ, each of them moves on in turn, whichever name is the smaller one, so
that rows with a common name meet only where the cursors happen to be level with them.

* `mergeJoin_meets`: which rows the cursors compare (`scan`);
* `merge_join_iff`: the lines that are written are those of the join if and only if each common
  name is as far down the one table as down the other, counted from the common name before it, or
  off by one row on the side that is the next to move (`Aligned`).
-/

namespace JoinOperation

open TextStream While

/-! ### The program -/

/-- The files, the streams `block[0]` and `block[1]`, and the variables of `main`, those of its
loops among them, and what has been written to `./output1.csv`. -/
structure MergeState where
  files : Files
  block0 : FStream
  block1 : FStream
  buffer0 : Str
  buffer1 : Str
  temp0 : NameAge
  temp1 : NameSalary
  br : ℕ
  bs : ℕ
  chk : Bool
  done1 : Bool
  done : Bool
  chk2 : Bool
  output : Str

namespace MergeState

variable (s : MergeState)

/-- Two rows are joined. -/
def join : MergeState :=
  { s with output := s.output ++ makeTuple s.temp0.name s.temp0.age s.temp1.salary }

/-- The next block of `name_age`, when the one before is done. -/
def openOuter : MergeState :=
  if s.chk then
    { s with block0 := s.block0.close.openIn s.files (.nameAge s.br), chk := false }
  else s

/-- The block of `name_age` is done. -/
def nextOuter : MergeState := { s with br := s.br + 1, chk := true }

/-- `getline(block[0], buffer[0])`, and the line is parsed. -/
def readOuter : MergeState :=
  { s with
    buffer0 := (s.block0.getline s.buffer0).1
    block0 := (s.block0.getline s.buffer0).2
    temp0 := s.temp0.setNameAge (s.block0.getline s.buffer0).1 }

/-- The body of the loop over the rows of `name_age`. -/
def outerRow : MergeState :=
  let s := s.openOuter
  if s.block0.isOpen then
    if !s.block0.eof then
      let s := s.readOuter
      if s.block0.eof then s.nextOuter
      else if s.temp0.name = s.temp1.name then s.join
      else { s with done1 := true }
    else s.nextOuter
  else s

/-- The next block of `name_salary`, when the one before is done. -/
def openInner : MergeState :=
  if s.chk2 then
    { s with block1 := s.block1.close.openIn s.files (.nameSalary s.bs), chk2 := false }
  else s

/-- The block of `name_salary` is done. -/
def nextInner : MergeState := { s with bs := s.bs + 1, chk2 := true }

/-- `getline(block[1], buffer[1])`. -/
def getInner : MergeState :=
  { s with
    buffer1 := (s.block1.getline s.buffer1).1
    block1 := (s.block1.getline s.buffer1).2 }

/-- The line is parsed. -/
def parseInner : MergeState := { s with temp1 := s.temp1.setNameSalary s.buffer1 }

/-- The body of the loop over the rows of `name_salary`. -/
def innerRow : MergeState :=
  let s := s.openInner
  if s.block1.isOpen then
    if !s.block1.eof then
      let s := s.getInner
      if s.block1.eof then s.nextInner
      else
        let s := s.parseInner
        if s.temp0.name = s.temp1.name then s.join
        else { s with done := true }
    else s.nextInner
  else s

end MergeState

/-- The loop over the rows of `name_age`. -/
def outerRows (s : MergeState) : Prog MergeState :=
  whileDo (fun s => s.br != blocks && !s.done1) (fun s => pure s.outerRow) { s with done1 := false }

/-- The loop over the rows of `name_salary`. -/
def innerRows (s : MergeState) : Prog MergeState :=
  whileDo (fun s => s.bs != blocks && !s.done) (fun s => pure s.innerRow)
    { s with done := false, chk2 := false }

/-- `main`, up to the end of the joining. -/
def mergeJoin (files : Files) : Prog MergeState := do
  let s : MergeState :=
    { files := files, block0 := .init, block1 := FStream.init.openIn files (.nameSalary 0)
      buffer0 := [], buffer1 := [], temp0 := ⟨[], []⟩, temp1 := ⟨[], []⟩, br := 0, bs := 0
      chk := true, done1 := false, done := false, chk2 := false, output := [] }
  let s := s.getInner.parseInner
  whileDo (fun s => s.br != blocks && s.bs != blocks)
    (fun s => do
      let s ← outerRows s
      innerRows s) s

/-! ### Cursors -/

/-- The rows of a table from a block on. -/
def Table.since (t : Table) (n : ℕ) : List Row := (List.range' n (blocks - n)).flatMap t

variable {age salary table : Table} {f : ℕ → File} {files : Files} {rows rest seen : List Row}
  {a b r : Row} {s t : MergeState} {n : ℕ}

theorem since_lt (h : n < blocks) : table.since n = table n ++ table.since (n + 1) := by
  have hlen : blocks - n = blocks - (n + 1) + 1 := by omega
  rw [Table.since, hlen, List.range'_succ, List.flatMap_cons, Table.since]

theorem since_blocks : table.since blocks = [] := by
  rw [Table.since, Nat.sub_self]
  rfl

theorem since_zero : table.since 0 = table.rows := by
  rw [Table.since, Table.rows, List.range_eq_range']
  rfl

/-- The rows before a cursor: it is at a row of a block, or at the end of the block before. -/
inductive At (f : ℕ → File) (t : Table) : List Row → FStream → ℕ → Bool → Prop
  | next (stream : FStream) {n : ℕ} : n ≤ blocks → At f t (t.since n) stream n true
  | reading (rows : List Row) {n : ℕ} :
    n < blocks → At f t (rows ++ t.since (n + 1)) (.reading (f n) rows) n false

theorem file_close (stream : FStream) : stream.close.file = none := by
  rw [FStream.close]
  split
  · rfl
  · assumption

theorem openIn_close {stream : FStream} {g : File}
    (h : files g = some (text newline (rows.map Row.line))) :
    stream.close.openIn files g = .reading g rows := by
  rw [FStream.openIn, file_close, h]
  rfl

/-- The block that is read has rows, and there are the blocks after it. -/
theorem openOuter_eq (hs : Stored age salary s.files)
    (h : At .nameAge age rest s.block0 s.br s.chk) (hn : s.br < blocks) :
    ∃ rows, rest = rows ++ age.since (s.br + 1) ∧
      s.openOuter = { s with block0 := .reading (.nameAge s.br) rows, chk := false } := by
  obtain ⟨files, block0, block1, buffer0, buffer1, temp0, temp1, br, bs, chk, done1, done, chk2,
    output⟩ := s
  dsimp only at h hn
  cases h with
  | next stream _ =>
    refine ⟨age br, since_lt hn, ?_⟩
    rw [MergeState.openOuter, if_pos rfl]
    dsimp only
    rw [openIn_close (hs.age br hn)]
  | reading rows _ => exact ⟨rows, rfl, rfl⟩

theorem openInner_eq (hs : Stored age salary s.files)
    (h : At .nameSalary salary rest s.block1 s.bs s.chk2) (hn : s.bs < blocks) :
    ∃ rows, rest = rows ++ salary.since (s.bs + 1) ∧
      s.openInner = { s with block1 := .reading (.nameSalary s.bs) rows, chk2 := false } := by
  obtain ⟨files, block0, block1, buffer0, buffer1, temp0, temp1, br, bs, chk, done1, done, chk2,
    output⟩ := s
  dsimp only at h hn
  cases h with
  | next stream _ =>
    refine ⟨salary bs, since_lt hn, ?_⟩
    rw [MergeState.openInner, if_pos rfl]
    dsimp only
    rw [openIn_close (hs.salary bs hn)]
  | reading rows _ => exact ⟨rows, rfl, rfl⟩

/-- At the end of a block of `name_age` the name is empty. -/
theorem outerRow_nil
    (hs : s.openOuter = { s with block0 := .reading (.nameAge s.br) [], chk := false }) :
    s.outerRow = { s with
      buffer0 := []
      block0 := ⟨some (.nameAge s.br), [], true, true⟩
      temp0 := ⟨[], s.temp0.age⟩
      br := s.br + 1
      chk := true } := by
  rw [MergeState.outerRow, hs]
  simp only [MergeState.readOuter, getline_reading_nil]
  rw [NameAge.setNameAge, parse_nil]
  rfl

theorem outerRow_cons
    (hs : s.openOuter = { s with block0 := .reading (.nameAge s.br) (a :: rows), chk := false })
    (ht : t = { s with
      buffer0 := a.line
      block0 := .reading (.nameAge s.br) rows
      temp0 := ⟨a.name, a.val⟩
      chk := false }) :
    s.outerRow = if a.name = s.temp1.name then t.join else { t with done1 := true } := by
  rw [MergeState.outerRow, hs]
  simp only [MergeState.readOuter, getline_reading_cons]
  rw [NameAge.setNameAge, parse_line, ht]
  rfl

theorem innerRow_nil
    (hs : s.openInner = { s with block1 := .reading (.nameSalary s.bs) [], chk2 := false }) :
    s.innerRow = { s with
      buffer1 := []
      block1 := ⟨some (.nameSalary s.bs), [], true, true⟩
      bs := s.bs + 1
      chk2 := true } := by
  rw [MergeState.innerRow, hs]
  simp only [MergeState.getInner, getline_reading_nil]
  rfl

theorem innerRow_cons
    (hs : s.openInner = { s with block1 := .reading (.nameSalary s.bs) (b :: rows), chk2 := false })
    (ht : t = { s with
      buffer1 := b.line
      block1 := .reading (.nameSalary s.bs) rows
      temp1 := ⟨b.name, b.val⟩
      chk2 := false }) :
    s.innerRow = if s.temp0.name = b.name then t.join else { t with done := true } := by
  rw [MergeState.innerRow, hs]
  simp only [MergeState.getInner, getline_reading_cons, MergeState.parseInner]
  rw [NameSalary.setNameSalary, parse_line, ht]
  rfl

/-! ### The loops over the rows -/

/-- A cursor goes on as long as its rows are of a kind, over the ends of the blocks. -/
theorem cursorLoop {body : MergeState → MergeState} {num : MergeState → ℕ}
    {stop : MergeState → Bool} {p : Row → Bool} {I : List Row → List Row → MergeState → Prop}
    {F : List Row → Row → List Row → MergeState → Prop}
    (hI : ∀ seen rest s, I seen rest s →
      stop s = false ∧ num s ≤ blocks ∧ (num s = blocks → rest = []))
    (hF : ∀ seen r rest s, F seen r rest s → stop s = true)
    (hend : ∀ seen rest s, I seen rest s → num s < blocks →
      num (body s) = num s + 1 ∧ I seen rest (body s) ∨
        ∃ r rest', rest = r :: rest' ∧ num (body s) = num s ∧
          if p r then I (seen ++ [r]) rest' (body s) else F seen r rest' (body s))
    (h : I [] rest s) :
    Meets (whileDo (fun s => num s != blocks && !stop s) (fun s => pure (body s)) s) fun t =>
      (rest.dropWhile p = [] → I rest [] t ∧ num t = blocks) ∧
        ∀ r rest', rest.dropWhile p = r :: rest' → F (rest.takeWhile p) r rest' t := by
  -- what is left of the rows and of the blocks
  let J : ℕ → MergeState → Prop := fun k t =>
    (∃ seen rest', seen ++ rest' = rest ∧ (∀ r ∈ seen, p r = true) ∧ I seen rest' t ∧
      k = rest'.length + (blocks - num t)) ∨
    ∃ seen r rest', seen ++ r :: rest' = rest ∧ (∀ r ∈ seen, p r = true) ∧ p r = false ∧
      F seen r rest' t
  have hbody : ∀ k s, J k s → (num s != blocks && !stop s) = true →
      Meets (pure (body s) : Prog MergeState) fun t => ∃ j, j < k ∧ J j t := by
    intro k s hs hc
    rw [Bool.and_eq_true, bne_iff_ne] at hc
    refine meets_pure ?_
    rcases hs with ⟨seen, rest', hrest, hseen, hs, rfl⟩ | ⟨seen, r, rest', -, -, -, hs⟩
    · obtain ⟨-, hle, -⟩ := hI seen rest' s hs
      have hlt : num s < blocks := lt_of_le_of_ne hle hc.1
      rcases hend seen rest' s hs hlt with ⟨hnum, hs'⟩ | ⟨r, rest'', rfl, hnum, hs'⟩
      · exact ⟨_, by omega, .inl ⟨seen, rest', hrest, hseen, hs', rfl⟩⟩
      · refine ⟨rest''.length + (blocks - num (body s)), ?_, ?_⟩
        · rw [List.length_cons]
          omega
        · split at hs'
          · rename_i hr
            refine .inl ⟨seen ++ [r], rest'', ?_, ?_, hs', rfl⟩
            · rw [List.append_assoc]
              exact hrest
            · intro x hx
              rcases List.mem_append.1 hx with hx | hx
              · exact hseen x hx
              · rw [List.mem_singleton.1 hx]
                exact hr
          · rename_i hr
            exact .inr ⟨seen, r, rest'', hrest, hseen, Bool.not_eq_true _ ▸ hr, hs'⟩
    · rw [hF _ _ _ _ hs] at hc
      cases hc.2
  have hJ : J (rest.length + (blocks - num s)) s :=
    .inl ⟨[], rest, List.nil_append _, fun r hr => absurd hr List.not_mem_nil, h, rfl⟩
  refine (Meets.whileDo wellFounded_lt hbody hJ).mono fun t ht => ?_
  obtain ⟨hc, k, ht⟩ := ht
  rcases ht with ⟨seen, rest', hrest, hseen, ht, -⟩ | ⟨seen, r, rest', hrest, hseen, hr, ht⟩
  · obtain ⟨hstop, -, hnil⟩ := hI seen rest' t ht
    have hnum : num t = blocks := by
      by_contra hne
      rw [hstop, Bool.not_false, Bool.and_true, bne_eq_false_iff_eq] at hc
      exact hne hc
    obtain rfl := hnil hnum
    rw [List.append_nil] at hrest
    subst hrest
    have hdrop : seen.dropWhile p = [] := List.dropWhile_eq_nil_iff.2 hseen
    exact ⟨fun _ => ⟨ht, hnum⟩, fun r rest' h => by cases hdrop.symm.trans h⟩
  · subst hrest
    have hdrop : (seen ++ r :: rest').dropWhile p = r :: rest' := by
      rw [List.dropWhile_append_of_pos hseen, List.dropWhile_cons_of_neg (by simp [hr])]
    have htake : (seen ++ r :: rest').takeWhile p = seen := by
      rw [List.takeWhile_append_of_pos hseen, List.takeWhile_cons_of_neg (by simp [hr]),
        List.append_nil]
    refine ⟨fun h => (by cases hdrop.symm.trans h), fun r' rest'' h => ?_⟩
    cases hdrop.symm.trans h
    rw [htake]
    exact ht

theorem At.le {stream : FStream} {chk : Bool} (h : At f table rest stream n chk) :
    n ≤ blocks ∧ (n = blocks → rest = []) := by
  cases h with
  | next _ hle =>
    refine ⟨hle, ?_⟩
    rintro rfl
    exact since_blocks
  | reading _ hlt => exact ⟨hlt.le, fun h => absurd h hlt.ne⟩

/-- The lines of rows of `name_age` and one of `name_salary`. -/
def outerLines (b : Row) (rows : List Row) : List Str := rows.map fun a => joinLine a b

/-- The lines of a row of `name_age` and rows of `name_salary`. -/
def innerLines (a : NameAge) (rows : List Row) : List Str :=
  rows.map fun b => a.name ++ [comma] ++ a.age ++ [comma] ++ b.val

/-- What the loop over the rows of `name_age` leaves as it is. -/
structure OuterFrame (s t : MergeState) : Prop where
  files : t.files = s.files
  block1 : t.block1 = s.block1
  bs : t.bs = s.bs
  temp1 : t.temp1 = s.temp1

/-- What the loop over the rows of `name_salary` leaves as it is. -/
structure InnerFrame (s t : MergeState) : Prop where
  files : t.files = s.files
  block0 : t.block0 = s.block0
  br : t.br = s.br
  chk : t.chk = s.chk
  temp0 : t.temp0 = s.temp0

/-- The loop over the rows of `name_age` joins those with the name of `temp1`. -/
theorem outerRows_meets (hs : Stored age salary s.files)
    (hat : At .nameAge age rest s.block0 s.br s.chk) (hbr : s.br < blocks)
    (hb : s.temp1 = ⟨b.name, b.val⟩) :
    Meets (outerRows s) fun t => OuterFrame s t ∧
      (rest.dropWhile (fun a => a.name = b.name) = [] → t.br = blocks ∧ t.temp0.name = [] ∧
        At .nameAge age [] t.block0 t.br t.chk ∧
          t.output = s.output ++ text newline (outerLines b rest)) ∧
      ∀ a rest', rest.dropWhile (fun a => a.name = b.name) = a :: rest' →
        t.br < blocks ∧ t.temp0 = ⟨a.name, a.val⟩ ∧ At .nameAge age rest' t.block0 t.br t.chk ∧
          t.output = s.output ++
            text newline (outerLines b (rest.takeWhile fun a => a.name = b.name)) := by
  let I : List Row → List Row → MergeState → Prop := fun seen rest t => OuterFrame s t ∧
    t.done1 = false ∧ At .nameAge age rest t.block0 t.br t.chk ∧
    (t.br = blocks → t.temp0.name = []) ∧
    t.output = s.output ++ text newline (outerLines b seen)
  let F : List Row → Row → List Row → MergeState → Prop := fun seen a rest t => OuterFrame s t ∧
    t.done1 = true ∧ t.br < blocks ∧ t.temp0 = ⟨a.name, a.val⟩ ∧
    At .nameAge age rest t.block0 t.br t.chk ∧
    t.output = s.output ++ text newline (outerLines b seen)
  have hstep : ∀ seen rest t, I seen rest t → t.br < blocks →
      t.outerRow.br = t.br + 1 ∧ I seen rest t.outerRow ∨
        ∃ a rest', rest = a :: rest' ∧ t.outerRow.br = t.br ∧
          if decide (a.name = b.name) = true then I (seen ++ [a]) rest' t.outerRow
          else F seen a rest' t.outerRow := by
    rintro seen rest t ⟨hframe, hdone, hat, -, hout⟩ hlt
    obtain ⟨rows, rfl, hopen⟩ := openOuter_eq (hframe.files ▸ hs) hat hlt
    cases rows with
    | nil =>
      rw [outerRow_nil hopen]
      exact .inl ⟨rfl, ⟨hframe.files, hframe.block1, hframe.bs, hframe.temp1⟩, hdone,
        .next _ hlt, fun _ => rfl, hout⟩
    | cons a rows =>
      refine .inr ⟨a, _, rfl, ?_⟩
      have hb' : t.temp1 = ⟨b.name, b.val⟩ := hframe.temp1.trans hb
      rw [outerRow_cons hopen rfl]
      by_cases hname : a.name = b.name
      · rw [if_pos (by rw [hb']; exact hname), if_pos (decide_eq_true hname)]
        refine ⟨rfl, ⟨hframe.files, hframe.block1, hframe.bs, hframe.temp1⟩, hdone,
          .reading rows hlt, fun h => absurd h hlt.ne, ?_⟩
        change t.output ++ makeTuple a.name a.val t.temp1.salary = _
        rw [hout, hb', outerLines, outerLines, List.map_append, text_append, ← List.append_assoc,
          List.map_singleton, text_singleton]
        rfl
      · rw [if_neg (by rw [hb']; exact hname), if_neg (by simpa using hname)]
        exact ⟨rfl, ⟨hframe.files, hframe.block1, hframe.bs, hframe.temp1⟩, rfl, hlt, rfl,
          .reading rows hlt, hout⟩
  have hI : ∀ seen rest t, I seen rest t →
      t.done1 = false ∧ t.br ≤ blocks ∧ (t.br = blocks → rest = []) :=
    fun seen rest t ht => ⟨ht.2.1, ht.2.2.1.le⟩
  have hloop := cursorLoop (s := { s with done1 := false }) hI
    (fun seen r rest t ht => ht.2.1) hstep
    (by exact ⟨⟨rfl, rfl, rfl, rfl⟩, rfl, hat, fun h => absurd h hbr.ne, (List.append_nil _).symm⟩)
  refine hloop.mono fun t ht => ?_
  cases hdrop : rest.dropWhile fun a => a.name = b.name with
  | nil =>
    obtain ⟨⟨hframe, -, hat, hname, hout⟩, hnum⟩ := ht.1 hdrop
    exact ⟨hframe, fun _ => ⟨hnum, hname hnum, hat, hout⟩, nofun⟩
  | cons a rest' =>
    obtain ⟨hframe, -, hlt, htemp, hat, hout⟩ := ht.2 a rest' hdrop
    refine ⟨hframe, nofun, fun a' rest'' h => ?_⟩
    cases h
    exact ⟨hlt, htemp, hat, hout⟩

/-- The loop over the rows of `name_salary` joins those with the name of `temp0`. -/
theorem innerRows_meets (hs : Stored age salary s.files)
    (hat : At .nameSalary salary rest s.block1 s.bs false) :
    Meets (innerRows s) fun t => InnerFrame s t ∧
      (rest.dropWhile (fun b => s.temp0.name = b.name) = [] → t.bs = blocks ∧
        t.output = s.output ++ text newline (innerLines s.temp0 rest)) ∧
      ∀ b rest', rest.dropWhile (fun b => s.temp0.name = b.name) = b :: rest' →
        t.bs < blocks ∧ t.temp1 = ⟨b.name, b.val⟩ ∧
          At .nameSalary salary rest' t.block1 t.bs false ∧
          t.output = s.output ++
            text newline (innerLines s.temp0 (rest.takeWhile fun b => s.temp0.name = b.name)) := by
  let I : List Row → List Row → MergeState → Prop := fun seen rest t => InnerFrame s t ∧
    t.done = false ∧ At .nameSalary salary rest t.block1 t.bs t.chk2 ∧
    t.output = s.output ++ text newline (innerLines s.temp0 seen)
  let F : List Row → Row → List Row → MergeState → Prop := fun seen b rest t => InnerFrame s t ∧
    t.done = true ∧ t.bs < blocks ∧ t.temp1 = ⟨b.name, b.val⟩ ∧
    At .nameSalary salary rest t.block1 t.bs false ∧
    t.output = s.output ++ text newline (innerLines s.temp0 seen)
  have hstep : ∀ seen rest t, I seen rest t → t.bs < blocks →
      t.innerRow.bs = t.bs + 1 ∧ I seen rest t.innerRow ∨
        ∃ b rest', rest = b :: rest' ∧ t.innerRow.bs = t.bs ∧
          if decide (s.temp0.name = b.name) = true then I (seen ++ [b]) rest' t.innerRow
          else F seen b rest' t.innerRow := by
    rintro seen rest t ⟨hframe, hdone, hat, hout⟩ hlt
    obtain ⟨rows, rfl, hopen⟩ := openInner_eq (hframe.files ▸ hs) hat hlt
    cases rows with
    | nil =>
      rw [innerRow_nil hopen]
      exact .inl ⟨rfl, ⟨hframe.files, hframe.block0, hframe.br, hframe.chk, hframe.temp0⟩, hdone,
        .next _ hlt, hout⟩
    | cons b rows =>
      refine .inr ⟨b, _, rfl, ?_⟩
      rw [innerRow_cons hopen rfl]
      by_cases hname : s.temp0.name = b.name
      · rw [if_pos (by rw [hframe.temp0]; exact hname), if_pos (decide_eq_true hname)]
        refine ⟨rfl, ⟨hframe.files, hframe.block0, hframe.br, hframe.chk, hframe.temp0⟩, hdone,
          .reading rows hlt, ?_⟩
        change t.output ++ makeTuple t.temp0.name t.temp0.age b.val = _
        rw [hout, hframe.temp0, innerLines, innerLines, List.map_append, text_append,
          ← List.append_assoc, List.map_singleton, text_singleton]
        rfl
      · rw [if_neg (by rw [hframe.temp0]; exact hname), if_neg (by simpa using hname)]
        exact ⟨rfl, ⟨hframe.files, hframe.block0, hframe.br, hframe.chk, hframe.temp0⟩, rfl, hlt,
          rfl, .reading rows hlt, hout⟩
  have hI : ∀ seen rest t, I seen rest t →
      t.done = false ∧ t.bs ≤ blocks ∧ (t.bs = blocks → rest = []) :=
    fun seen rest t ht => ⟨ht.2.1, ht.2.2.1.le⟩
  have hloop := cursorLoop (s := { s with done := false, chk2 := false }) hI
    (fun seen r rest t ht => ht.2.1) hstep
    (by exact ⟨⟨rfl, rfl, rfl, rfl, rfl⟩, rfl, hat, (List.append_nil _).symm⟩)
  refine hloop.mono fun t ht => ?_
  cases hdrop : rest.dropWhile fun b => s.temp0.name = b.name with
  | nil =>
    obtain ⟨⟨hframe, -, -, hout⟩, hnum⟩ := ht.1 hdrop
    exact ⟨hframe, fun _ => ⟨hnum, hout⟩, nofun⟩
  | cons b rest' =>
    obtain ⟨hframe, -, hlt, htemp, hat, hout⟩ := ht.2 b rest' hdrop
    refine ⟨hframe, nofun, fun b' rest'' h => ?_⟩
    cases h
    exact ⟨hlt, htemp, hat, hout⟩

/-! ### The whole program -/

/-- The lines that are written, by whose turn it is: that of `name_age` (`true`), whose cursor goes
on until its row has another name than the row of the other one, or that of `name_salary`. -/
def scan : Bool → List Row → List Row → List Str
  | _, [], _ => []
  | _, _ :: _, [] => []
  | true, a :: R, b :: S =>
    if a.name = b.name then joinLine a b :: scan true R (b :: S) else scan false (a :: R) S
  | false, a :: R, b :: S =>
    if a.name = b.name then joinLine a b :: scan false (a :: R) S else scan true R (b :: S)
termination_by _ R S => R.length + S.length

variable {R S : List Row}

theorem scan_nil (turn : Bool) (R : List Row) : scan turn R [] = [] := by
  cases R <;> rw [scan]

/-- A turn of `name_age`. -/
theorem scan_true (R : List Row) : scan true R (b :: S) =
    outerLines b (R.takeWhile fun a => a.name = b.name) ++
      scan false (R.dropWhile fun a => a.name = b.name) S := by
  induction R with
  | nil =>
    rw [scan, List.takeWhile_nil, List.dropWhile_nil, scan]
    rfl
  | cons a R ih =>
    rw [scan]
    by_cases h : a.name = b.name
    · rw [if_pos h, List.takeWhile_cons_of_pos (by simpa using h),
        List.dropWhile_cons_of_pos (by simpa using h), ih]
      rfl
    · rw [if_neg h, List.takeWhile_cons_of_neg (by simpa using h),
        List.dropWhile_cons_of_neg (by simpa using h)]
      rfl

/-- A turn of `name_salary`. -/
theorem scan_false (S : List Row) : scan false (a :: R) S =
    innerLines ⟨a.name, a.val⟩ (S.takeWhile fun b => a.name = b.name) ++
      scan true R (S.dropWhile fun b => a.name = b.name) := by
  induction S with
  | nil =>
    rw [scan, List.takeWhile_nil, List.dropWhile_nil, scan_nil]
    rfl
  | cons b S ih =>
    rw [scan]
    by_cases h : a.name = b.name
    · rw [if_pos h, List.takeWhile_cons_of_pos (by simpa using h),
        List.dropWhile_cons_of_pos (by simpa using h), ih]
      rfl
    · rw [if_neg h, List.takeWhile_cons_of_neg (by simpa using h),
        List.dropWhile_cons_of_neg (by simpa using h)]
      rfl

/-- Between two rounds: one row of `name_salary` has been read, and it is the turn of
`name_age`. -/
structure Between (age salary : Table) (total : Str) (R : List Row) (b : Row) (S : List Row)
    (s : MergeState) : Prop where
  stored : Stored age salary s.files
  outer : At .nameAge age R s.block0 s.br s.chk
  inner : At .nameSalary salary S s.block1 s.bs false
  lt : s.bs < blocks
  temp1 : s.temp1 = ⟨b.name, b.val⟩
  named : ∀ x ∈ S, x.name ≠ []
  output : s.output ++ text newline (scan true R (b :: S)) = total

variable {total : Str}

/-- A round of both cursors. -/
theorem Between.round (h : Between age salary total R b S s) (hbr : s.br < blocks) :
    Meets (outerRows s >>= innerRows) fun t => t.output = total ∧ t.bs = blocks ∨
      ∃ R' b' S', Between age salary total R' b' S' t ∧ S'.length < S.length := by
  refine (outerRows_meets h.stored h.outer hbr h.temp1).bind fun t ht => ?_
  obtain ⟨hframe, hend, hturn⟩ := ht
  have hinner : At .nameSalary salary S t.block1 t.bs false := by
    rw [hframe.block1, hframe.bs]
    exact h.inner
  have hstored : Stored age salary t.files := hframe.files ▸ h.stored
  have houtput := h.output
  rw [scan_true, text_append, ← List.append_assoc] at houtput
  refine (innerRows_meets hstored hinner).mono fun u hu => ?_
  obtain ⟨hframe', hend', hturn'⟩ := hu
  have hstored' : Stored age salary u.files := hframe'.files ▸ hstored
  -- the cursor in `name_age` stays where the first loop has left it
  have houter : ∀ rest, At .nameAge age rest t.block0 t.br t.chk →
      At .nameAge age rest u.block0 u.br u.chk := by
    intro rest hat
    rw [hframe'.block0, hframe'.br, hframe'.chk]
    exact hat
  cases hdrop : R.dropWhile fun a => a.name = b.name with
  | nil =>
    -- there are no rows of `name_age` any more, and the empty name is not that of a row
    obtain ⟨-, hname, hat, hout⟩ := hend hdrop
    rw [hdrop, scan, List.takeWhile_eq_self_iff.2 (List.dropWhile_eq_nil_iff.1 hdrop), ← hout,
      text, List.flatMap_nil, List.append_nil] at houtput
    rw [hname] at hend' hturn'
    cases S with
    | nil =>
      obtain ⟨hbs, hout'⟩ := hend' rfl
      refine .inl ⟨?_, hbs⟩
      rw [hout', innerLines, List.map_nil, text, List.flatMap_nil, List.append_nil]
      exact houtput
    | cons b' S =>
      have hne : ([] : Str) ≠ b'.name := (h.named b' List.mem_cons_self).symm
      obtain ⟨hbs, htemp, hat', hout'⟩ := hturn' b' S
        (List.dropWhile_cons_of_neg (by simpa using hne))
      rw [List.takeWhile_cons_of_neg (by simpa using hne), innerLines, List.map_nil, text,
        List.flatMap_nil, List.append_nil] at hout'
      refine .inr ⟨[], b', S, ⟨hstored', houter _ hat, hat', hbs, htemp,
        fun x hx => h.named x (List.mem_cons_of_mem _ hx), ?_⟩, Nat.lt_succ_self _⟩
      rw [hout', scan, text, List.flatMap_nil, List.append_nil]
      exact houtput
  | cons a R' =>
    obtain ⟨-, htemp, hat, hout⟩ := hturn a R' hdrop
    rw [hdrop, ← hout, scan_false, text_append, ← List.append_assoc] at houtput
    rw [htemp] at hend' hturn'
    cases hdrop' : S.dropWhile fun b => a.name = b.name with
    | nil =>
      obtain ⟨hbs, hout'⟩ := hend' hdrop'
      refine .inl ⟨?_, hbs⟩
      rw [hdrop', scan_nil, List.takeWhile_eq_self_iff.2 (List.dropWhile_eq_nil_iff.1 hdrop'),
        ← hout', text, List.flatMap_nil, List.append_nil] at houtput
      exact houtput
    | cons b' S' =>
      obtain ⟨hbs, htemp', hat', hout'⟩ := hturn' b' S' hdrop'
      have hsuffix : b' :: S' <:+ S := hdrop' ▸ List.dropWhile_suffix _
      rw [hdrop', ← hout'] at houtput
      exact .inr ⟨R', b', S', ⟨hstored', houter _ hat, hat', hbs, htemp', fun x hx =>
        h.named x (hsuffix.subset (List.mem_cons_of_mem _ hx)), houtput⟩, hsuffix.length_le⟩

/-- The program completes, and writes the lines of the rows that the cursors find to have a
common name. -/
theorem mergeJoin_meets {files : Files} (hs : Stored age salary files) (hfirst : salary 0 ≠ [])
    (hnamed : ∀ r ∈ salary.rows.tail, r.name ≠ []) :
    Meets (mergeJoin files) fun s =>
      s.output = text newline (scan true age.rows salary.rows) := by
  set total := text newline (scan true age.rows salary.rows)
  let J : ℕ → MergeState → Prop := fun k s =>
    (s.output = total ∧ s.bs = blocks) ∨
      ∃ R b S, Between age salary total R b S s ∧ k = S.length + 1
  have hbody : ∀ k s, J k s → (s.br != blocks && s.bs != blocks) = true →
      Meets (outerRows s >>= innerRows) fun t => ∃ j, j < k ∧ J j t := by
    intro k s hs hc
    rw [Bool.and_eq_true, bne_iff_ne, bne_iff_ne] at hc
    rcases hs with hs | ⟨R, b, S, hs, rfl⟩
    · exact absurd hs.2 hc.2
    · refine (hs.round (lt_of_le_of_ne hs.outer.le.1 hc.1)).mono fun t ht => ?_
      rcases ht with ht | ⟨R', b', S', ht, hlt⟩
      · exact ⟨0, Nat.succ_pos _, .inl ht⟩
      · exact ⟨S'.length + 1, Nat.succ_lt_succ hlt, .inr ⟨R', b', S', ht, rfl⟩⟩
  obtain ⟨b, rows, hrows⟩ := List.exists_cons_of_ne_nil hfirst
  have hsalary : salary.rows = b :: (rows ++ salary.since 1) := by
    rw [← since_zero, since_lt (by decide), hrows]
    rfl
  have hopen : FStream.init.openIn files (.nameSalary 0) =
      .reading (.nameSalary 0) (b :: rows) := by
    rw [FStream.openIn, hs.salary 0 (by decide), hrows]
    rfl
  unfold mergeJoin
  dsimp only
  rw [hopen, MergeState.getInner, MergeState.parseInner]
  simp only [getline_reading_cons, NameSalary.setNameSalary, parse_line]
  refine (Meets.whileDo wellFounded_lt hbody (.inr ⟨age.rows, b, rows ++ salary.since 1, ⟨hs,
    since_zero ▸ .next _ (Nat.zero_le _), .reading rows (Nat.succ_pos _), Nat.succ_pos _, rfl, ?_, ?_⟩,
    rfl⟩)).mono fun t ht => ?_
  · rw [hsalary] at hnamed
    exact hnamed
  · rw [List.nil_append, ← hsalary]
  · obtain ⟨hc, k, ht⟩ := ht
    rcases ht with ht | ⟨R, b, S, ht, -⟩
    · exact ht.1
    · have hbr : t.br = blocks := by
        by_contra hne
        rw [Bool.and_eq_false_iff, bne_eq_false_iff_eq, bne_eq_false_iff_eq] at hc
        exact hc.elim hne ht.lt.ne
      have houtput := ht.output
      rw [ht.outer.le.2 hbr, scan, text, List.flatMap_nil, List.append_nil] at houtput
      exact houtput

/-! ### Where the cursors meet -/

/-- The lines of the join, in the order of `name_age`. -/
def joinLines (R S : List Row) : List Str :=
  R.filterMap fun a => (S.find? fun b => b.name = a.name).map (joinLine a)

/-- By how much each common name is further down `name_salary` than `name_age`, when the rows of
`name_age` are counted from `i` on. -/
def skewsFrom (i : ℤ) : List Row → List Row → List ℤ
  | [], _ => []
  | a :: R, S =>
    match S.findIdx? fun b => b.name = a.name with
    | some j => (j - i) :: skewsFrom (i + 1) R S
    | none => skewsFrom (i + 1) R S

/-- By how much each common name is further down `name_salary` than `name_age`. -/
def skews (R S : List Row) : List ℤ := skewsFrom 0 R S

/-- The skews of the common names after the first `n`, when that of the last one is `d`: the
next one is the same, or off by one to the side that is the next to move. -/
def Aligned : ℕ → ℤ → List ℤ → Prop
  | _, _, [] => True
  | n, d, e :: l => (e = d ∨ e = if Even (n + d) then d + 1 else d - 1) ∧ Aligned (n + 1) e l

/-- Being aligned can be computed. -/
instance decidableAligned : ∀ n d l, Decidable (Aligned n d l)
  | _, _, [] => .isTrue trivial
  | n, d, e :: l =>
    have := decidableAligned (n + 1) e l
    inferInstanceAs
      (Decidable ((e = d ∨ e = if Even ((n : ℤ) + d) then d + 1 else d - 1) ∧ Aligned (n + 1) e l))

variable {turn : Bool} {i d : ℤ} {l : List ℤ} {m n : ℕ}

theorem skewsFrom_add (i c : ℤ) (R S : List Row) :
    skewsFrom (i + c) R S = (skewsFrom i R S).map (· - c) := by
  induction R generalizing i with
  | nil => rfl
  | cons a R ih =>
    have h := ih (i + 1)
    rw [add_right_comm] at h
    rw [skewsFrom, skewsFrom, h]
    cases S.findIdx? fun b => b.name = a.name with
    | none => rfl
    | some j =>
      dsimp only [List.map_cons]
      rw [sub_add_eq_sub_sub]
      rfl

/-- A row of `name_age` with a name of its own. -/
theorem skews_cons_left (h : ∀ b ∈ S, b.name ≠ a.name) :
    skews (a :: R) S = (skews R S).map (· - 1) := by
  have hnone : (S.findIdx? fun b => b.name = a.name) = none :=
    List.findIdx?_eq_none_iff.2 fun b hb => by simpa using h b hb
  rw [skews, skewsFrom, hnone, skewsFrom_add]
  rfl

/-- A row of `name_salary` with a name of its own. -/
theorem skews_cons_right (h : ∀ a ∈ R, a.name ≠ b.name) :
    skews R (b :: S) = (skews R S).map (· + 1) := by
  rw [skews, skews]
  generalize (0 : ℤ) = i
  induction R generalizing i with
  | nil => rfl
  | cons a R ih =>
    have hne : b.name ≠ a.name := (h a List.mem_cons_self).symm
    rw [skewsFrom, skewsFrom, List.findIdx?_cons, if_neg (by simpa using hne),
      ih fun x hx => h x (List.mem_cons_of_mem _ hx)]
    cases S.findIdx? fun b => b.name = a.name with
    | none => rfl
    | some j =>
      dsimp only [Option.map_some, List.map_cons]
      rw [Nat.cast_succ, add_sub_right_comm]
      rfl

theorem skews_cons_cons (hab : a.name = b.name) (h : ∀ x ∈ R, x.name ≠ b.name) :
    skews (a :: R) (b :: S) = 0 :: skews R S := by
  have hshift := skews_cons_right (S := S) h
  rw [skews] at hshift
  have hid : ((fun x : ℤ => x - 1) ∘ fun x => x + 1) = id :=
    funext fun x => add_sub_cancel_right x 1
  rw [skews, skewsFrom, List.findIdx?_cons, if_pos (by simpa using hab.symm), skewsFrom_add, hshift,
    List.map_map, hid, List.map_id]
  rfl

/-- A shift of all the skews, with the parity kept. -/
theorem aligned_map (c : ℤ) (h : Even ((m : ℤ) + c - n)) :
    Aligned m (d + c) (l.map (· + c)) ↔ Aligned n d l := by
  induction l generalizing m n d with
  | nil => rfl
  | cons e l ih =>
    have hparity : Even ((m : ℤ) + (d + c)) ↔ Even (n + d) := by
      have hsum : (m : ℤ) + (d + c) = m + c - n + (n + d) := by ring
      rw [hsum, Int.even_add, iff_true_left h]
    have htail := ih (m := m + 1) (n := n + 1) (d := e) (by push_cast; ring_nf at h ⊢; exact h)
    rw [List.map_cons, Aligned, Aligned, htail]
    refine and_congr_left fun _ => ?_
    by_cases he : Even ((n : ℤ) + d)
    · rw [if_pos (hparity.2 he), if_pos he]
      omega
    · rw [if_neg (mt hparity.1 he), if_neg he]
      omega

theorem aligned_add_two : Aligned (n + 2) d l ↔ Aligned n d l := by
  have h := aligned_map (m := n + 2) (n := n) (d := d) (l := l) 0 (by
    push_cast
    exact ⟨1, by ring⟩)
  have hid : l.map (· + 0) = l := by simp
  rwa [add_zero, hid] at h

theorem aligned_zero_map : Aligned 0 0 (l.map (· + 1)) ↔ Aligned 1 0 l := by
  cases l with
  | nil => rfl
  | cons e l =>
    rw [List.map_cons, Aligned, Aligned, if_pos (by decide), if_neg (by decide),
      aligned_map 1 (n := 2) (by decide)]
    refine and_congr_left fun _ => ?_
    omega

theorem aligned_one_map : Aligned 1 0 (l.map (· - 1)) ↔ Aligned 0 0 l := by
  cases l with
  | nil => rfl
  | cons e l =>
    have hmap := aligned_map (m := 2) (d := e) (l := l) (-1) (n := 1) (by decide)
    rw [List.map_cons, Aligned, Aligned, if_neg (by decide), if_pos (by decide)]
    refine and_congr ?_ hmap
    omega

/-- The name can be read off a line. -/
theorem name_joinLine (a b : Row) : (joinLine a b).takeWhile (· ≠ comma) = a.name := by
  have hname : ∀ c ∈ a.name, decide (c ≠ comma) = true := fun c hc =>
    decide_eq_true fun h => a.comma_name (h ▸ hc)
  rw [joinLine, List.append_assoc, List.append_assoc, List.append_assoc,
    List.takeWhile_append_of_pos hname]
  exact List.append_nil _

/-- The lines that are written are lines of the join. -/
theorem mem_scan {x : Str} (h : x ∈ scan turn R S) :
    ∃ a ∈ R, ∃ b ∈ S, a.name = b.name ∧ x = joinLine a b := by
  induction turn, R, S using scan.induct with
  | case1 =>
    rw [scan] at h
    cases h
  | case2 =>
    rw [scan_nil] at h
    cases h
  | case3 a R b S hab ih =>
    rw [scan, if_pos hab] at h
    rcases List.mem_cons.1 h with rfl | h
    · exact ⟨a, List.mem_cons_self, b, List.mem_cons_self, hab, rfl⟩
    · obtain ⟨a', ha', hx⟩ := ih h
      exact ⟨a', List.mem_cons_of_mem _ ha', hx⟩
  | case4 a R b S hab ih =>
    rw [scan, if_neg hab] at h
    obtain ⟨a', ha', b', hb', hx⟩ := ih h
    exact ⟨a', ha', b', List.mem_cons_of_mem _ hb', hx⟩
  | case5 a R b S hab ih =>
    rw [scan, if_pos hab] at h
    rcases List.mem_cons.1 h with rfl | h
    · exact ⟨a, List.mem_cons_self, b, List.mem_cons_self, hab, rfl⟩
    · obtain ⟨a', ha', b', hb', hx⟩ := ih h
      exact ⟨a', ha', b', List.mem_cons_of_mem _ hb', hx⟩
  | case6 a R b S hab ih =>
    rw [scan, if_neg hab] at h
    obtain ⟨a', ha', hx⟩ := ih h
    exact ⟨a', List.mem_cons_of_mem _ ha', hx⟩

/-- The names go up. -/
def Increasing (rows : List Row) : Prop := rows.Pairwise fun a b => a.name < b.name

theorem Increasing.ne_of_mem (h : Increasing (r :: rows)) {x : Row} (hx : x ∈ rows) :
    x.name ≠ r.name := by
  intro heq
  have hlt := List.rel_of_pairwise_cons h hx
  exact List.lt_irrefl _ (heq ▸ hlt)

/-- A line of the join that is not written. -/
theorem scan_ne {ls : List Str} (hx : joinLine a b ∈ ls)
    (h : ∀ x ∈ R, ∀ y ∈ S, x.name = y.name → x.name ≠ a.name) : scan turn R S ≠ ls := by
  rintro rfl
  obtain ⟨x, hR, y, hS, hxy, hline⟩ := mem_scan hx
  have hname := congrArg (List.takeWhile (· ≠ comma)) hline
  rw [name_joinLine, name_joinLine] at hname
  exact h x hR y hS hxy hname.symm

theorem joinLines_cons_left (h : ∀ b ∈ S, b.name ≠ a.name) :
    joinLines (a :: R) S = joinLines R S := by
  have hnone : (S.find? fun b => b.name = a.name) = none :=
    List.find?_eq_none.2 fun b hb => by simpa using h b hb
  rw [joinLines, List.filterMap_cons, hnone]
  rfl

theorem joinLines_cons_right (h : ∀ a ∈ R, a.name ≠ b.name) :
    joinLines R (b :: S) = joinLines R S :=
  List.filterMap_congr fun a ha => by
    rw [List.find?_cons_of_neg (by simpa using (h a ha).symm)]

theorem joinLines_cons_cons (hab : a.name = b.name) :
    joinLines (a :: R) (b :: S) = joinLine a b :: joinLines R (b :: S) := by
  rw [joinLines, List.filterMap_cons, List.find?_cons_of_pos (by simpa using hab.symm)]
  rfl

theorem mem_joinLines (ha : a ∈ R) (hb : b ∈ S) (hab : b.name = a.name) :
    ∃ y, joinLine a y ∈ joinLines R S := by
  have hsome : (S.find? fun b => b.name = a.name).isSome :=
    List.find?_isSome.2 ⟨b, hb, decide_eq_true hab⟩
  obtain ⟨y, hy⟩ := Option.isSome_iff_exists.1 hsome
  refine ⟨y, List.mem_filterMap.2 ⟨a, ha, ?_⟩⟩
  rw [hy]
  rfl

/-- A common name that comes first in `name_salary` has a negative skew. -/
theorem skewsFrom_of_mem (hR : Increasing R) (hS : Increasing (b :: S)) (ha : a ∈ R)
    (hab : a.name = b.name) : ∃ e l, skewsFrom i R (b :: S) = e :: l ∧ e ≤ -i := by
  induction R generalizing i with
  | nil => cases ha
  | cons x R ih =>
    rw [skewsFrom]
    by_cases hx : b.name = x.name
    · rw [List.findIdx?_cons, if_pos (by simpa using hx)]
      exact ⟨_, _, rfl, by simp⟩
    · have hmem : a ∈ R := (List.mem_cons.1 ha).resolve_left fun h => hx (h ▸ hab.symm)
      have hlt : x.name < b.name := hab ▸ List.rel_of_pairwise_cons hR hmem
      have hnone : ((b :: S).findIdx? fun b => b.name = x.name) = none := by
        refine List.findIdx?_eq_none_iff.2 fun y hy => ?_
        rcases List.mem_cons.1 hy with rfl | hy
        · simpa using hx
        · have hy' := List.lt_trans hlt (List.rel_of_pairwise_cons hS hy)
          simpa using fun h => List.lt_irrefl _ (h ▸ hy')
      rw [hnone]
      obtain ⟨e, l, he, hle⟩ := ih (i := i + 1) hR.of_cons hmem
      exact ⟨e, l, he, by omega⟩

theorem skews_nil (R : List Row) : skews R [] = [] := by
  induction R with
  | nil => rfl
  | cons a R ih =>
    rw [skews_cons_left fun b hb => absurd hb List.not_mem_nil, ih, List.map_nil]

theorem joinLines_nil (R : List Row) : joinLines R [] = [] := by
  induction R with
  | nil => rfl
  | cons a R ih => rw [joinLines_cons_left fun b hb => absurd hb List.not_mem_nil, ih]

/-- The rows differ, and it is the turn of `name_age`, but the row of `name_salary` has a partner
that is still to come. -/
theorem scan_true_missed (hR : Increasing (a :: R)) (hS : Increasing (b :: S))
    (hab : a.name ≠ b.name) {x : Row} (hx : x ∈ R) (hxb : x.name = b.name) :
    scan false (a :: R) S ≠ joinLines (a :: R) (b :: S) ∧
      ¬Aligned 0 0 (skews (a :: R) (b :: S)) := by
  obtain ⟨y, hy⟩ := mem_joinLines (List.mem_cons_of_mem a hx) (List.mem_cons_self (l := S)) hxb.symm
  refine ⟨scan_ne hy fun x' _ y hy hxy h => ?_, ?_⟩
  · exact hS.ne_of_mem hy (hxy.symm.trans (h.trans hxb))
  · have hlt : a.name < b.name := hxb ▸ List.rel_of_pairwise_cons hR hx
    have hown : ∀ y ∈ b :: S, y.name ≠ a.name := by
      intro y hy h
      rcases List.mem_cons.1 hy with rfl | hy
      · exact hab h.symm
      · have hlt' := List.lt_trans hlt (List.rel_of_pairwise_cons hS hy)
        exact List.lt_irrefl _ (h ▸ hlt')
    obtain ⟨e, l, he, hle⟩ := skewsFrom_of_mem (i := 0) hR.of_cons hS hx hxb
    rw [skews_cons_left hown, skews, he, List.map_cons, Aligned, if_pos (by decide)]
    rintro ⟨h, -⟩
    omega

/-- The rows differ, and it is the turn of `name_salary`, but the row of `name_age` has a partner
that is still to come. -/
theorem scan_false_missed (hR : Increasing (a :: R)) (hab : a.name ≠ b.name) {y : Row} (hy : y ∈ S)
    (hya : y.name = a.name) :
    scan true R (b :: S) ≠ joinLines (a :: R) (b :: S) ∧
      ¬Aligned 1 0 (skews (a :: R) (b :: S)) := by
  obtain ⟨z, hz⟩ := mem_joinLines (List.mem_cons_self (l := R)) (List.mem_cons_of_mem b hy) hya
  refine ⟨scan_ne hz fun x hx _ _ _ h => hR.ne_of_mem hx h, ?_⟩
  have hsome : (S.findIdx? fun b => b.name = a.name).isSome :=
    List.findIdx?_isSome.trans (List.any_eq_true.2 ⟨y, hy, decide_eq_true hya⟩)
  obtain ⟨j, hj⟩ := Option.isSome_iff_exists.1 hsome
  rw [skews, skewsFrom, List.findIdx?_cons, if_neg (by simpa using hab.symm), hj]
  dsimp only [Option.map_some]
  rw [Aligned, if_neg (by decide)]
  rintro ⟨h, -⟩
  omega

/-- Whether the lines of the join are written, by whose turn it is. -/
theorem scan_eq_iff (hR : Increasing R) (hS : Increasing S) :
    scan turn R S = joinLines R S ↔ Aligned (if turn then 0 else 1) 0 (skews R S) := by
  induction turn, R, S using scan.induct with
  | case1 turn S => exact iff_of_true (by rw [scan]; rfl) trivial
  | case2 turn a R =>
    rw [scan_nil, skews_nil, joinLines_nil]
    exact iff_of_true rfl trivial
  | case3 a R b S hab ih =>
    have hne : ∀ x ∈ R, x.name ≠ b.name := fun x hx => hab ▸ hR.ne_of_mem hx
    have ih := ih hR.of_cons hS
    rw [if_pos rfl, skews_cons_right hne, aligned_zero_map] at ih
    rw [scan, if_pos hab, joinLines_cons_cons hab, List.cons_inj_right, ih, if_pos rfl,
      skews_cons_cons hab hne, Aligned, and_iff_right (.inl rfl)]
  | case4 a R b S hab ih =>
    rw [scan, if_neg hab]
    by_cases hmem : ∃ x ∈ R, x.name = b.name
    · obtain ⟨x, hx, hxb⟩ := hmem
      obtain ⟨hlines, hskews⟩ := scan_true_missed hR hS hab hx hxb
      exact iff_of_false hlines hskews
    · have hne : ∀ x ∈ a :: R, x.name ≠ b.name := by
        intro x hx h
        rcases List.mem_cons.1 hx with rfl | hx
        · exact hab h
        · exact hmem ⟨x, hx, h⟩
      have ih := ih hR hS.of_cons
      rw [if_neg Bool.false_ne_true] at ih
      rw [joinLines_cons_right hne, skews_cons_right hne, if_pos rfl, aligned_zero_map, ih]
  | case5 a R b S hab ih =>
    have hne : ∀ x ∈ R, x.name ≠ b.name := fun x hx => hab ▸ hR.ne_of_mem hx
    have hne' : ∀ y ∈ S, y.name ≠ a.name := fun y hy => hab ▸ hS.ne_of_mem hy
    have ih := ih hR hS.of_cons
    rw [if_neg Bool.false_ne_true, joinLines_cons_left hne', skews_cons_left hne',
      aligned_one_map] at ih
    rw [scan, if_pos hab, joinLines_cons_cons hab, List.cons_inj_right, joinLines_cons_right hne, ih,
      if_neg Bool.false_ne_true, skews_cons_cons hab hne, Aligned, and_iff_right (.inl rfl)]
    exact aligned_add_two.symm
  | case6 a R b S hab ih =>
    rw [scan, if_neg hab]
    by_cases hmem : ∃ y ∈ S, y.name = a.name
    · obtain ⟨y, hy, hya⟩ := hmem
      obtain ⟨hlines, hskews⟩ := scan_false_missed hR hab hy hya
      exact iff_of_false hlines hskews
    · have hne : ∀ y ∈ b :: S, y.name ≠ a.name := by
        intro y hy h
        rcases List.mem_cons.1 hy with rfl | hy
        · exact hab h.symm
        · exact hmem ⟨y, hy, h⟩
      have ih := ih hR.of_cons hS
      rw [if_pos rfl] at ih
      rw [joinLines_cons_left hne, skews_cons_left hne, if_neg Bool.false_ne_true, aligned_one_map,
        ih]

/-- For tables that are sorted by name, the lines of the join are written if and only if the
common names are aligned. -/
theorem merge_join_iff {files : Files} (hs : Stored age salary files) (hfirst : salary 0 ≠ [])
    (hage : Increasing age.rows) (hsalary : Increasing salary.rows) :
    Meets (mergeJoin files) fun s =>
      (lines newline s.output = joinLines age.rows salary.rows ↔
        Aligned 0 0 (skews age.rows salary.rows)) := by
  have hnamed : ∀ r ∈ salary.rows.tail, r.name ≠ [] := by
    intro r hr h
    cases hrows : salary.rows with
    | nil =>
      rw [hrows] at hr
      cases hr
    | cons b rows =>
      rw [hrows] at hr hsalary
      exact List.not_lt_nil _ (h ▸ List.rel_of_pairwise_cons hsalary hr)
  refine (mergeJoin_meets hs hfirst hnamed).mono fun s hout => ?_
  have hlines : ∀ l ∈ scan true age.rows salary.rows, newline ∉ l := by
    intro l hl
    obtain ⟨a, -, b, -, -, rfl⟩ := mem_scan hl
    exact newline_joinLine a b
  rw [hout, lines_text hlines]
  exact scan_eq_iff hage hsalary

/-- A table with rows in its first block only. -/
def Table.first (rows : List Row) : Table := fun i => if i = 0 then rows else []

theorem rows_first (rows : List Row) : (Table.first rows).rows = rows := by
  have hrest : (Table.first rows).since 1 = [] := by
    refine List.flatMap_eq_nil_iff.2 fun i hi => ?_
    rw [List.mem_range'_1] at hi
    exact if_neg (by omega)
  rw [← since_zero, since_lt (Nat.succ_pos _), hrest, List.append_nil]
  rfl

theorem newline_not_mem_letter {c : UInt8} (h : newline ≠ c) : newline ∉ [c] := by simpa using h

theorem comma_not_mem_letter {c : UInt8} (h : comma ≠ c) : comma ∉ [c] := by simpa using h

/-- A row whose fields are a letter. -/
def letterRow (c : UInt8) (hcomma : comma ≠ c) (hnewline : newline ≠ c) : Row where
  name := [c]
  val := [c]
  comma_name := comma_not_mem_letter hcomma
  newline_name := newline_not_mem_letter hnewline
  newline_val := newline_not_mem_letter hnewline

/-- The row of the name `a`. -/
def rowA : Row := letterRow 97 (by decide) (by decide)

/-- The row of the name `b`. -/
def rowB : Row := letterRow 98 (by decide) (by decide)

theorem increasing_pair : Increasing [rowA, rowB] :=
  List.pairwise_pair.2 (by decide +kernel)

/-- The names `a` and `b` are in the one table, and `b` is in the other. -/
theorem merge_join_pair :
    Meets (mergeJoin (Table.files (Table.first [rowA, rowB]) (Table.first [rowB]))) fun s =>
      (lines newline s.output =
          joinLines (Table.first [rowA, rowB]).rows (Table.first [rowB]).rows ↔
        Aligned 0 0 (skews (Table.first [rowA, rowB]).rows (Table.first [rowB]).rows)) :=
  merge_join_iff (stored_files _ _) (List.cons_ne_nil _ _)
    (by rw [rows_first]; exact increasing_pair)
    (by rw [rows_first]; exact List.pairwise_singleton _ _)

/-- The line of `b` is not written. -/
theorem merge_join_missing :
    ¬Meets (mergeJoin (Table.files (Table.first [rowA, rowB]) (Table.first [rowB]))) fun s =>
      lines newline s.output =
        joinLines (Table.first [rowA, rowB]).rows (Table.first [rowB]).rows := by
  intro h
  have hmeets := mergeJoin_meets (stored_files (Table.first [rowA, rowB]) (Table.first [rowB]))
    (List.cons_ne_nil _ _) (by rw [rows_first]; exact fun r hr => absurd hr List.not_mem_nil)
  obtain ⟨s, ⟨hlines, hout⟩, -⟩ := h.and hmeets
  rw [rows_first, rows_first] at hlines hout
  have hmem : ∀ l ∈ scan true [rowA, rowB] [rowB], newline ∉ l := by
    intro l hl
    obtain ⟨a, -, b, -, -, rfl⟩ := mem_scan hl
    exact newline_joinLine a b
  rw [hout, lines_text hmem, scan_eq_iff increasing_pair (List.pairwise_singleton _ _)] at hlines
  exact absurd hlines (by decide +kernel)

end JoinOperation
