import CourseProjects.JoinOperation.Records

/-!
# The hash join

The program of `test2.cpp`: the rows of `name_age` go to ten files by a hash of the name, and for
each row of `name_salary` the file of its name is read again.

* `hash_join`: the lines that are written are those of the join, each as often as there are pairs
  of rows with equal names;
* `hashFunc_mem_iff`: the names whose hash is a place of the hash table. The letters have a sign,
  and the remainder of a negative sum is negative.
-/

namespace JoinOperation

open TextStream While Function

/-! ### The program -/

/-- A `char`, which has a sign. -/
def charVal (c : UInt8) : ℤ := if c.toNat < 128 then c.toNat else c.toNat - 256

/-- An addition of `int`, which wraps around. -/
def addInt (a b : ℤ) : ℤ := (a + b).bmod (2 ^ 32)

def hashFunc (name : Str) : ℤ :=
  let val := name.foldl (fun val c => addInt val (charVal c)) 0
  val.tmod 10 + 2

/-- The place in the array of streams. -/
def blockIndex (val : ℤ) : Prog ℕ := if 0 ≤ val ∧ val < 12 then pure val.toNat else fault

/-- The files, the streams and the variables of `main`, and what has been written to
`./output2.csv`. -/
structure HashState where
  files : Files
  block : ℕ → FStream
  buffer : Str
  temp0 : NameAge
  temp1 : NameSalary
  output : Str

namespace HashState

def openIn (s : HashState) (i : ℕ) (f : File) : HashState :=
  { s with block := update s.block i ((s.block i).openIn s.files f) }

/-- `open` for writing: what has been in the file is lost. -/
def openOut (s : HashState) (i : ℕ) (f : File) : HashState :=
  match (s.block i).file with
  | none =>
    { s with files := update s.files f (some []), block := update s.block i ⟨some f, .ofText []⟩ }
  | some _ => { s with block := update s.block i (s.block i).setFail }

def close (s : HashState) (i : ℕ) : HashState :=
  { s with block := update s.block i (s.block i).close }

/-- `getline(block[i], buffer[0])`. -/
def getline (s : HashState) (i : ℕ) : HashState :=
  { s with
    buffer := ((s.block i).getline s.buffer).1
    block := update s.block i ((s.block i).getline s.buffer).2 }

/-- `block[i] << tuple`. -/
def write (s : HashState) (i : ℕ) (tuple : Str) : HashState :=
  if (s.block i).stream.good then
    match (s.block i).file with
    | some f => { s with files := update s.files f ((s.files f).map (· ++ tuple)) }
    | none => { s with block := update s.block i (s.block i).setFail }
  else { s with block := update s.block i (s.block i).setFail }

end HashState

/-- The body of the loop over the lines of a block of `name_age`. -/
def partitionLine (s : HashState) : Prog HashState := do
  let s := s.getline 0
  if (s.block 0).eof then pure s
  else do
    let s := { s with temp0 := s.temp0.setNameAge s.buffer }
    let i ← blockIndex (hashFunc s.temp0.name)
    pure (s.write i (makeDouble s.temp0.name s.temp0.age))

def partition (s : HashState) (i : ℕ) : Prog HashState := do
  let s := s.openIn 0 (.nameAge i)
  let s ← whileDo (fun s => !(s.block 0).eof) partitionLine s
  pure (s.close 0)

/-- The body of the loop over the lines of a file of the hash table. -/
def probeLine (i : ℕ) (s : HashState) : Prog HashState := do
  if (s.block i).eof then pure s
  else do
    let s := s.getline i
    let s := { s with temp0 := s.temp0.setNameAge s.buffer }
    if s.temp0.name = s.temp1.name then
      pure { s with output := s.output ++ makeTuple s.temp0.name s.temp0.age s.temp1.salary }
    else
      pure s

/-- The body of the loop over the lines of a block of `name_salary`. -/
def probe (s : HashState) : Prog HashState := do
  let s := s.getline 1
  if (s.block 1).eof then pure s
  else do
    let s := { s with temp1 := s.temp1.setNameSalary s.buffer }
    let i ← blockIndex (hashFunc s.temp1.name)
    let s := s.openIn i (.hash i)
    if !(s.block i).isOpen then pure s
    else do
      let s ← whileDo (fun s => !(s.block i).eof) (probeLine i) s
      pure (s.close i)

def probeBlock (s : HashState) (i : ℕ) : Prog HashState := do
  let s := s.openIn 1 (.nameSalary i)
  if !(s.block 1).isOpen then pure s
  else do
    let s ← whileDo (fun s => !(s.block 1).eof) probe s
    pure (s.close 1)

/-- The places of the hash table in the array of streams. -/
def hashBlocks : List ℕ := List.range' 2 10

/-- `main`, up to the end of the joining. -/
def hashJoin (files : Files) : Prog HashState := do
  let s : HashState := ⟨files, fun _ => .init, [], ⟨[], []⟩, ⟨[], []⟩, []⟩
  let s := hashBlocks.foldl (fun s i => s.openOut i (.hash i)) s
  let s ← (List.range blocks).foldlM partition s
  let s := hashBlocks.foldl (fun s i => s.close i) s
  (List.range blocks).foldlM probeBlock s

/-! ### The hash function -/

/-- The sum of the letters of a name, as an `int`. -/
def letterSum (name : Str) : ℤ := (name.map charVal).sum.bmod (2 ^ 32)

/-- A name whose sum is not negative, or a multiple of ten. -/
def Placed (name : Str) : Prop := 0 ≤ letterSum name ∨ 10 ∣ letterSum name

/-- The file for a name that is placed. -/
def nameHash (name : Str) : ℕ := (letterSum name).toNat % 10 + 2

/-- A row with a name of seven-bit letters whose sum fits an `int`. -/
structure Row.Keyed (r : Row) : Prop where
  nonempty : r.name ≠ []
  ascii : ∀ c ∈ r.name, c.toNat < 128
  sum : (r.name.map UInt8.toNat).sum < 2 ^ 31

/-- A row with a name that is placed. -/
structure Row.Named (r : Row) : Prop where
  nonempty : r.name ≠ []
  placed : Placed r.name

variable {name : Str} {r : Row}

theorem mem_hashBlocks {i : ℕ} : i ∈ hashBlocks ↔ 2 ≤ i ∧ i < 12 := by
  rw [hashBlocks, List.mem_range'_1]

theorem nameHash_mem (name : Str) : nameHash name ∈ hashBlocks := by
  rw [mem_hashBlocks, nameHash]
  omega

theorem foldl_addInt (name : Str) (v : ℤ) :
    name.foldl (fun val c => addInt val (charVal c)) (v.bmod (2 ^ 32)) =
      (v + (name.map charVal).sum).bmod (2 ^ 32) := by
  induction name generalizing v with
  | nil => rw [List.foldl_nil, List.map_nil, List.sum_nil, add_zero]
  | cons c name ih =>
    rw [List.foldl_cons, addInt, Int.bmod_add_bmod, ih, List.map_cons, List.sum_cons, add_assoc]

theorem hashFunc_eq (name : Str) : hashFunc name = (letterSum name).tmod 10 + 2 := by
  have hfold := foldl_addInt name 0
  rw [Int.zero_bmod, zero_add] at hfold
  rw [hashFunc, hfold, letterSum]

/-- The hash of a name that is placed. -/
theorem hashFunc_placed (h : Placed name) : hashFunc name = nameHash name := by
  rw [hashFunc_eq, nameHash]
  rcases lt_or_ge (letterSum name) 0 with hneg | hpos
  · have hzero := Int.tmod_eq_zero_of_dvd (h.resolve_left hneg.not_ge)
    omega
  · rw [Int.tmod_eq_emod_of_nonneg hpos]
    omega

theorem blockIndex_nameHash (name : Str) :
    blockIndex ((nameHash name : ℕ) : ℤ) = pure (nameHash name) := by
  have := mem_hashBlocks.1 (nameHash_mem name)
  rw [blockIndex, if_pos (by omega)]
  rfl

/-- The sum of a name of seven-bit letters that fits an `int`. -/
theorem Row.Keyed.letterSum_eq (h : r.Keyed) :
    letterSum r.name = (r.name.map UInt8.toNat).sum := by
  have hmap : r.name.map charVal = r.name.map fun c => (c.toNat : ℤ) :=
    List.map_congr_left fun c hc => if_pos (h.ascii c hc)
  have hsum : (r.name.map fun c => (c.toNat : ℤ)).sum = (r.name.map UInt8.toNat).sum := by
    rw [Nat.cast_list_sum, List.map_map]
    rfl
  have := h.sum
  rw [letterSum, hmap, hsum, Int.bmod_eq_of_le (by omega) (by omega)]

theorem Row.Keyed.named (h : r.Keyed) : r.Named :=
  ⟨h.nonempty, .inl (h.letterSum_eq ▸ Int.natCast_nonneg _)⟩

/-! ### The hash table -/

variable {age salary : Table} {files : Files} {rows done rest : List Row} {s t : HashState}
  {i j : ℕ} {f : File}

theorem getline_cons (h : s.block i = FStream.reading f (r :: rest)) :
    (s.getline i).block i = FStream.reading f rest ∧ (s.getline i).buffer = r.line := by
  rw [HashState.getline, h, getline_reading_cons]
  exact ⟨update_self .., rfl⟩

theorem getline_nil (h : s.block i = FStream.reading f []) :
    (s.getline i).block i = ⟨some f, [], true, true⟩ ∧ (s.getline i).buffer = [] := by
  rw [HashState.getline, h, getline_reading_nil]
  exact ⟨update_self .., rfl⟩

theorem block_getline_of_ne (h : j ≠ i) : (s.getline i).block j = s.block j := update_of_ne h ..

/-- A loop over the lines of a block does what its body does with each row. -/
theorem readBlock {K : Row → Prop} {k : ℕ} {body : HashState → Prog HashState}
    {P : List Row → HashState → Prop}
    (hcons : ∀ done r rest s, K r → P done s → s.block k = FStream.reading f (r :: rest) →
      Meets (body s) fun t => P (done ++ [r]) t ∧ t.block k = FStream.reading f rest)
    (hnil : ∀ done s, P done s → s.block k = FStream.reading f [] →
      Meets (body s) fun t => P done t ∧ t.block k = ⟨some f, [], true, true⟩)
    (hrows : ∀ r ∈ rows, K r) (h : P done s) (hs : s.block k = FStream.reading f rows) :
    Meets (whileDo (fun s => !(s.block k).eof) body s) fun t =>
      P (done ++ rows) t ∧ t.block k = ⟨some f, [], true, true⟩ := by
  refine Meets.whileList (I := fun rest t => ∃ pre, pre ++ rest = rows ∧
    P (done ++ pre) t ∧ t.block k = FStream.reading f rest)
    (fun l t ht => ?_) (fun t ht => by rw [ht.2]; rfl) (fun r l t ht => ?_) (fun t ht => ?_)
    ⟨[], List.nil_append _, by rwa [List.append_nil], hs⟩
  · obtain ⟨_, -, -, ht⟩ := ht
    rw [ht]
    rfl
  · obtain ⟨pre, hpre, ht, hbt⟩ := ht
    have hr := hrows r (hpre ▸ List.mem_append_right _ List.mem_cons_self)
    refine (hcons _ r l t hr ht hbt).mono fun u hu => ⟨pre ++ [r], ?_, ?_, hu.2⟩
    · rw [List.append_assoc]
      exact hpre
    · rw [← List.append_assoc]
      exact hu.1
  · obtain ⟨pre, hpre, ht, hbt⟩ := ht
    rw [List.append_nil] at hpre
    exact hnil _ t (hpre ▸ ht) hbt

/-- A loop over the blocks of a table does what its body does with each block. -/
theorem readBlocks {K : Row → Prop} {g : HashState → ℕ → Prog HashState}
    {P : List Row → HashState → Prop}
    {table : Table} (htable : ∀ r ∈ table.rows, K r)
    (hstep : ∀ i < blocks, ∀ done s, (∀ r ∈ table i, K r) → P done s →
      Meets (g s i) (P (done ++ table i))) (h : P [] s) :
    Meets ((List.range blocks).foldlM g s) (P table.rows) := by
  have hfold := Meets.foldlM (g := g) (s := s) (l := List.range blocks)
    (I := fun l t => ∃ pre, pre ++ l = List.range blocks ∧ P (pre.flatMap table) t)
    (fun i l t ht => ?_) ⟨[], List.nil_append _, h⟩
  · refine hfold.mono fun t ht => ?_
    obtain ⟨pre, hpre, ht⟩ := ht
    rw [List.append_nil] at hpre
    rw [hpre] at ht
    exact ht
  · obtain ⟨pre, hpre, ht⟩ := ht
    have hi : i ∈ List.range blocks := hpre ▸ List.mem_append_right _ List.mem_cons_self
    have hrows : ∀ r ∈ table i, K r := fun r hr =>
      htable r (List.mem_flatMap.2 ⟨i, hi, hr⟩)
    refine (hstep i (List.mem_range.1 hi) _ t hrows ht).mono fun u hu => ⟨pre ++ [i], ?_, ?_⟩
    · rw [List.append_assoc]
      exact hpre
    · rw [List.flatMap_append, List.flatMap_singleton]
      exact hu

/-- The rows with a hash. -/
def bucket (rows : List Row) (i : ℕ) : List Row := rows.filter fun r => nameHash r.name = i

/-- The tables are in their files, and the rows `done` of `name_age` in those of the hash table. -/
structure Built (age salary : Table) (done : List Row) (s : HashState) : Prop where
  stored : Stored age salary s.files
  part : ∀ i ∈ hashBlocks,
    s.files (.hash i) = some (text newline ((bucket done i).map Row.line))

/-- The files of the hash table are open for writing. -/
structure Building (age salary : Table) (done : List Row) (s : HashState) : Prop
    extends Built age salary done s where
  isOpen : ∀ i ∈ hashBlocks, s.block i = FStream.reading (.hash i) []
  closed : (s.block 1).file = none
  output : s.output = []

theorem Built.congr (h : Built age salary done s) (hf : t.files = s.files) :
    Built age salary done t := ⟨hf ▸ h.stored, hf ▸ h.part⟩

/-- Only the stream on the block that is read changes. -/
theorem Building.setBlock (h : Building age salary done s) (hf : t.files = s.files)
    (hb : ∀ j ≠ 0, t.block j = s.block j) (ho : t.output = s.output) :
    Building age salary done t := by
  refine ⟨h.toBuilt.congr hf, fun i hi => ?_, ?_, ho.trans h.output⟩
  · have := mem_hashBlocks.1 hi
    rw [hb i (by omega)]
    exact h.isOpen i hi
  · rw [hb 1 one_ne_zero]
    exact h.closed

theorem bucket_concat (rows : List Row) (r : Row) (i : ℕ) :
    bucket (rows ++ [r]) i =
      if nameHash r.name = i then bucket rows i ++ [r] else bucket rows i := by
  rw [bucket, bucket, List.filter_append]
  split
  · rw [List.filter_cons_of_pos (by simpa using ‹_›)]
    rfl
  · rw [List.filter_cons_of_neg (by simpa using ‹_›), List.filter_nil, List.append_nil]

/-- A row is written to the file of its hash. -/
theorem Building.write (h : Building age salary done s) (r : Row) :
    Building age salary (done ++ [r]) (s.write (nameHash r.name) (makeDouble r.name r.val)) ∧
      (s.write (nameHash r.name) (makeDouble r.name r.val)).block = s.block := by
  have hb := h.isOpen _ (nameHash_mem r.name)
  have hw : s.write (nameHash r.name) (makeDouble r.name r.val) = { s with
      files := update s.files (.hash (nameHash r.name))
        ((s.files (.hash (nameHash r.name))).map (· ++ makeDouble r.name r.val)) } := by
    rw [HashState.write, hb]
    rfl
  rw [hw]
  refine ⟨⟨⟨⟨fun i hi => ?_, fun i hi => ?_⟩, fun i hi => ?_⟩, h.isOpen, h.closed, h.output⟩, rfl⟩
  · have hne : File.nameAge i ≠ .hash (nameHash r.name) := nofun
    dsimp only
    rw [update_of_ne hne]
    exact h.stored.age i hi
  · have hne : File.nameSalary i ≠ .hash (nameHash r.name) := nofun
    dsimp only
    rw [update_of_ne hne]
    exact h.stored.salary i hi
  · rw [bucket_concat]
    by_cases hi' : nameHash r.name = i
    · subst hi'
      dsimp only
      rw [update_self, h.part _ hi, if_pos rfl, List.map_append, text_append, makeDouble_eq,
        Option.map_some, List.map_singleton, text_singleton]
    · rw [if_neg hi']
      exact (update_of_ne (by simpa using Ne.symm hi') ..).trans (h.part i hi)

/-- One row of a block of `name_age`. -/
theorem partitionLine_cons (hr : Placed r.name) (h : Building age salary done s)
    (hb : s.block 0 = FStream.reading f (r :: rest)) :
    Meets (partitionLine s) fun t => Building age salary (done ++ [r]) t ∧
      t.block 0 = FStream.reading f rest := by
  obtain ⟨hblock, hbuffer⟩ := getline_cons hb
  have hparse : NameAge.setNameAge (s.getline 0).temp0 (s.getline 0).buffer =
      ⟨r.name, r.val⟩ := by
    rw [hbuffer, NameAge.setNameAge, parse_line]
  unfold partitionLine
  dsimp only
  rw [if_neg (by rw [hblock]; exact Bool.false_ne_true), hparse, hashFunc_placed hr,
    blockIndex_nameHash, pure_bind]
  have hu : Building age salary done { s.getline 0 with temp0 := ⟨r.name, r.val⟩ } :=
    h.setBlock rfl (fun j hj => block_getline_of_ne hj) rfl
  obtain ⟨hw, hsame⟩ := hu.write r
  refine meets_pure ⟨hw, ?_⟩
  rw [hsame]
  exact hblock

/-- The end of a block of `name_age`. -/
theorem partitionLine_nil (h : Building age salary done s) (hb : s.block 0 = FStream.reading f []) :
    Meets (partitionLine s) fun t => Building age salary done t ∧
      t.block 0 = ⟨some f, [], true, true⟩ := by
  obtain ⟨hblock, -⟩ := getline_nil hb
  unfold partitionLine
  dsimp only
  rw [if_pos (by rw [hblock]; rfl)]
  exact meets_pure ⟨h.setBlock rfl (fun j hj => block_getline_of_ne hj) rfl, hblock⟩

theorem partition_meets (hi : i < blocks) (hplaced : ∀ r ∈ age i, Placed r.name)
    (h : Building age salary done s ∧ (s.block 0).file = none) :
    Meets (partition s i) fun t => Building age salary (done ++ age i) t ∧
      (t.block 0).file = none := by
  have ho : (s.openIn 0 (.nameAge i)).block 0 = FStream.reading (.nameAge i) (age i) := by
    rw [HashState.openIn]
    dsimp only
    rw [update_self, FStream.openIn, h.2, h.1.stored.age i hi]
    rfl
  have hopen : Building age salary done (s.openIn 0 (.nameAge i)) :=
    h.1.setBlock rfl (fun j hj => update_of_ne hj ..) rfl
  unfold partition
  refine (readBlock (P := Building age salary) (fun _ _ _ _ hr => partitionLine_cons hr)
    (fun _ _ => partitionLine_nil) hplaced hopen ho).bind fun t ht => meets_pure ?_
  refine ⟨ht.1.setBlock rfl (fun j hj => update_of_ne hj ..) rfl, ?_⟩
  rw [HashState.close]
  dsimp only
  rw [update_self, ht.2]
  rfl

/-! ### The probes -/

/-- The lines of a row of `name_salary` and the rows with its name. -/
def joined (rows : List Row) (b : Row) : List Str :=
  (rows.filter fun a => a.name = b.name).map fun a => joinLine a b

/-- The rows with a name are all in one file. -/
theorem joined_bucket (rows : List Row) (b : Row) :
    joined (bucket rows (nameHash b.name)) b = joined rows b := by
  rw [joined, joined, bucket, List.filter_filter]
  refine congrArg _ (List.filter_congr fun a _ => ?_)
  by_cases h : a.name = b.name
  · simp [h]
  · simp [h]

theorem joined_concat (rows : List Row) (a b : Row) :
    joined (rows ++ [a]) b =
      joined rows b ++ if a.name = b.name then [joinLine a b] else [] := by
  rw [joined, joined, List.filter_append, List.map_append]
  split
  · rw [List.filter_cons_of_pos (by simpa using ‹_›)]
    rfl
  · rw [List.filter_cons_of_neg (by simpa using ‹_›)]
    rfl

/-- The files of the hash table are closed, and the rows `done` of `name_salary` are joined. -/
structure Probing (age salary : Table) (done : List Row) (s : HashState) : Prop
    extends Built age salary age.rows s where
  closed : ∀ i ∈ hashBlocks, (s.block i).file = none
  output : s.output = text newline (done.flatMap (joined age.rows))

/-- Only the stream on the block that is read changes. -/
theorem Probing.setBlock (h : Probing age salary done s) (hf : t.files = s.files)
    (hb : ∀ j ≠ 1, t.block j = s.block j) (ho : t.output = s.output) :
    Probing age salary done t := by
  refine ⟨h.toBuilt.congr hf, fun i hi => ?_, ho.trans h.output⟩
  have := mem_hashBlocks.1 hi
  rw [hb i (by omega)]
  exact h.closed i hi

/-- The row `b` has been compared with the rows `seen`, since the state `s`. -/
structure Comparing (b : Row) (s : HashState) (i : ℕ) (seen : List Row) (stream : FStream)
    (t : HashState) : Prop where
  files : t.files = s.files
  block : ∀ j ≠ i, t.block j = s.block j
  stream : t.block i = stream
  temp1 : t.temp1 = ⟨b.name, b.val⟩
  output : t.output = s.output ++ text newline (joined seen b)

variable {a b : Row} {seen : List Row} {u : HashState}

theorem probeLine_cons (h : Comparing b s i seen (.reading f (a :: rest)) t) :
    Meets (probeLine i t) (Comparing b s i (seen ++ [a]) (.reading f rest)) := by
  obtain ⟨hblock, hbuffer⟩ := getline_cons h.stream
  have hparse : NameAge.setNameAge (t.getline i).temp0 (t.getline i).buffer =
      ⟨a.name, a.val⟩ := by
    rw [hbuffer, NameAge.setNameAge, parse_line]
  have htemp : (t.getline i).temp1 = ⟨b.name, b.val⟩ := h.temp1
  have hother : ∀ j ≠ i, (t.getline i).block j = s.block j := fun j hj =>
    (block_getline_of_ne hj).trans (h.block j hj)
  unfold probeLine
  dsimp only
  rw [if_neg (by rw [h.stream]; exact Bool.false_ne_true), hparse, htemp]
  dsimp only
  by_cases hname : a.name = b.name
  · rw [if_pos hname]
    refine meets_pure ⟨h.files, hother, hblock, rfl, ?_⟩
    rw [joined_concat, if_pos hname, text_append, text_singleton, ← List.append_assoc, ← h.output]
    rfl
  · rw [if_neg hname]
    refine meets_pure ⟨h.files, hother, hblock, rfl, ?_⟩
    rw [joined_concat, if_neg hname, List.append_nil]
    exact h.output

/-- The empty string at the end is no name. -/
theorem probeLine_nil (hb : b.name ≠ []) (h : Comparing b s i seen (.reading f []) t) :
    Meets (probeLine i t) (Comparing b s i seen ⟨some f, [], true, true⟩) := by
  obtain ⟨hblock, hbuffer⟩ := getline_nil h.stream
  have hparse : (NameAge.setNameAge (t.getline i).temp0 (t.getline i).buffer).name = [] := by
    rw [hbuffer, NameAge.setNameAge, parse_nil]
  have htemp : (t.getline i).temp1 = ⟨b.name, b.val⟩ := h.temp1
  unfold probeLine
  dsimp only
  rw [if_neg (by rw [h.stream]; exact Bool.false_ne_true), hparse, htemp, if_neg hb.symm]
  exact meets_pure ⟨h.files, fun j hj => (block_getline_of_ne hj).trans (h.block j hj), hblock,
    rfl, h.output⟩

/-- One row of a block of `name_salary`. -/
theorem probe_cons (hb : b.Named) (h : Probing age salary done s)
    (hs : s.block 1 = FStream.reading f (b :: rest)) :
    Meets (probe s) fun t => Probing age salary (done ++ [b]) t ∧
      t.block 1 = FStream.reading f rest := by
  obtain ⟨hblock, hbuffer⟩ := getline_cons hs
  have hparse : NameSalary.setNameSalary (s.getline 1).temp1 (s.getline 1).buffer =
      ⟨b.name, b.val⟩ := by
    rw [hbuffer, NameSalary.setNameSalary, parse_line]
  have hmem := nameHash_mem b.name
  have hne : nameHash b.name ≠ 1 := by have := mem_hashBlocks.1 hmem; omega
  set i := nameHash b.name with hi
  unfold probe
  dsimp only
  rw [if_neg (by rw [hblock]; exact Bool.false_ne_true), hparse, hashFunc_placed hb.placed,
    blockIndex_nameHash, pure_bind, ← hi]
  set v : HashState := { s.getline 1 with temp1 := ⟨b.name, b.val⟩ } with hv
  have hvs : Probing age salary done v := h.setBlock rfl (fun j hj => block_getline_of_ne hj) rfl
  have hopen : (v.openIn i (.hash i)).block i = FStream.reading (.hash i) (bucket age.rows i) := by
    rw [HashState.openIn]
    dsimp only
    rw [update_self, FStream.openIn, hvs.closed i hmem, hvs.part i hmem]
    rfl
  rw [if_neg (by rw [hopen]; exact Bool.false_ne_true)]
  refine Meets.bind (P := Comparing b v i (bucket age.rows i) ⟨some (.hash i), [], true, true⟩)
    ?_ fun t ht => meets_pure ?_
  · refine Meets.whileList (I := fun rest t => ∃ seen, seen ++ rest = bucket age.rows i ∧
      Comparing b v i seen (.reading (.hash i) rest) t)
      (fun l t ht => ?_) (fun t ht => by rw [ht.stream]; rfl) (fun a l t ht => ?_)
      (fun t ht => ?_) ⟨[], List.nil_append _, rfl, fun j hj => update_of_ne hj .., hopen, rfl, ?_⟩
    · obtain ⟨_, -, ht⟩ := ht
      rw [ht.stream]
      rfl
    · obtain ⟨seen, hseen, ht⟩ := ht
      refine (probeLine_cons ht).mono fun u hu => ⟨seen ++ [a], ?_, hu⟩
      rw [List.append_assoc]
      exact hseen
    · obtain ⟨seen, hseen, ht⟩ := ht
      rw [List.append_nil] at hseen
      exact hseen ▸ probeLine_nil hb.nonempty ht
    · exact (List.append_nil _).symm
  · refine ⟨⟨hvs.toBuilt.congr ht.files, fun j hj => ?_, ?_⟩, ?_⟩
    · rw [HashState.close]
      dsimp only
      by_cases hji : j = i
      · subst hji
        rw [update_self, ht.stream]
        rfl
      · rw [update_of_ne hji, ht.block j hji]
        exact hvs.closed j hj
    · change t.output = _
      rw [ht.output, hi, joined_bucket, hvs.output, List.flatMap_append, text_append,
        List.flatMap_singleton]
    · rw [HashState.close]
      dsimp only
      rw [update_of_ne hne.symm, ht.block 1 hne.symm]
      exact hblock

/-- The end of a block of `name_salary`. -/
theorem probe_nil (h : Probing age salary done s) (hs : s.block 1 = FStream.reading f []) :
    Meets (probe s) fun t => Probing age salary done t ∧ t.block 1 = ⟨some f, [], true, true⟩ := by
  obtain ⟨hblock, -⟩ := getline_nil hs
  unfold probe
  dsimp only
  rw [if_pos (by rw [hblock]; rfl)]
  exact meets_pure ⟨h.setBlock rfl (fun j hj => block_getline_of_ne hj) rfl, hblock⟩

theorem probeBlock_meets (hi : i < blocks) (hnamed : ∀ r ∈ salary i, r.Named)
    (h : Probing age salary done s ∧ (s.block 1).file = none) :
    Meets (probeBlock s i) fun t => Probing age salary (done ++ salary i) t ∧
      (t.block 1).file = none := by
  have ho : (s.openIn 1 (.nameSalary i)).block 1 =
      FStream.reading (.nameSalary i) (salary i) := by
    rw [HashState.openIn]
    dsimp only
    rw [update_self, FStream.openIn, h.2, h.1.stored.salary i hi]
    rfl
  have hopen : Probing age salary done (s.openIn 1 (.nameSalary i)) :=
    h.1.setBlock rfl (fun j hj => update_of_ne hj ..) rfl
  unfold probeBlock
  dsimp only
  rw [if_neg (by rw [ho]; exact Bool.false_ne_true)]
  refine (readBlock (P := Probing age salary) (fun _ _ _ _ hr => probe_cons hr)
    (fun _ _ => probe_nil) hnamed hopen ho).bind fun t ht => meets_pure ?_
  refine ⟨ht.1.setBlock rfl (fun j hj => update_of_ne hj ..) rfl, ?_⟩
  rw [HashState.close]
  dsimp only
  rw [update_self, ht.2]
  rfl

/-! ### The join -/

/-- The files of the hash table are opened for writing. -/
theorem openOuts {l : List ℕ} (hl : l.Nodup) (h : ∀ i ∈ l, (s.block i).file = none)
    (ht : t = l.foldl (fun s i => s.openOut i (.hash i)) s) :
    (∀ f, (∀ i ∈ l, f ≠ .hash i) → t.files f = s.files f) ∧
      (∀ i ∈ l, t.files (.hash i) = some [] ∧ t.block i = FStream.reading (.hash i) []) ∧
      (∀ j ∉ l, t.block j = s.block j) ∧ t.output = s.output := by
  induction l generalizing s with
  | nil =>
    subst ht
    exact ⟨fun _ _ => rfl, fun _ h => absurd h List.not_mem_nil, fun _ _ => rfl, rfl⟩
  | cons i l ih =>
    obtain ⟨hi, hl⟩ := List.nodup_cons.1 hl
    have hopen : s.openOut i (.hash i) = { s with
        files := update s.files (.hash i) (some [])
        block := update s.block i (FStream.reading (.hash i) []) } := by
      rw [HashState.openOut, h i List.mem_cons_self]
      rfl
    have hne : ∀ j ∈ l, j ≠ i := fun j hj hji => hi (hji ▸ hj)
    rw [List.foldl_cons, hopen] at ht
    obtain ⟨hfiles, hopened, hother, hout⟩ := ih hl (fun j hj => by
      dsimp only
      rw [update_of_ne (hne j hj)]
      exact h j (List.mem_cons_of_mem _ hj)) ht
    refine ⟨fun f hf => ?_, fun j hj => ?_, fun j hj => ?_, hout⟩
    · rw [hfiles f fun j hj => hf j (List.mem_cons_of_mem _ hj)]
      exact update_of_ne (hf i List.mem_cons_self) ..
    · rcases List.mem_cons.1 hj with rfl | hj
      · refine ⟨?_, ?_⟩
        · rw [hfiles _ fun k hk heq => hne k hk (File.hash.inj heq).symm]
          exact update_self ..
        · rw [hother j hi]
          exact update_self ..
      · exact hopened j hj
    · rw [hother j fun h => hj (List.mem_cons_of_mem _ h)]
      exact update_of_ne (fun h => hj (List.mem_cons.2 (.inl h))) ..

/-- The files of the hash table are closed. -/
theorem closes {l : List ℕ} (ht : t = l.foldl (fun s i => s.close i) s) :
    t.files = s.files ∧ (∀ i, (s.block i).file = none → (t.block i).file = none) ∧
      (∀ i ∈ l, (t.block i).file = none) ∧ t.output = s.output := by
  induction l generalizing s with
  | nil =>
    subst ht
    exact ⟨rfl, fun _ h => h, fun _ h => absurd h List.not_mem_nil, rfl⟩
  | cons i l ih =>
    obtain ⟨hfiles, hclosed, hall, hout⟩ := ih ht
    have hi : ((s.close i).block i).file = none := by
      rw [HashState.close]
      dsimp only
      rw [update_self, FStream.close]
      split
      · rfl
      · assumption
    refine ⟨hfiles, fun j hj => hclosed j ?_, fun j hj => ?_, hout⟩
    · by_cases hji : j = i
      · exact hji ▸ hi
      · change (update s.block i (s.block i).close j).file = none
        rw [update_of_ne hji]
        exact hj
    · rcases List.mem_cons.1 hj with rfl | hj
      · exact hclosed j hi
      · exact hall j hj

/-- The lines of all pairs of rows with equal names. -/
def joinRows (age salary : List Row) : Multiset Str :=
  (((age : Multiset Row) ×ˢ (salary : Multiset Row)).filter fun p => p.1.name = p.2.name).map
    fun p => joinLine p.1 p.2

theorem joinRows_eq (age salary : List Row) :
    joinRows age salary = (salary.flatMap (joined age) : List Str) := by
  induction salary with
  | nil => simp [joinRows]
  | cons b salary ih =>
    rw [joinRows] at ih ⊢
    rw [← Multiset.cons_coe, Multiset.product_cons, Multiset.filter_add, Multiset.map_add, ih,
      List.flatMap_cons, ← Multiset.coe_add, Multiset.filter_map, Multiset.map_map, joined]
    rfl

/-- `main` before the partition: the files of the hash table are open. -/
def opened (files : Files) : HashState :=
  hashBlocks.foldl (fun s i => s.openOut i (.hash i)) ⟨files, fun _ => .init, [], ⟨[], []⟩,
    ⟨[], []⟩, []⟩

theorem building_opened (hs : Stored age salary files) :
    Building age salary [] (opened files) ∧ ((opened files).block 0).file = none := by
  obtain ⟨hfiles, hopened, hother, hout⟩ := openOuts
    (s := ⟨files, fun _ => .init, [], ⟨[], []⟩, ⟨[], []⟩, []⟩) (l := hashBlocks) (by decide)
    (fun _ _ => rfl) rfl
  have hblock : ∀ i < 2, (opened files).block i = .init := fun i hi =>
    hother i fun h => by have := mem_hashBlocks.1 h; omega
  refine ⟨⟨⟨⟨fun i hi => ?_, fun i hi => ?_⟩, fun i hi => (hopened i hi).1⟩,
    fun i hi => (hopened i hi).2, ?_, hout⟩, ?_⟩
  · exact (hfiles _ fun _ _ h => by cases h).trans (hs.age i hi)
  · exact (hfiles _ fun _ _ h => by cases h).trans (hs.salary i hi)
  · rw [hblock 1 Nat.one_lt_two]
    rfl
  · rw [hblock 0 Nat.two_pos]
    rfl

/-- The rows of `name_age` are written to the files of their hashes. -/
theorem partition_all (hs : Stored age salary files) (hage : ∀ r ∈ age.rows, Placed r.name) :
    Meets ((List.range blocks).foldlM partition (opened files))
      (Building age salary age.rows) :=
  (readBlocks (P := fun done t => Building age salary done t ∧ (t.block 0).file = none) hage
    (fun _ hi _ _ => partition_meets hi) (building_opened hs)).mono fun _ ht => ht.1

/-- The lines of the join are written, whatever letters the names have, if they are placed. -/
theorem hashJoin_meets (hs : Stored age salary files) (hage : ∀ r ∈ age.rows, Placed r.name)
    (hsalary : ∀ r ∈ salary.rows, r.Named) :
    Meets (hashJoin files) fun s =>
      (lines newline s.output : Multiset Str) = joinRows age.rows salary.rows := by
  unfold hashJoin
  dsimp only
  refine (partition_all hs hage).bind fun s hbuilt => ?_
  obtain ⟨hfiles, hclosed, hall, hout⟩ := closes (s := s) (l := hashBlocks) rfl
  have hprobing : Probing age salary [] (hashBlocks.foldl (fun s i => s.close i) s) :=
    ⟨hbuilt.toBuilt.congr hfiles, hall, hout.trans hbuilt.output⟩
  refine (readBlocks (P := fun done t => Probing age salary done t ∧ (t.block 1).file = none)
    hsalary (fun i hi done s => probeBlock_meets hi)
    ⟨hprobing, hclosed 1 hbuilt.closed⟩).mono fun t hdone => ?_
  rw [hdone.1.output, lines_text, joinRows_eq]
  intro l hl
  obtain ⟨b, -, hl⟩ := List.mem_flatMap.1 hl
  obtain ⟨a, -, rfl⟩ := List.mem_map.1 hl
  exact newline_joinLine a b

/-- The lines that are written are those of the pairs of rows with equal names. -/
theorem hash_join (hs : Stored age salary files) (hage : ∀ r ∈ age.rows, r.Keyed)
    (hsalary : ∀ r ∈ salary.rows, r.Keyed) :
    Meets (hashJoin files) fun s =>
      (lines newline s.output : Multiset Str) = joinRows age.rows salary.rows :=
  hashJoin_meets hs (fun r hr => (hage r hr).named.placed) fun r hr => (hsalary r hr).named

/-- The place of a name is in the hash table if and only if the name is placed, and `main` writes
the rows of such names to the files of their hashes only. -/
theorem hashFunc_mem_iff (hs : Stored age salary files) :
    (∀ name, 2 ≤ hashFunc name ∧ hashFunc name ≤ 11 ↔ 0 ≤ letterSum name ∨ 10 ∣ letterSum name) ∧
      ((∀ r ∈ age.rows, Placed r.name) →
        Meets ((List.range blocks).foldlM partition (opened files))
          (Building age salary age.rows)) := by
  refine ⟨fun name => ⟨fun h => ?_, fun h => ?_⟩, partition_all hs⟩
  · rw [hashFunc_eq] at h
    by_contra hnot
    rw [not_or, not_le] at hnot
    -- the remainder has the sign of the sum
    have hneg := Int.neg_tmod (letterSum name) 10
    rw [Int.tmod_eq_emod_of_nonneg (by omega)] at hneg
    omega
  · have hmem := mem_hashBlocks.1 (nameHash_mem name)
    rw [hashFunc_placed h]
    omega

/-- A table with rows in one block only. -/
def Table.single (i : ℕ) (rows : List Row) : Table := fun j => if j = i then rows else []

theorem mem_rows_single {rows : List Row} (h : r ∈ (Table.single i rows).rows) : r ∈ rows := by
  obtain ⟨j, -, hr⟩ := List.mem_flatMap.1 h
  rw [Table.single] at hr
  split at hr
  · exact hr
  · cases hr

theorem comma_bob : comma ∉ ([98, 111, 98] : Str) := by decide

theorem newline_bob : newline ∉ ([98, 111, 98] : Str) := by decide

theorem sum_bob : (([98, 111, 98] : Str).map UInt8.toNat).sum ≤ 307 := le_of_eq rfl

/-- A row of the name `bob`. -/
def bobRow (val : Str) (h : newline ∉ val) : Row := ⟨[98, 111, 98], val, comma_bob, newline_bob, h⟩

theorem bobRow_keyed {val : Str} {h : newline ∉ val} : (bobRow val h).Keyed where
  nonempty := List.cons_ne_nil _ _
  ascii := by
    change ∀ c ∈ ([98, 111, 98] : Str), c.toNat < 128
    decide +kernel
  sum := sum_bob.trans_lt (by norm_num)

/-- Two rows of a name in the first block of one table, and one in the last block of the other. -/
theorem hash_join_bob :
    Meets (hashJoin (Table.files
      (Table.single 0 [bobRow [50] (by decide), bobRow [51] (by decide)])
      (Table.single 999 [bobRow [52] (by decide)]))) fun s =>
      (lines newline s.output : Multiset Str) = joinRows
        (Table.single 0 [bobRow [50] (by decide), bobRow [51] (by decide)]).rows
        (Table.single 999 [bobRow [52] (by decide)]).rows := by
  refine hash_join (stored_files _ _) (fun r hr => ?_) fun r hr => ?_
  · rcases List.mem_cons.1 (mem_rows_single hr) with rfl | hr
    · exact bobRow_keyed
    · obtain rfl := List.mem_singleton.1 hr
      exact bobRow_keyed
  · obtain rfl := List.mem_singleton.1 (mem_rows_single hr)
    exact bobRow_keyed

/-- The tables of `hash_join_bob`. -/
theorem hashFunc_mem_bob :
    (∀ name, 2 ≤ hashFunc name ∧ hashFunc name ≤ 11 ↔ 0 ≤ letterSum name ∨ 10 ∣ letterSum name) ∧
      ((∀ r ∈ (Table.single 0 [bobRow [50] (by decide)]).rows, Placed r.name) →
        Meets ((List.range blocks).foldlM partition
            (opened (Table.files (Table.single 0 [bobRow [50] (by decide)]) (Table.single 0 []))))
          (Building (Table.single 0 [bobRow [50] (by decide)]) (Table.single 0 [])
            (Table.single 0 [bobRow [50] (by decide)]).rows)) :=
  hashFunc_mem_iff (stored_files _ _)

/-- The letter `é`, in UTF-8: its place is before the array. -/
theorem hashFunc_accent : ¬(2 ≤ hashFunc [195, 169] ∧ hashFunc [195, 169] ≤ 11) := by
  decide +kernel

end JoinOperation
