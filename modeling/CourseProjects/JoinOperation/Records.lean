import CourseProjects.Lib.TextStream
import CourseProjects.Lib.While

/-!
# Tables in files

The tables `name_age` and `name_salary` are in a thousand files each, with a line for each row.
The programs read lines from streams, parse them and write lines.

* `parse_line`, `parse_nil`: what the parser makes of the line of a row, and of the empty string
  that `getline` leaves at the end of a file.
-/

namespace JoinOperation

open TextStream

/-- A string. -/
abbrev Str := List UInt8

/-- The delimiter of the fields. -/
abbrev comma : UInt8 := 44

/-- The delimiter of the lines. -/
abbrev newline : UInt8 := 10

/-! ### Records -/

/-- The two fields that are read from a line, and what they were before. -/
def parse (tuple name val : Str) : Str × Str :=
  let (name, tuplestr) := (IStream.ofText tuple).getline comma name
  let (val, _) := tuplestr.getline newline val
  (name, val)

/-- `class name_age`. -/
structure NameAge where
  name : Str
  age : Str

/-- `class name_salary`. -/
structure NameSalary where
  name : Str
  salary : Str

def NameAge.setNameAge (t : NameAge) (tuple : Str) : NameAge :=
  ⟨(parse tuple t.name t.age).1, (parse tuple t.name t.age).2⟩

def NameSalary.setNameSalary (t : NameSalary) (tuple : Str) : NameSalary :=
  ⟨(parse tuple t.name t.salary).1, (parse tuple t.name t.salary).2⟩

def makeTuple (name age salary : Str) : Str :=
  name ++ [comma] ++ age ++ [comma] ++ salary ++ [newline]

def makeDouble (name val : Str) : Str := name ++ [comma] ++ val ++ [newline]

/-! ### Files -/

/-- The files by their names: `./name_age/i.csv`, `./name_salary/i.csv` and `./hashi.csv`. -/
inductive File
  | nameAge (i : ℕ)
  | nameSalary (i : ℕ)
  | hash (i : ℕ)
  deriving DecidableEq

/-- What is in the files that exist. -/
abbrev Files := File → Option Str

/-- A stream and the file that it is open on. -/
structure FStream where
  file : Option File
  stream : IStream

namespace FStream

/-- A stream that has not been opened. -/
def init : FStream := ⟨none, .ofText []⟩

def isOpen (b : FStream) : Bool := b.file.isSome

def eof (b : FStream) : Bool := b.stream.eof

/-- `setstate(failbit)`. -/
def setFail (b : FStream) : FStream := { b with stream := { b.stream with fail := true } }

/-- `open` for reading, of a file that has to exist. The flags are cleared when it succeeds. -/
def openIn (files : Files) (f : File) (b : FStream) : FStream :=
  match b.file, files f with
  | none, some bytes => ⟨some f, .ofText bytes⟩
  | _, _ => b.setFail

/-- `close`. The flags stay. -/
def close (b : FStream) : FStream :=
  match b.file with
  | some _ => ⟨none, { b.stream with rest := [] }⟩
  | none => b.setFail

def getline (b : FStream) (str : Str) : Str × FStream :=
  let (line, stream) := b.stream.getline newline str
  (line, { b with stream := stream })

end FStream

/-! ### Tables -/

/-- A row, whose line can be split into its fields. -/
structure Row where
  name : Str
  val : Str
  comma_name : comma ∉ name
  newline_name : newline ∉ name
  newline_val : newline ∉ val

/-- The files of a table. -/
abbrev blocks : ℕ := 1000

/-- The rows of a table, block by block. -/
abbrev Table := ℕ → List Row

def Row.line (r : Row) : Str := r.name ++ comma :: r.val

/-- All the rows. -/
def Table.rows (t : Table) : List Row := (List.range blocks).flatMap t

/-- The tables are in the files. -/
structure Stored (age salary : Table) (files : Files) : Prop where
  age : ∀ i < blocks, files (.nameAge i) = some (text newline ((age i).map Row.line))
  salary : ∀ i < blocks, files (.nameSalary i) = some (text newline ((salary i).map Row.line))

/-- The files of two tables, and no others. -/
def Table.files (age salary : Table) : Files
  | .nameAge i => if i < blocks then some (text newline ((age i).map Row.line)) else none
  | .nameSalary i => if i < blocks then some (text newline ((salary i).map Row.line)) else none
  | .hash _ => none

theorem stored_files (age salary : Table) : Stored age salary (Table.files age salary) :=
  ⟨fun _ h => if_pos h, fun _ h => if_pos h⟩

/-- The line of two rows that are joined. -/
def joinLine (a s : Row) : Str := a.name ++ [comma] ++ a.val ++ [comma] ++ s.val

variable {a s r : Row} {name val : Str}

theorem Row.newline_line (r : Row) : newline ∉ r.line := by
  rw [line, List.mem_append, List.mem_cons]
  rintro (h | h | h)
  · exact r.newline_name h
  · cases h
  · exact r.newline_val h

theorem newline_joinLine (a s : Row) : newline ∉ joinLine a s := by
  simp only [joinLine, List.mem_append, List.mem_singleton, not_or]
  exact ⟨⟨⟨⟨a.newline_name, by decide⟩, a.newline_val⟩, by decide⟩, s.newline_val⟩

theorem makeDouble_eq (r : Row) : makeDouble r.name r.val = r.line ++ [newline] := by
  simp [makeDouble, Row.line]

/-- The line of a row is split into its fields, whatever they were before. -/
theorem parse_line (r : Row) : parse r.line name val = (r.name, r.val) := by
  rw [parse, Row.line]
  dsimp only
  rw [getline_line r.comma_name, getline_rest r.newline_val]

/-- The empty string leaves the second field as it was. -/
theorem parse_nil : parse [] name val = ([], val) := by
  rw [parse]
  dsimp only
  rw [getline_end, getline_of_eof rfl]

/-- A stream on the rows of a file that have not been read. -/
def FStream.reading (f : File) (rows : List Row) : FStream :=
  ⟨some f, .ofText (text newline (rows.map Row.line))⟩

variable {f : File} {rows : List Row} {str : Str}

/-- The next row. -/
theorem getline_reading_cons :
    (FStream.reading f (r :: rows)).getline str = (r.line, FStream.reading f rows) := by
  rw [FStream.getline, FStream.reading, List.map_cons, text_cons]
  dsimp only
  rw [getline_line r.newline_line]
  rfl

/-- After the last row. -/
theorem getline_reading_nil :
    (FStream.reading f []).getline str = ([], ⟨some f, [], true, true⟩) := by
  rw [FStream.getline, FStream.reading]
  change (((IStream.ofText []).getline newline str).1, _) = _
  rw [getline_end]
  rfl

end JoinOperation
