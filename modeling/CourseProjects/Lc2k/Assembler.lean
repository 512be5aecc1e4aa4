import CourseProjects.Lc2k.Isa

/-!
# The assembler

The two passes of `assemble.c`. The first enters the labels in a table, the second
translates a line at a time into the word at its address.

A string is the list of its characters before the terminator, and a source file is
the list of its lines. The assembler ends with an exit status and what it printed
last (`Stop.exit`), or with the words it writes to the machine-code file once both
passes are through. A store past `labels` or `vm` is undefined (`Stop.fault`). What
it prints besides is left out, as are the checks of the command line.

A label is stored at the index of its line, and the other entries of the table are
empty strings; `find_idx` searches a given number of entries from the first one on.
-/

namespace CourseProjects.Lc2k.Assembler

/-- A C string. -/
abbrev Str := List Char

/-- The `MAXLINELENGTH` and the `MAXLABEL`. -/
abbrev maxLineLength : ℕ := 1000
abbrev maxLabel : ℕ := 987654

/-- A line of the source file. Only the last one can lack its newline. -/
structure Line where
  text : Str
  newline : Bool
  noNewline : '\n' ∉ text
  noNul : '\x00' ∉ text

/-- The fields of a line. -/
structure Fields where
  label : Str
  opcode : Str
  arg0 : Str
  arg1 : Str
  arg2 : Str
  deriving DecidableEq

/-- How the assembler ends without a machine-code file. -/
inductive Stop
  | exit (status : ℕ) (printed : String)
  | fault
  deriving DecidableEq

/-! ### Lines -/

/-- The characters between the fields. -/
def isDelim (c : Char) : Bool := c = '\t' || c = '\n' || c = '\r' || c = ' '

/-- `%*[\t\n\r ]%[^\t\n\r ]`: the next field, and what follows it. -/
def scanField (ptr : Str) : Str × Str :=
  (ptr.dropWhile isDelim).span fun c => !isDelim c

/-- The two `sscanf` of `readAndParse`. -/
def parse (line : Str) : Fields :=
  let (label, ptr) := line.span fun c => !isDelim c
  let (opcode, ptr) := scanField ptr
  let (arg0, ptr) := scanField ptr
  let (arg1, ptr) := scanField ptr
  let (arg2, _) := scanField ptr
  { label, opcode, arg0, arg1, arg2 }

/-- What `fgets` reads of a line. -/
def Line.read (l : Line) : Str :=
  (if l.newline then l.text ++ ['\n'] else l.text).take (maxLineLength - 1)

/-- The line does not fit the buffer, or lacks its newline. -/
def Line.TooLong (l : Line) : Prop := '\n' ∉ l.read

instance (l : Line) : Decidable l.TooLong := inferInstanceAs (Decidable (¬ _))

/-- The fields of a line. -/
def Line.fields (l : Line) : Fields := parse l.read

/-- `readAndParse`, on a line. -/
def readAndParse (l : Line) : Except Stop Fields :=
  if l.TooLong then .error (.exit 1 "error: line too long\n")
  else .ok l.fields

/-! ### Numbers -/

/-- The `isspace` of the C library. -/
def isSpace (c : Char) : Bool := c = ' ' || ('\t' ≤ c && c ≤ '\r')

/-- The value of the decimal digits a string starts with. -/
def magnitude (str : Str) : Option ℕ :=
  match str.takeWhile Char.isDigit with
  | [] => none
  | digits => some (digits.foldl (fun n c => 10 * n + (c.toNat - '0'.toNat)) 0)

/-- The number a string starts with: blanks, a sign, and digits. -/
def number (str : Str) : Option ℤ :=
  match str.dropWhile isSpace with
  | '-' :: str => (magnitude str).map fun n => -n
  | '+' :: str => (magnitude str).map fun n => n
  | str => (magnitude str).map fun n => n

/-- `isNumber`: `sscanf` finds a number. -/
def isNumber (str : Str) : Bool := (number str).isSome

/-- The `atoi` of the C library: a `long`, saturated, cut to an `int`. -/
def atoi (str : Str) : Word :=
  BitVec.ofInt 32 (max (-2 ^ 63) (min (2 ^ 63 - 1) ((number str).getD 0)))

/-! ### The label table -/

/-- The array `labels`. -/
abbrev Labels := ℕ → Str

/-- `find_idx`; `none` is its `-1`. -/
def findIdx (labels : Labels) (lName : Str) (ed : ℕ) : Option ℕ :=
  (List.range ed).find? fun i => labels i = lName

/-- A line of the first pass. -/
def enterLabel (labels : Labels) (line : ℕ) (f : Fields) : Except Stop Labels :=
  if 6 < f.label.length then .error (.exit 1 "error: label length over 6\n")
  else if f.label = [] then .ok labels
  else if (findIdx labels f.label (maxLabel - 1)).isSome then
    .error (.exit 1 ("error: duplicate labels: " ++ String.ofList f.label ++ "\n"))
  else if line < maxLabel then .ok (Function.update labels line f.label)
  else .error .fault

/-- The first pass from a line on. -/
def firstPass : Labels → ℕ → List Line → Except Stop Labels
  | labels, _, [] => .ok labels
  | labels, line, l :: ls => do
    let f ← readAndParse l
    let labels ← enterLabel labels line f
    firstPass labels (line + 1) ls

/-! ### The second pass -/

abbrev ADD : Word := 0x00000000
abbrev NOR : Word := 0x00400000
abbrev LW : Word := 0x00800000
abbrev SW : Word := 0x00C00000
abbrev BEQ : Word := 0x01000000
abbrev JALR : Word := 0x01400000
abbrev HALT : Word := 0x01800000
abbrev NOOP : Word := 0x01C00000

/-- The `type` of an opcode. -/
inductive Format
  | R
  | I
  | J
  | O
  | fill
  deriving DecidableEq

/-- The `op` and the `type` of an opcode. -/
def classify (opcode : Str) : Option (Word × Format) :=
  if opcode = "add".toList then some (ADD, .R)
  else if opcode = "nor".toList then some (NOR, .R)
  else if opcode = "lw".toList then some (LW, .I)
  else if opcode = "sw".toList then some (SW, .I)
  else if opcode = "beq".toList then some (BEQ, .I)
  else if opcode = "jalr".toList then some (JALR, .J)
  else if opcode = "noop".toList then some (NOOP, .O)
  else if opcode = "halt".toList then some (HALT, .O)
  else if opcode = ".fill".toList then some (0, .fill)
  else none

/-- The R type. -/
def assembleR (f : Fields) : Except Stop Word :=
  if !isNumber f.arg0 || !isNumber f.arg1 || !isNumber f.arg2 then
    .error (.exit 1 "error: invalid arg at Rtype\n")
  else
    let r1 := atoi f.arg0 <<< 19
    let r2 := atoi f.arg1 <<< 16
    let offset := atoi f.arg2
    .ok (r1 ||| r2 ||| offset)

/-- The `offset` of the I type before it is checked, where `find` looks labels up. -/
def offsetOf (find : Str → Option ℕ) (op : Word) (pc : ℕ) (arg2 : Str) : Option Word :=
  if isNumber arg2 then some (atoi arg2)
  else (find arg2).map fun i =>
    if op = BEQ then BitVec.ofNat 32 i - (BitVec.ofNat 32 pc + 1) else BitVec.ofNat 32 i

/-- The I type. -/
def assembleI (labels : Labels) (op : Word) (pc : ℕ) (f : Fields) : Except Stop Word :=
  if !isNumber f.arg0 || !isNumber f.arg1 || f.arg2 = [] then
    .error (.exit 1 "error2: invalid arg in I type\n")
  else
    let r1 := atoi f.arg0 <<< 19
    let r2 := atoi f.arg1 <<< 16
    match offsetOf (fun s => findIdx labels s (maxLabel - 1)) op pc f.arg2 with
    | none => .error (.exit 1
        ("error: I type, no label match to given " ++ String.ofList f.arg2 ++ "\n"))
    | some offset =>
      if offset.slt (-32768) || (32767 : Word).slt offset then
        .error (.exit 1 "error: range of offset field is invalid\n")
      else
        let offset := if op = BEQ then offset &&& 0x0000FFFF else offset
        .ok (r1 ||| r2 ||| offset)

/-- The J type. -/
def assembleJ (pc : ℕ) (f : Fields) : Except Stop Word :=
  if !isNumber f.arg0 || !isNumber f.arg1 || f.arg2 = [] then
    .error (.exit 1 "error2: invalid arg in J type\n")
  else
    let r1 := atoi f.arg0 <<< 19
    let r2 := (BitVec.ofNat 32 pc + 1) <<< 16
    .ok (r1 ||| r2)

/-- `.fill`. A name that is not found is reported, and `-1` is its value. -/
def assembleFill (labels : Labels) (line : ℕ) (f : Fields) : Word :=
  if isNumber f.arg0 then atoi f.arg0
  else
    match findIdx labels f.arg0 line with
    | none => -1
    | some i => BitVec.ofNat 32 i

/-- The `result` of a line, by its type. -/
def assembleArgs (labels : Labels) (op : Word) (pc : ℕ) (f : Fields) : Format → Except Stop Word
  | .R => assembleR f
  | .I => assembleI labels op pc f
  | .J => assembleJ pc f
  | .O => .ok 0
  | .fill => .ok (assembleFill labels pc f)

/-- A line of the second pass: the word at the address `pc`. The variables `line` and
    `pc` of the source are always equal. -/
def assembleLine (labels : Labels) (pc : ℕ) (f : Fields) : Except Stop Word :=
  match classify f.opcode with
  | none => .error (.exit 1 "invalid opcode\n")
  | some (op, type) => (assembleArgs labels op pc f type).map fun result => op ||| result

/-- The second pass from a line on. -/
def secondPass (labels : Labels) : ℕ → List Line → Except Stop (List Word)
  | _, [] => .ok []
  | pc, l :: ls => do
    let f ← readAndParse l
    let w ← assembleLine labels pc f
    if pc < maxLabel then
      let ws ← secondPass labels (pc + 1) ls
      return w :: ws
    else .error .fault

/-- The assembler. -/
def assemble (inFile : List Line) : Except Stop (List Word) := do
  let labels ← firstPass (fun _ => []) 0 inFile
  secondPass labels 0 inFile

end CourseProjects.Lc2k.Assembler
