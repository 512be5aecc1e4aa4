import CourseProjects.Prob2.Modes
import CourseProjects.Lib.Run

/-!
# Streams that encrypt

`EncryptWriter` and `DecryptReader` of `prob2`, around a file of characters. The writer encodes the
array of its caller in place, and the reader decodes all of the range that it was asked to fill, not
only the part that was read.

* `transparent_iff`: when writing ranges of an array and reading the file back gives the characters of
  the ranges and touches nothing else;
* `decrypted_iff`: when it gives these characters.
-/

namespace Prob2

open Slice

/-- The two modes of the program. -/
inductive Mode
  | caesar
  | reverse

namespace Mode

def cipher : Mode → Cipher
  | caesar => Caesar.cipher
  | reverse => Reverse.cipher

def encryptMode : Mode → EncryptMode
  | caesar => Caesar.mode
  | reverse => Reverse.mode

theorem encryptMode_eq (m : Mode) : m.encryptMode = m.cipher.mode := by
  rcases m with _ | _ <;> rfl

end Mode

/-- A range of an array. -/
structure Range where
  off : ℕ
  len : ℕ

/-! ### The writer -/

/-- `FileWriter.write`: the characters of a range are appended to the file. -/
def FileWriter.write (file c : List UInt16) (off len : ℕ) : Except Exn (List UInt16) :=
  if off + len ≤ c.length then pure (file ++ slice c off len) else throw .indexOutOfBounds

/-- `writer` is what the file holds, and `encryptMode` is null before `setMode`. -/
structure EncryptWriter where
  encryptMode : Option EncryptMode
  writer : List UInt16

namespace EncryptWriter

def new : EncryptWriter := ⟨none, []⟩

def setMode (w : EncryptWriter) (m : EncryptMode) : EncryptWriter := { w with encryptMode := some m }

/-- The array after the call, and the writer. -/
def write (w : EncryptWriter) (cbuf : List UInt16) (off len : ℕ) :
    Except Exn (List UInt16 × EncryptWriter) :=
  match w.encryptMode with
  | none => throw .nullPointer
  | some m => do
    let c ← m.encode cbuf off len
    let writer ← FileWriter.write w.writer c off len
    pure (c, { w with writer := writer })

/-- A call of `write` with a range of the array of the caller, who does not change it in between. -/
def call (s : List UInt16 × EncryptWriter) (r : Range) :
    Except Exn (Unit × List UInt16 × EncryptWriter) := do
  let s ← s.2.write s.1 r.off r.len
  pure ((), s)

end EncryptWriter

/-- The slices that are written to ranges of an array, one after the other, when each call encodes
    its range of the array. -/
def passed (enc : UInt16 → UInt16) : List UInt16 → List Range → List UInt16
  | _, [] => []
  | a, r :: rs => slice a r.off r.len ++ passed enc (recode enc a r.off r.len) rs

theorem Cipher.enc_space (m : Cipher) : m.enc 32 = 32 := (m.enc_eq_self_iff 32).2 (by decide)

theorem Cipher.dec_space (m : Cipher) : m.dec 32 = 32 := (m.dec_eq_self_iff 32).2 (by decide)

namespace EncryptWriter

variable {m : Cipher} {a f : List UInt16} {r : Range} {rs : List Range}

/-- A call of `write` encodes the range in the array, and appends it to the f. -/
theorem write_eq (h : r.off + r.len ≤ a.length) :
    write ⟨some m.mode, f⟩ a r.off r.len = .ok (recode m.enc a r.off r.len,
      ⟨some m.mode, f ++ (slice a r.off r.len).map m.enc⟩) := by
  have hloop : m.mode.encode a r.off r.len = .ok (recode m.enc a r.off r.len) :=
    overRange_eq m.enc_space h
  have hfile : FileWriter.write f (recode m.enc a r.off r.len) r.off r.len =
      .ok (f ++ (slice a r.off r.len).map m.enc) := by
    rw [FileWriter.write, if_pos (by rwa [length_recode]), slice_recode le_rfl]
    rfl
  change (m.mode.encode a r.off r.len >>= fun c => FileWriter.write f c r.off r.len >>= _) = _
  rw [hloop]
  change (FileWriter.write f (recode m.enc a r.off r.len) r.off r.len >>= _) = _
  rw [hfile]
  rfl

theorem call_eq (h : r.off + r.len ≤ a.length) :
    call (a, ⟨some m.mode, f⟩) r = .ok ((), recode m.enc a r.off r.len,
      ⟨some m.mode, f ++ (slice a r.off r.len).map m.enc⟩) := by
  rw [call, write_eq h]
  rfl

/-- What the f holds after calls of `write`. -/
theorem run_call (h : ∀ r ∈ rs, r.off + r.len ≤ a.length) :
    ∃ us b, Run.run call (a, ⟨some m.mode, f⟩) rs =
      .ok (us, b, ⟨some m.mode, f ++ (passed m.enc a rs).map m.enc⟩) := by
  induction rs generalizing a f with
  | nil => exact ⟨[], a, by rw [passed, List.map_nil, List.append_nil]; rfl⟩
  | cons r rs ih =>
    obtain ⟨us, b, hrun⟩ := ih (a := recode m.enc a r.off r.len)
      (f := f ++ (slice a r.off r.len).map m.enc)
      fun r' hr' => by rw [length_recode]; exact h r' (List.mem_cons_of_mem _ hr')
    refine ⟨() :: us, b, ?_⟩
    rw [Run.run_cons_ok (call_eq (h r List.mem_cons_self)), hrun, passed, List.map_append,
      List.append_assoc]
    rfl

/-- The calls leave the array as it is when there are no letters in the ranges. -/
theorem along_iff (h : ∀ r ∈ rs, r.off + r.len ≤ a.length) :
    Run.Along call (fun s r => ∀ cbuf w, s.2.write s.1 r.off r.len = .ok (cbuf, w) → cbuf = s.1)
      (a, ⟨some m.mode, f⟩) rs ↔ ∀ r ∈ rs, ∀ ch ∈ slice a r.off r.len, ¬ IsLetter ch := by
  induction rs generalizing f with
  | nil => exact iff_of_true trivial fun _ hr => absurd hr List.not_mem_nil
  | cons r rs ih =>
    have hr := h r List.mem_cons_self
    have hrs := fun r' hr' => h r' (List.mem_cons_of_mem _ hr')
    have hself : recode m.enc a r.off r.len = a ↔ ∀ ch ∈ slice a r.off r.len, ¬ IsLetter ch := by
      simp only [recode_eq_self_iff, m.enc_eq_self_iff]
    rw [List.forall_mem_cons, ← hself, Run.Along]
    constructor
    · rintro ⟨hw, hnext⟩
      have ha := hw _ _ (write_eq hr)
      have := hnext _ _ (call_eq hr)
      rw [ha] at this
      exact ⟨ha, (ih hrs).1 this⟩
    · rintro ⟨ha, hnext⟩
      refine ⟨fun cbuf w hw => ?_, fun u s' hs' => ?_⟩
      · cases (write_eq hr).symm.trans hw
        exact ha
      · cases (call_eq hr).symm.trans hs'
        rw [ha]
        exact (ih hrs).2 hnext

end EncryptWriter

/-! ### The reader -/

/-- A call of `read`: the range of the array to fill, and how many characters the file would hand
    over. -/
structure ReadCall extends Range where
  cbuf : List UInt16
  n : ℕ

/-- The number of characters read, of `left` in the file. -/
def ReadCall.count (c : ReadCall) (left : ℕ) : ℕ := min (min c.n c.len) left

/-- `FileReader.read`: how many characters were read, the array, and what is left of the file. -/
def FileReader.read (file : List UInt16) (c : ReadCall) : Except Exn (ℤ × List UInt16 × List UInt16) :=
  if c.cbuf.length < c.off + c.len then throw .indexOutOfBounds
  else if 0 < c.len ∧ file = [] then pure (-1, c.cbuf, [])
  else
    let count := c.count file.length
    pure (count, splice c.cbuf c.off (file.take count), file.drop count)

/-- `reader` is what is left of the file. -/
structure DecryptReader where
  encryptMode : Option EncryptMode
  reader : List UInt16

namespace DecryptReader

def new (file : List UInt16) : DecryptReader := ⟨none, file⟩

def setMode (d : DecryptReader) (m : EncryptMode) : DecryptReader := { d with encryptMode := some m }

/-- The result of the call, the array after it, and the reader. -/
def read (d : DecryptReader) (c : ReadCall) : Except Exn (ℤ × List UInt16 × DecryptReader) := do
  let (result, cbuf, reader) ← FileReader.read d.reader c
  match d.encryptMode with
  | none => throw .nullPointer
  | some m => do
    let cbuf ← m.decode cbuf c.off c.len
    pure (result, cbuf, { d with reader := reader })

/-- A call of `read`, with the characters that it reports. -/
def call (d : DecryptReader) (c : ReadCall) : Except Exn (List UInt16 × DecryptReader) := do
  let (result, cbuf, d) ← d.read c
  pure (slice cbuf c.off result.toNat, d)

end DecryptReader

/-- The parts of ranges that reads do not fill hold no letters, with `left` characters in the
    file. -/
def Filled : ℕ → List ReadCall → Prop
  | _, [] => True
  | left, c :: cs =>
    (∀ ch ∈ slice c.cbuf (c.off + c.count left) (c.len - c.count left), ¬ IsLetter ch) ∧
      Filled (left - c.count left) cs

namespace ReadCall

variable {f : List UInt16} {c : ReadCall} {left : ℕ}

theorem count_le_len : c.count left ≤ c.len := (min_le_left _ _).trans (min_le_right _ _)

theorem length_take_count : (f.take (c.count f.length)).length = c.count f.length := by
  rw [List.length_take]
  exact min_eq_left (min_le_right _ _)

end ReadCall

namespace DecryptReader

variable {m : Cipher} {f : List UInt16} {c : ReadCall} {cs : List ReadCall}

/-- A call of `FileReader.read`, at the end of the f too. -/
theorem fileRead_eq (h : c.off + c.len ≤ c.cbuf.length) :
    ∃ result : ℤ, result.toNat = c.count f.length ∧ FileReader.read f c =
      .ok (result, splice c.cbuf c.off (f.take (c.count f.length)),
        f.drop (c.count f.length)) := by
  rw [FileReader.read, if_neg h.not_gt]
  split
  · rename_i hend
    obtain ⟨-, rfl⟩ := hend
    refine ⟨-1, by simp [ReadCall.count], ?_⟩
    have hsplice : splice c.cbuf c.off [] = c.cbuf := List.ext_getElem? fun i => by
      rw [getElem?_splice, if_neg fun hi => by simp at hi; omega]
    rw [List.take_nil, List.drop_nil, hsplice]
    rfl
  · exact ⟨c.count f.length, Int.toNat_natCast _, rfl⟩

/-- A call of `read` decodes the whole range of the array. -/
theorem read_eq (h : c.off + c.len ≤ c.cbuf.length) :
    ∃ result : ℤ, result.toNat = c.count f.length ∧ read ⟨some m.mode, f⟩ c =
      .ok (result, recode m.dec (splice c.cbuf c.off (f.take (c.count f.length))) c.off c.len,
        ⟨some m.mode, f.drop (c.count f.length)⟩) := by
  obtain ⟨result, hresult, hread⟩ := fileRead_eq (f := f) h
  refine ⟨result, hresult, ?_⟩
  have hloop : ∀ a : List UInt16, a.length = c.cbuf.length →
      m.mode.decode a c.off c.len = .ok (recode m.dec a c.off c.len) := fun a ha =>
    overRange_eq m.dec_space (ha ▸ h)
  rw [read, hread]
  change (m.mode.decode _ c.off c.len >>= _) = _
  rw [hloop _ length_splice]
  rfl

/-- The characters that a call reports are those taken from the f, decoded. -/
theorem call_eq (h : c.off + c.len ≤ c.cbuf.length) :
    call ⟨some m.mode, f⟩ c = .ok ((f.take (c.count f.length)).map m.dec,
      ⟨some m.mode, f.drop (c.count f.length)⟩) := by
  obtain ⟨result, hresult, hread⟩ := read_eq (m := m) (f := f) h
  rw [call, hread]
  change Except.ok (slice (recode m.dec _ c.off c.len) c.off result.toNat, _) = _
  have hle : c.count f.length ≤ c.len := ReadCall.count_le_len
  have hlen : (f.take (c.count f.length)).length = c.count f.length :=
    ReadCall.length_take_count
  have hsplice : slice (splice c.cbuf c.off (f.take (c.count f.length))) c.off
      (f.take (c.count f.length)).length = f.take (c.count f.length) :=
    slice_splice_self (by omega)
  rw [hlen] at hsplice
  rw [hresult, slice_recode hle, hsplice]

/-- What a call leaves of the array around what it reports. -/
theorem read_frame (h : c.off + c.len ≤ c.cbuf.length) {result : ℤ} {cbuf : List UInt16}
    {d : DecryptReader} (hread : read ⟨some m.mode, f⟩ c = .ok (result, cbuf, d)) :
    (∀ i, ¬ (c.off ≤ i ∧ i < c.off + result.toNat) → cbuf[i]? = c.cbuf[i]?) ↔
      ∀ ch ∈ slice c.cbuf (c.off + c.count f.length) (c.len - c.count f.length),
        ¬ IsLetter ch := by
  obtain ⟨r, hr, hread'⟩ := read_eq (m := m) (f := f) h
  obtain ⟨rfl, rfl, rfl⟩ : r = result ∧ _ = cbuf ∧ _ = d := by
    simpa using hread'.symm.trans hread
  have hle : c.count f.length ≤ c.len := ReadCall.count_le_len
  have hlen : (f.take (c.count f.length)).length = c.count f.length :=
    ReadCall.length_take_count
  have hat : ∀ i, ¬ (c.off ≤ i ∧ i < c.off + r.toNat) →
      (recode m.dec (splice c.cbuf c.off (f.take (c.count f.length))) c.off c.len)[i]? =
        if c.off ≤ i ∧ i < c.off + c.len then c.cbuf[i]?.map m.dec else c.cbuf[i]? := by
    intro i hi
    have hkept : (splice c.cbuf c.off (f.take (c.count f.length)))[i]? = c.cbuf[i]? := by
      rw [getElem?_splice, if_neg (by omega)]
    rw [getElem?_recode, hkept]
  constructor
  · intro hkeep ch hch
    obtain ⟨i, hlo, hhi, hi⟩ := mem_slice.1 hch
    have := (hat i (by omega)).symm.trans (hkeep i (by omega))
    rw [if_pos (by omega), hi, Option.map_some, Option.some.injEq] at this
    exact (m.dec_eq_self_iff ch).1 this
  · intro hplain i hi
    rw [hat i hi]
    split
    · rcases hch : c.cbuf[i]? with _ | ch
      · rfl
      · have hnot := hplain ch (mem_slice.2 ⟨i, by omega, by omega, hch⟩)
        rw [Option.map_some, (m.dec_eq_self_iff ch).2 hnot]
    · rfl

/-- What the reads report, one after the other. -/
theorem run_call (h : ∀ c ∈ cs, c.off + c.len ≤ c.cbuf.length) :
    ∃ os d, Run.run call ⟨some m.mode, f⟩ cs = .ok (os, d) ∧
      os.flatten = (f.take (cs.map fun c => min c.n c.len).sum).map m.dec := by
  induction cs generalizing f with
  | nil => exact ⟨[], _, rfl, rfl⟩
  | cons c cs ih =>
    obtain ⟨os, d, hrun, hos⟩ := ih (f := f.drop (c.count f.length))
      fun c' hc' => h c' (List.mem_cons_of_mem _ hc')
    refine ⟨(f.take (c.count f.length)).map m.dec :: os, d, ?_, ?_⟩
    · rw [Run.run_cons_ok (call_eq (h c List.mem_cons_self)), hrun]
      rfl
    · rw [List.flatten_cons, hos, ← List.map_append, List.map_cons, List.sum_cons]
      -- At the end of the f, less is read than asked for.
      rcases Nat.le_total (min c.n c.len) f.length with hle | hle
      · rw [ReadCall.count, min_eq_left hle, List.take_add]
      · rw [ReadCall.count, min_eq_right hle, List.drop_length, List.take_nil, List.append_nil,
          List.take_length, List.take_of_length_le (hle.trans (Nat.le_add_right _ _))]

/-- The reads keep the arrays around what they report when there are no letters there. -/
theorem along_iff (h : ∀ c ∈ cs, c.off + c.len ≤ c.cbuf.length) :
    Run.Along call (fun d c => ∀ result cbuf d', d.read c = .ok (result, cbuf, d') →
      ∀ i, ¬ (c.off ≤ i ∧ i < c.off + result.toNat) → cbuf[i]? = c.cbuf[i]?)
      ⟨some m.mode, f⟩ cs ↔ Filled f.length cs := by
  induction cs generalizing f with
  | nil => exact Iff.rfl
  | cons c cs ih =>
    have hc := h c List.mem_cons_self
    have hcs := fun c' hc' => h c' (List.mem_cons_of_mem _ hc')
    obtain ⟨result, -, hread⟩ := read_eq (m := m) (f := f) hc
    rw [Run.Along, Filled, ← List.length_drop, ← ih hcs]
    refine and_congr ⟨fun hw => (read_frame hc hread).1 (hw _ _ _ hread),
      fun hplain result cbuf d' hr => (read_frame hc hr).2 hplain⟩ ⟨fun hnext => ?_, ?_⟩
    · exact hnext _ _ (call_eq hc)
    · rintro hnext os d hcall
      cases (call_eq hc).symm.trans hcall
      exact hnext

end DecryptReader

/-! ### Writing and reading back -/

/-- Ranges of an array are written with a mode, and the file is read back with it to the end. -/
structure Exchange where
  mode : Mode
  cbuf : List UInt16
  writes : List Range
  reads : List ReadCall
  writes_fit : ∀ r ∈ writes, r.off + r.len ≤ cbuf.length
  reads_fit : ∀ c ∈ reads, c.off + c.len ≤ c.cbuf.length
  reads_all : (writes.map Range.len).sum ≤ (reads.map fun c => min c.n c.len).sum

namespace Exchange

variable (x : Exchange)

/-- The writer before the first call. -/
def writer : List UInt16 × EncryptWriter := (x.cbuf, EncryptWriter.new.setMode x.mode.encryptMode)

/-- The reader before the first call. -/
def reader (file : List UInt16) : DecryptReader :=
  (DecryptReader.new file).setMode x.mode.encryptMode

/-- What the file holds after the writes. -/
def file : Except Exn (List UInt16) := do
  let (_, _, w) ← Run.run EncryptWriter.call x.writer x.writes
  pure w.writer

/-- The characters that the reads report, one read after the other. -/
def reported : Except Exn (List UInt16) := do
  let (os, _) ← Run.run DecryptReader.call (x.reader (← x.file)) x.reads
  pure os.flatten

/-- The characters of the ranges come back, and no call changes an element that it does not report
    as read. -/
structure Transparent : Prop where
  reported : x.reported = .ok (x.writes.flatMap fun r => slice x.cbuf r.off r.len)
  written : Run.Along EncryptWriter.call
    (fun s r => ∀ cbuf w, s.2.write s.1 r.off r.len = .ok (cbuf, w) → cbuf = s.1) x.writer x.writes
  read : ∀ file, x.file = .ok file → Run.Along DecryptReader.call
    (fun d c => ∀ result cbuf d', d.read c = .ok (result, cbuf, d') →
      ∀ i, ¬ (c.off ≤ i ∧ i < c.off + result.toNat) → cbuf[i]? = c.cbuf[i]?) (x.reader file) x.reads

variable {x}

theorem file_eq : x.file = .ok ((passed x.mode.cipher.enc x.cbuf x.writes).map x.mode.cipher.enc) := by
  obtain ⟨us, b, hrun⟩ := EncryptWriter.run_call (m := x.mode.cipher) (f := []) x.writes_fit
  rw [file, writer, EncryptWriter.setMode, EncryptWriter.new, Mode.encryptMode_eq, hrun]
  rfl

/-- The writes put as many characters into the file as there are in the ranges. -/
theorem length_passed {f : UInt16 → UInt16} {a : List UInt16} {rs : List Range}
    (h : ∀ r ∈ rs, r.off + r.len ≤ a.length) :
    (passed f a rs).length = (rs.map Range.len).sum := by
  induction rs generalizing a with
  | nil => rfl
  | cons r rs ih =>
    have hrs := fun r' hr' => h r' (List.mem_cons_of_mem _ hr')
    rw [passed, List.length_append, length_slice (h r List.mem_cons_self), List.map_cons,
      List.sum_cons, ih fun r' hr' => by rw [length_recode]; exact hrs r' hr']

/-- The reads report the slices that were passed to the calls of `write`. -/
theorem reported_eq : x.reported = .ok (passed x.mode.cipher.enc x.cbuf x.writes) := by
  obtain ⟨os, d, hrun, hos⟩ := DecryptReader.run_call (m := x.mode.cipher)
    (f := (passed x.mode.cipher.enc x.cbuf x.writes).map x.mode.cipher.enc) x.reads_fit
  have hall : os.flatten = passed x.mode.cipher.enc x.cbuf x.writes := by
    rw [hos, List.take_of_length_le (by
      rw [List.length_map, length_passed x.writes_fit]; exact x.reads_all), List.map_map]
    exact (List.map_congr_left fun ch _ => x.mode.cipher.dec_enc ch).trans (List.map_id _)
  rw [reported, file_eq]
  change (Run.run DecryptReader.call (x.reader _) x.reads >>= _) = _
  rw [reader, DecryptReader.setMode, DecryptReader.new, Mode.encryptMode_eq, hrun]
  exact congrArg _ hall

/-- Two ranges have no letter of the array in common. -/
def Apart (a : List UInt16) (r r' : Range) : Prop :=
  ∀ i, r.off ≤ i → i < r.off + r.len → r'.off ≤ i → i < r'.off + r'.len →
    ∀ ch, a[i]? = some ch → ¬ IsLetter ch

/-- Of an array where one range is encoded, another range is as it was when the two have no letter in
    common. -/
theorem slice_recode_eq_iff (m : Cipher) {a b : List UInt16} {r r' : Range}
    (hr : slice b r.off r.len = slice a r.off r.len) :
    slice (recode m.enc b r.off r.len) r'.off r'.len = slice a r'.off r'.len ↔
      slice b r'.off r'.len = slice a r'.off r'.len ∧ Apart a r r' := by
  rw [slice_eq_iff] at hr
  rw [slice_eq_iff, slice_eq_iff]
  constructor
  · intro h
    refine ⟨fun i hlo hhi => ?_, fun i hlo hhi hlo' hhi' ch hch hletter => ?_⟩
    · by_cases hi : r.off ≤ i ∧ i < r.off + r.len
      · exact hr i hi.1 hi.2
      · have := h i hlo hhi
        rwa [getElem?_recode, if_neg hi] at this
    · have := h i hlo' hhi'
      rw [getElem?_recode, if_pos ⟨hlo, hhi⟩, hr i hlo hhi, hch, Option.map_some,
        Option.some.injEq] at this
      exact (m.enc_eq_self_iff ch).1 this hletter
  · rintro ⟨h, hapart⟩ i hlo hhi
    rw [getElem?_recode]
    split
    · rename_i hi
      rw [hr i hi.1 hi.2]
      rcases hch : a[i]? with _ | ch
      · rfl
      · have hnot := hapart i hi.1 hi.2 hlo hhi ch hch
        rw [Option.map_some, (m.enc_eq_self_iff ch).2 hnot]
    · exact h i hlo hhi

/-- The slices that are passed are those of the array when the ranges are still as they were, and no
    letter is encoded twice. -/
theorem passed_eq_iff (m : Cipher) {a b : List UInt16} {rs : List Range}
    (ha : ∀ r ∈ rs, r.off + r.len ≤ a.length) (hb : b.length = a.length) :
    passed m.enc b rs = (rs.flatMap fun r => slice a r.off r.len) ↔
      (∀ r ∈ rs, slice b r.off r.len = slice a r.off r.len) ∧ rs.Pairwise (Apart a) := by
  induction rs generalizing b with
  | nil => exact iff_of_true rfl ⟨fun _ hr => absurd hr List.not_mem_nil, .nil⟩
  | cons r rs ih =>
    have hr := ha r List.mem_cons_self
    have hlen : (slice b r.off r.len).length = (slice a r.off r.len).length := by
      rw [length_slice hr, length_slice (hb ▸ hr)]
    have hih := ih (b := recode m.enc b r.off r.len)
      (fun r' hr' => ha r' (List.mem_cons_of_mem _ hr')) (length_recode.trans hb)
    have happ : ∀ s t : List UInt16, slice b r.off r.len ++ s = slice a r.off r.len ++ t ↔
        slice b r.off r.len = slice a r.off r.len ∧ s = t := fun s t =>
      ⟨fun h => List.append_inj h hlen, fun h => congrArg₂ _ h.1 h.2⟩
    rw [passed, List.flatMap_cons, happ, hih, List.forall_mem_cons, List.pairwise_cons]
    constructor
    · rintro ⟨hself, hrs, hp⟩
      have hboth := fun r' hr' => (slice_recode_eq_iff m hself).1 (hrs r' hr')
      exact ⟨⟨hself, fun r' hr' => (hboth r' hr').1⟩, fun r' hr' => (hboth r' hr').2, hp⟩
    · rintro ⟨⟨hself, hrs⟩, hapart, hp⟩
      refine ⟨hself, fun r' hr' => ?_, hp⟩
      exact (slice_recode_eq_iff m hself).2 ⟨hrs r' hr', hapart r' hr'⟩

/-- The characters of the ranges come back exactly when no letter of the array is written twice. -/
theorem decrypted_iff (x : Exchange) :
    x.reported = .ok (x.writes.flatMap fun r => slice x.cbuf r.off r.len) ↔
      x.writes.Pairwise (Apart x.cbuf) := by
  rw [reported_eq, Except.ok.injEq, passed_eq_iff x.mode.cipher x.writes_fit rfl]
  exact and_iff_right fun _ _ => rfl

/-- Writing and reading back is transparent exactly when there are no letters in the ranges that are
    written, nor in the parts of ranges that the reads do not fill. -/
theorem transparent_iff (x : Exchange) : x.Transparent ↔
    (∀ r ∈ x.writes, ∀ ch ∈ slice x.cbuf r.off r.len, ¬ IsLetter ch) ∧
      Filled (x.writes.map Range.len).sum x.reads := by
  have hwriter : x.writer = (x.cbuf, ⟨some x.mode.cipher.mode, []⟩) := by
    rw [writer, EncryptWriter.setMode, Mode.encryptMode_eq]
    rfl
  have hreader : ∀ f, x.reader f = ⟨some x.mode.cipher.mode, f⟩ := fun f => by
    rw [reader, DecryptReader.setMode, Mode.encryptMode_eq]
    rfl
  have hlen : ((passed x.mode.cipher.enc x.cbuf x.writes).map x.mode.cipher.enc).length =
      (x.writes.map Range.len).sum := by
    rw [List.length_map, length_passed x.writes_fit]
  constructor
  · rintro ⟨-, hwritten, hread⟩
    rw [hwriter, EncryptWriter.along_iff x.writes_fit] at hwritten
    have hread := hread _ file_eq
    rw [hreader, DecryptReader.along_iff x.reads_fit, hlen] at hread
    exact ⟨hwritten, hread⟩
  · rintro ⟨hplain, hfilled⟩
    refine ⟨?_, ?_, fun f hf => ?_⟩
    · refine x.decrypted_iff.2 (List.pairwise_of_forall_mem_list fun r hr r' _ => ?_)
      intro i hlo hhi _ _ ch hch
      exact hplain r hr ch (mem_slice.2 ⟨i, hlo, hhi, hch⟩)
    · rw [hwriter, EncryptWriter.along_iff x.writes_fit]
      exact hplain
    · obtain rfl := Except.ok.inj (file_eq.symm.trans hf)
      rw [hreader, DecryptReader.along_iff x.reads_fit, hlen]
      exact hfilled

/-- The letter a is written twice, and read back into an array of three characters. -/
def twice : Exchange where
  mode := .caesar
  cbuf := [97]
  writes := [⟨0, 1⟩, ⟨0, 1⟩]
  reads := [⟨⟨0, 3⟩, [98, 98, 98], 3⟩]
  writes_fit := by simp
  reads_fit := by simp
  reads_all := by simp

theorem twice_not_transparent :
    twice.reported = .ok [97, 120] ∧
      (twice.writes.flatMap fun r => slice twice.cbuf r.off r.len) = [97, 97] ∧
      ¬ twice.Transparent := by
  have h : twice.reported = .ok [97, 120] := rfl
  refine ⟨h, rfl, fun ht => ?_⟩
  exact absurd (Except.ok.inj (h.symm.trans ht.reported)) (by decide)

end Exchange
end Prob2
