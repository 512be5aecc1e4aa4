import Mathlib

/-!
# Streams of text

What `getline` reads from a stream, and the flags that it sets. A text is a list of lines, each
with the delimiter after it (`text`).

* `getline_line`, `getline_end`: a line of a text, and the end of it;
* `lines_text`: a text has the lines that it is made of.
-/

namespace TextStream

/-- An input stream: the bytes that have not been read, `eofbit` and `failbit`. -/
structure IStream where
  rest : List UInt8
  eof : Bool
  fail : Bool

/-- Neither of the flags is set. -/
def IStream.good (s : IStream) : Bool := !s.eof && !s.fail

/-- A stream at the beginning of a text. -/
def IStream.ofText (bytes : List UInt8) : IStream := ⟨bytes, false, false⟩

theorem good_ofText (bytes : List UInt8) : (IStream.ofText bytes).good = true := rfl

/-- `getline` up to a delimiter: the string, and the stream. A stream that is not good leaves the
string as it is. -/
def IStream.getline (delim : UInt8) (s : IStream) (str : List UInt8) : List UInt8 × IStream :=
  if s.good then
    match s.rest.dropWhile (· ≠ delim) with
    | _ :: rest => (s.rest.takeWhile (· ≠ delim), ⟨rest, false, false⟩)
    | [] => (s.rest, ⟨[], true, s.rest.isEmpty⟩)
  else
    (str, { s with fail := true })

/-- Lines, each with a delimiter after it. -/
def text (delim : UInt8) (ls : List (List UInt8)) : List UInt8 := ls.flatMap (· ++ [delim])

/-- The lines of a text. -/
def lines (delim : UInt8) (bytes : List UInt8) : List (List UInt8) := (bytes.splitOn delim).dropLast

variable {delim : UInt8} {l rest str : List UInt8} {ls : List (List UInt8)}

theorem text_cons : text delim (l :: ls) = l ++ delim :: text delim ls := by
  rw [text, List.flatMap_cons, List.append_assoc]
  rfl

theorem text_singleton : text delim [l] = l ++ [delim] := by rw [text, List.flatMap_singleton]

theorem text_append {ls' : List (List UInt8)} :
    text delim (ls ++ ls') = text delim ls ++ text delim ls' := List.flatMap_append

/-- A line, and the delimiter after it. -/
theorem getline_line (h : delim ∉ l) :
    (IStream.ofText (l ++ delim :: rest)).getline delim str = (l, .ofText rest) := by
  have hl : ∀ a ∈ l, decide (a ≠ delim) = true := fun a ha =>
    decide_eq_true fun heq => h (heq ▸ ha)
  rw [IStream.getline, if_pos (good_ofText _)]
  simp only [IStream.ofText]
  rw [List.dropWhile_append_of_pos hl, List.takeWhile_append_of_pos hl,
    List.dropWhile_cons_of_neg (by simp), List.takeWhile_cons_of_neg (by simp), List.append_nil]

/-- What is left without a delimiter. -/
theorem getline_rest (h : delim ∉ l) :
    (IStream.ofText l).getline delim str = (l, ⟨[], true, l.isEmpty⟩) := by
  have hl : l.dropWhile (fun a => decide (a ≠ delim)) = [] :=
    List.dropWhile_eq_nil_iff.2 fun a ha => decide_eq_true fun heq => h (heq ▸ ha)
  rw [IStream.getline, if_pos (good_ofText _)]
  simp only [IStream.ofText]
  rw [hl]

/-- At the end of a text. -/
theorem getline_end : (IStream.ofText []).getline delim str = ([], ⟨[], true, true⟩) :=
  getline_rest List.not_mem_nil

/-- A stream at the end stays there. -/
theorem getline_of_eof {s : IStream} (h : s.eof = true) :
    s.getline delim str = (str, { s with fail := true }) := by
  rw [IStream.getline, if_neg]
  simp [IStream.good, h]

theorem lines_text (h : ∀ l ∈ ls, delim ∉ l) : lines delim (text delim ls) = ls := by
  have htext : text delim ls = [delim].intercalate (ls ++ [[]]) := by
    induction ls with
    | nil => rfl
    | cons l ls ih =>
      have hls := ih fun l hl => h l (List.mem_cons_of_mem _ hl)
      rw [text_cons, hls, List.cons_append]
      cases ls with
      | nil => simp [List.intercalate]
      | cons l' ls => simp [List.intercalate]
  rw [lines, htext, List.splitOn_intercalate delim ?_ (by simp), List.dropLast_concat]
  intro l hl
  rcases List.mem_append.1 hl with hl | hl
  · exact h l hl
  · rw [List.mem_singleton.1 hl]
    exact List.not_mem_nil

end TextStream
