import CourseProjects.Lc2k.Encoding

/-!
# The labels of the assembler

What the two passes are to do with the labels of a program (`Resolves`), and what
each of them comes to, as conditions on the program alone that exclude each other:
it exits, it gets through, or it stores past its array (`firstPass_cases`,
`secondPass_cases`).

`lw`, `sw` and `beq` search their labels in the first `MAXLABEL - 1` entries of the
table (`lookup`), `.fill` in the entries of the lines before its own.
-/

namespace CourseProjects.Lc2k.Assembler

/-! ### Programs and their labels -/

/-- The label of a line, empty if it has none. -/
def labelAt (p : List Line) (n : ℕ) : Str :=
  match p[n]? with
  | some l => l.fields.label
  | none => []

/-- The operand is a name. -/
def named (arg : Str) : Option Str :=
  if isNumber arg ∨ arg = [] then none else some arg

/-- The symbolic operand of a line. -/
def Fields.symbol (f : Fields) : Option Str :=
  if f.opcode = "lw".toList ∨ f.opcode = "sw".toList ∨ f.opcode = "beq".toList then named f.arg2
  else if f.opcode = ".fill".toList then named f.arg0
  else none

/-- A label is defined twice, is too long, or is used and not defined. -/
def BadLabels (p : List Line) : Prop :=
  (∃ i j, i < j ∧ labelAt p i ≠ [] ∧ labelAt p i = labelAt p j) ∨
    (∃ i, 6 < (labelAt p i).length) ∨
    ∃ l ∈ p, ∃ s, l.fields.symbol = some s ∧ ∀ n, labelAt p n ≠ s

/-- The line at `pc` is to be rejected, where `find` looks labels up: for its opcode, for
    an operand that is missing or no number, or for its offset. -/
def Rejects (find : Str → Option ℕ) (pc : ℕ) (f : Fields) : Prop :=
  match classify f.opcode with
  | none => True
  | some (_, .R) => ¬ (isNumber f.arg0 ∧ isNumber f.arg1 ∧ isNumber f.arg2)
  | some (op, .I) => ¬ (isNumber f.arg0 ∧ isNumber f.arg1 ∧ f.arg2 ≠ [] ∧
      ∃ offset, offsetOf find op pc f.arg2 = some offset ∧
        -32768 ≤ offset.toInt ∧ offset.toInt ≤ 32767)
  | some (_, .J) => ¬ (isNumber f.arg0 ∧ isNumber f.arg1 ∧ f.arg2 ≠ [])
  | some (_, .O) | some (_, .fill) => False

/-- The line that defines a label. -/
def address (p : List Line) (s : Str) : Option ℕ :=
  findIdx (labelAt p) s p.length

/-- Some line is to be rejected. -/
def Malformed (p : List Line) : Prop :=
  ∃ n l, p[n]? = some l ∧ (l.TooLong ∨ Rejects (address p) n l.fields)

/-- The word at `pc` carries the address `k` of its symbolic operand: `.fill` is the
    address, `beq` has the distance to it as its offset, `lw` and `sw` have itself. -/
def Carries (f : Fields) (pc k : ℕ) (w : Word) : Prop :=
  if f.opcode = ".fill".toList then w = BitVec.ofNat 32 k
  else if f.opcode = "beq".toList then (w.setWidth 16).toInt = k - (pc + 1)
  else (w.setWidth 16).toInt = k

/-- There is a word for each line, and it carries the address of the line that defines its
    symbolic operand. -/
def Resolved (p : List Line) (words : List Word) : Prop :=
  words.length = p.length ∧
    ∀ n l w s k, p[n]? = some l → words[n]? = some w → l.fields.symbol = some s →
      labelAt p k = s → Carries l.fields n k w

/-- What the assembler is to do: exit with status 1 on a program with bad labels, and on
    any other write the words with all names resolved, unless a line is to be rejected. -/
def Resolves (p : List Line) (result : Except Stop (List Word)) : Prop :=
  (BadLabels p → ∃ printed, result = .error (.exit 1 printed)) ∧
    (¬ BadLabels p →
      (Malformed p ∧ ∃ printed, result = .error (.exit 1 printed)) ∨
        ∃ words, result = .ok words ∧ Resolved p words)

/-! ### The table -/

theorem findIdx_isSome_iff {labels : Labels} {s : Str} {ed : ℕ} :
    (findIdx labels s ed).isSome ↔ ∃ i < ed, labels i = s := by
  simp [findIdx, List.find?_isSome]

theorem findIdx_eq_some {labels : Labels} {s : Str} {ed i : ℕ}
    (h : findIdx labels s ed = some i) : i < ed ∧ labels i = s := by
  have hmem := List.mem_of_find?_eq_some h
  have hp := List.find?_some h
  exact ⟨List.mem_range.1 hmem, by simpa using hp⟩

/-- The table before the first pass reads the `n`-th line. -/
def entered (p : List Line) (n : ℕ) : Labels := fun i => if i < n then labelAt p i else []

theorem entered_of_le {p : List Line} {n : ℕ} (h : p.length ≤ n) : entered p n = labelAt p := by
  funext i
  unfold entered
  split
  · rfl
  · rw [labelAt, List.getElem?_eq_none (h.trans (Nat.not_lt.1 ‹_›))]

theorem entered_succ {p : List Line} (n : ℕ) :
    Function.update (entered p n) n (labelAt p n) = entered p (n + 1) := by
  funext i
  rcases Nat.lt_trichotomy i n with h | rfl | h
  · rw [Function.update_of_ne h.ne, entered, entered, if_pos h, if_pos (by omega)]
  · rw [Function.update_self, entered, if_pos (Nat.lt_succ_self i)]
  · rw [Function.update_of_ne h.ne', entered, entered, if_neg (by omega), if_neg (by omega)]

theorem entered_succ_of_nil {p : List Line} {n : ℕ} (h : labelAt p n = []) :
    entered p n = entered p (n + 1) := by
  rw [← entered_succ, h]
  refine (Function.update_eq_self_iff.2 ?_).symm
  rw [entered, if_neg (Nat.lt_irrefl n)]

theorem labelAt_eq {p : List Line} {n : ℕ} {l : Line} (h : p[n]? = some l) :
    labelAt p n = l.fields.label := by
  rw [labelAt, h]

/-- A line that the first pass refuses: its label is too long, or in the table. -/
def Refused (p : List Line) (n : ℕ) (l : Line) : Prop :=
  l.TooLong ∨ 6 < (labelAt p n).length ∨
    labelAt p n ≠ [] ∧ ∃ j < n, j < maxLabel - 1 ∧ labelAt p j = labelAt p n

/-! ### The first pass -/

/-- The first pass refuses a line before it stores past the table. -/
def RejectedFirst (p : List Line) (n : ℕ) : Prop :=
  ∃ k l, n ≤ k ∧ p[k]? = some l ∧ Refused p k l ∧
    ∀ j, n ≤ j → j < k → maxLabel ≤ j → labelAt p j = []

/-- The first pass gets through. -/
def PassesFirst (p : List Line) (n : ℕ) : Prop :=
  ∀ k l, n ≤ k → p[k]? = some l → ¬ Refused p k l ∧ (maxLabel ≤ k → labelAt p k = [])

/-- The first pass stores past the table. -/
def StuckFirst (p : List Line) (n : ℕ) : Prop :=
  ∃ k, n ≤ k ∧ maxLabel ≤ k ∧ labelAt p k ≠ [] ∧
    ∀ j l, n ≤ j → j ≤ k → p[j]? = some l → ¬ Refused p j l

/-- What entering the label of a line comes to. -/
theorem enterLabel_cases {p : List Line} {n : ℕ} {l : Line} (hl : p[n]? = some l)
    (hlong : ¬ l.TooLong) :
    (Refused p n l ∧ ∃ printed,
      enterLabel (entered p n) n l.fields = .error (.exit 1 printed)) ∨
    (¬ Refused p n l ∧ (maxLabel ≤ n → labelAt p n = []) ∧
      enterLabel (entered p n) n l.fields = .ok (entered p (n + 1))) ∨
    (¬ Refused p n l ∧ maxLabel ≤ n ∧ labelAt p n ≠ [] ∧
      enterLabel (entered p n) n l.fields = .error .fault) := by
  have hlab := labelAt_eq hl
  rw [enterLabel, ← hlab]
  by_cases h6 : 6 < (labelAt p n).length
  · rw [if_pos h6]
    exact .inl ⟨.inr (.inl h6), _, rfl⟩
  rw [if_neg h6]
  by_cases hnil : labelAt p n = []
  · rw [if_pos hnil, entered_succ_of_nil hnil]
    refine .inr (.inl ⟨?_, fun _ => hnil, rfl⟩)
    rintro (h | h | h)
    exacts [hlong h, h6 h, h.1 hnil]
  rw [if_neg hnil]
  have hfind : (findIdx (entered p n) (labelAt p n) (maxLabel - 1)).isSome ↔
      ∃ j < n, j < maxLabel - 1 ∧ labelAt p j = labelAt p n := by
    rw [findIdx_isSome_iff]
    constructor
    · rintro ⟨j, hj, he⟩
      rw [entered] at he
      split at he
      · exact ⟨j, ‹_›, hj, he⟩
      · exact absurd he.symm hnil
    · rintro ⟨j, hjn, hj, he⟩
      exact ⟨j, hj, by rw [entered, if_pos hjn, he]⟩
  by_cases hdup : ∃ j < n, j < maxLabel - 1 ∧ labelAt p j = labelAt p n
  · rw [if_pos (hfind.2 hdup)]
    exact .inl ⟨.inr (.inr ⟨hnil, hdup⟩), _, rfl⟩
  have hok : ¬ Refused p n l := by
    rintro (h | h | h)
    exacts [hlong h, h6 h, hdup h.2]
  rw [if_neg fun h => hdup (hfind.1 h)]
  by_cases hlt : n < maxLabel
  · rw [if_pos hlt, entered_succ]
    exact .inr (.inl ⟨hok, fun h => absurd h (Nat.not_le.2 hlt), rfl⟩)
  · rw [if_neg hlt]
    exact .inr (.inr ⟨hok, Nat.not_lt.1 hlt, hnil, rfl⟩)

theorem ok_bind {α β : Type} (a : α) (g : α → Except Stop β) : (Except.ok a >>= g) = g a := rfl

/-- The lines from the `n`-th on. -/
theorem getElem?_of_drop {p ls : List Line} {n : ℕ} {l : Line} (h : p.drop n = l :: ls) :
    p[n]? = some l ∧ p.drop (n + 1) = ls := by
  refine ⟨?_, ?_⟩
  · have := @List.getElem?_drop _ p n 0
    rw [h] at this
    simpa using this.symm
  · rw [← List.drop_drop, h]
    rfl

/-- What the first pass comes to, from the `n`-th line on. -/
theorem firstPass_cases {p ls : List Line} {n : ℕ} (h : p.drop n = ls) :
    (RejectedFirst p n ∧ ∃ printed,
      firstPass (entered p n) n ls = .error (.exit 1 printed)) ∨
    (PassesFirst p n ∧ firstPass (entered p n) n ls = .ok (labelAt p)) ∨
    (StuckFirst p n ∧ firstPass (entered p n) n ls = .error .fault) := by
  induction ls generalizing n with
  | nil =>
    have hn : p.length ≤ n := List.drop_eq_nil_iff.1 h
    refine .inr (.inl ⟨fun k l hk hl => ?_, by rw [firstPass, entered_of_le hn]⟩)
    rw [List.getElem?_eq_none (hn.trans hk)] at hl
    cases hl
  | cons l ls ih =>
    obtain ⟨hl, hls⟩ := getElem?_of_drop h
    by_cases hlong : l.TooLong
    · refine .inl ⟨⟨n, l, le_rfl, hl, .inl hlong, fun j hj hjn => by omega⟩,
        "error: line too long\n", ?_⟩
      rw [firstPass, readAndParse, if_pos hlong]
      rfl
    have hstep : firstPass (entered p n) n (l :: ls) =
        (enterLabel (entered p n) n l.fields >>= fun labels => firstPass labels (n + 1) ls) := by
      rw [firstPass, readAndParse, if_neg hlong, ok_bind]
    rw [hstep]
    obtain ⟨hr, printed, he⟩ | ⟨hr, hfit, he⟩ | ⟨hr, hfit, hnil, he⟩ := enterLabel_cases hl hlong
    · rw [he]
      exact .inl ⟨⟨n, l, le_rfl, hl, hr, fun j hj hjn => by omega⟩, printed, rfl⟩
    · -- The line is entered; the rest decides.
      have hhead : ∀ j l', j = n → p[j]? = some l' → ¬ Refused p j l' := by
        rintro j l' rfl hl'
        cases hl.symm.trans hl'
        exact hr
      rw [he]
      obtain ⟨⟨k, l', hk, hl', hk', hfit'⟩, hx⟩ | ⟨hpass, hx⟩ | ⟨⟨k, hk, hM, hk', hr'⟩, hx⟩ := ih hls
      · refine .inl ⟨⟨k, l', by omega, hl', hk', fun j hj hjk hM => ?_⟩, hx⟩
        rcases Nat.lt_or_eq_of_le hj with hlt | rfl
        exacts [hfit' j hlt hjk hM, hfit hM]
      · refine .inr (.inl ⟨fun k l' hk hl' => ?_, hx⟩)
        rcases Nat.lt_or_eq_of_le hk with hlt | rfl
        exacts [hpass k l' hlt hl', ⟨hhead _ _ rfl hl', hfit⟩]
      · refine .inr (.inr ⟨⟨k, by omega, hM, hk', fun j l' hj hjk hl' => ?_⟩, hx⟩)
        rcases Nat.lt_or_eq_of_le hj with hlt | rfl
        exacts [hr' j l' hlt hjk hl', hhead _ _ rfl hl']
    · rw [he]
      refine .inr (.inr ⟨⟨n, le_rfl, hfit, hnil, fun j l' hj hjn hl' => ?_⟩, rfl⟩)
      obtain rfl : j = n := Nat.le_antisymm hjn hj
      cases hl.symm.trans hl'
      exact hr

/-- The two ways to fail the first pass exclude each other. -/
theorem StuckFirst.not_rejected {p : List Line} (h : StuckFirst p 0) :
    ¬ RejectedFirst p 0 ∧ ¬ PassesFirst p 0 := by
  obtain ⟨k, -, hM, hne, hr⟩ := h
  refine ⟨fun ⟨k', l, _, hl, href, hfit⟩ => ?_, fun hpass => ?_⟩
  · rcases Nat.lt_or_ge k k' with hlt | hle
    · exact hne (hfit k (Nat.zero_le k) hlt hM)
    · exact hr k' l (Nat.zero_le k') hle hl href
  · cases hl : p[k]? with
    | none => exact hne (by rw [labelAt, hl])
    | some l => exact hne ((hpass k l (Nat.zero_le k) hl).2 hM)

/-! ### The second pass -/

theorem missing_iff {a b c : Bool} : (!a || !b || !c) = true ↔ ¬ (a ∧ b ∧ c) := by
  cases a <;> cases b <;> cases c <;> decide

theorem assembleR_cases (f : Fields) :
    (¬ (isNumber f.arg0 ∧ isNumber f.arg1 ∧ isNumber f.arg2) ∧
      ∃ printed, assembleR f = .error (.exit 1 printed)) ∨
    ((isNumber f.arg0 ∧ isNumber f.arg1 ∧ isNumber f.arg2) ∧ ∃ w, assembleR f = .ok w) := by
  unfold assembleR
  split
  · exact .inl ⟨missing_iff.1 ‹_›, _, rfl⟩
  · exact .inr ⟨not_not.1 fun h => ‹¬ _› (missing_iff.2 h), _, rfl⟩

theorem missing_arg_iff {a b : Bool} {s : Str} :
    (!a || !b || decide (s = [])) = true ↔ ¬ (a ∧ b ∧ s ≠ []) := by
  cases a <;> cases b <;> simp

theorem outOfRange_iff {offset : Word} :
    (offset.slt (-32768) || (32767 : Word).slt offset) = true ↔
      ¬ (-32768 ≤ offset.toInt ∧ offset.toInt ≤ 32767) := by
  have hlo : (-32768 : Word).toInt = -32768 := by decide
  have hhi : (32767 : Word).toInt = 32767 := by decide
  rw [Bool.or_eq_true, BitVec.slt, BitVec.slt, decide_eq_true_iff, decide_eq_true_iff, hlo, hhi]
  omega

theorem assembleJ_cases (pc : ℕ) (f : Fields) :
    (¬ (isNumber f.arg0 ∧ isNumber f.arg1 ∧ f.arg2 ≠ []) ∧
      ∃ printed, assembleJ pc f = .error (.exit 1 printed)) ∨
    ((isNumber f.arg0 ∧ isNumber f.arg1 ∧ f.arg2 ≠ []) ∧ ∃ w, assembleJ pc f = .ok w) := by
  unfold assembleJ
  split
  · exact .inl ⟨missing_arg_iff.1 ‹_›, _, rfl⟩
  · exact .inr ⟨not_not.1 fun h => ‹¬ _› (missing_arg_iff.2 h), _, rfl⟩

/-- What the I type comes to, with the offset it found. -/
theorem assembleI_cases (labels : Labels) (op : Word) (pc : ℕ) (f : Fields) :
    (¬ (isNumber f.arg0 ∧ isNumber f.arg1 ∧ f.arg2 ≠ [] ∧
      ∃ offset, offsetOf (fun s => findIdx labels s (maxLabel - 1)) op pc f.arg2 = some offset ∧
        -32768 ≤ offset.toInt ∧ offset.toInt ≤ 32767) ∧
      ∃ printed, assembleI labels op pc f = .error (.exit 1 printed)) ∨
    ∃ offset, (isNumber f.arg0 ∧ isNumber f.arg1 ∧ f.arg2 ≠ [] ∧
      offsetOf (fun s => findIdx labels s (maxLabel - 1)) op pc f.arg2 = some offset ∧
        -32768 ≤ offset.toInt ∧ offset.toInt ≤ 32767) ∧
      assembleI labels op pc f = .ok (atoi f.arg0 <<< 19 ||| atoi f.arg1 <<< 16 |||
        if op = BEQ then offset &&& 0x0000FFFF else offset) := by
  unfold assembleI
  split
  · exact .inl ⟨fun h => missing_arg_iff.1 ‹_› ⟨h.1, h.2.1, h.2.2.1⟩, _, rfl⟩
  have harg := not_not.1 fun h => ‹¬ _› (missing_arg_iff.2 h)
  cases ho : offsetOf (fun s => findIdx labels s (maxLabel - 1)) op pc f.arg2 with
  | none =>
    refine .inl ⟨fun ⟨_, _, _, offset, h, _⟩ => ?_, _, rfl⟩
    cases h
  | some offset =>
    by_cases hr : -32768 ≤ offset.toInt ∧ offset.toInt ≤ 32767
    · exact .inr ⟨offset, ⟨harg.1, harg.2.1, harg.2.2, rfl, hr⟩,
        if_neg fun h => outOfRange_iff.1 h hr⟩
    · refine .inl ⟨fun ⟨_, _, _, _, h, h'⟩ => ?_, _, if_pos (outOfRange_iff.2 hr)⟩
      cases h
      exact hr h'

/-- A line that is not to be rejected has a word, and one that is makes the assembler exit. -/
theorem assembleLine_cases (labels : Labels) (pc : ℕ) (f : Fields) :
    (Rejects (fun s => findIdx labels s (maxLabel - 1)) pc f ∧
      ∃ printed, assembleLine labels pc f = .error (.exit 1 printed)) ∨
    (¬ Rejects (fun s => findIdx labels s (maxLabel - 1)) pc f ∧
      ∃ w, assembleLine labels pc f = .ok w) := by
  unfold Rejects assembleLine
  cases hc : classify f.opcode with
  | none => exact .inl ⟨trivial, _, rfl⟩
  | some ot =>
    obtain ⟨op, type⟩ := ot
    cases type with
    | R =>
      obtain ⟨h, printed, he⟩ | ⟨h, w, he⟩ := assembleR_cases f
      · exact .inl ⟨h, printed, by simp only [assembleArgs, he]; rfl⟩
      · exact .inr ⟨not_not.2 h, op ||| w, by simp only [assembleArgs, he]; rfl⟩
    | I =>
      obtain ⟨h, printed, he⟩ | ⟨offset, ⟨hA, hB, hC, h⟩, he⟩ := assembleI_cases labels op pc f
      · exact .inl ⟨h, printed, by simp only [assembleArgs, he]; rfl⟩
      · exact .inr ⟨not_not.2 ⟨hA, hB, hC, offset, h⟩, _, by simp only [assembleArgs, he]; rfl⟩
    | J =>
      obtain ⟨h, printed, he⟩ | ⟨h, w, he⟩ := assembleJ_cases pc f
      · exact .inl ⟨h, printed, by simp only [assembleArgs, he]; rfl⟩
      · exact .inr ⟨not_not.2 h, op ||| w, by simp only [assembleArgs, he]; rfl⟩
    | O | fill => exact .inr ⟨not_false, _, rfl⟩

/-- The table lookups of the I type. -/
def lookup (p : List Line) (s : Str) : Option ℕ := findIdx (labelAt p) s (maxLabel - 1)

/-- The second pass rejects a line before it stores past `vm`. -/
def RejectedSecond (p : List Line) (n : ℕ) : Prop :=
  ∃ k l, n ≤ k ∧ k ≤ maxLabel ∧ p[k]? = some l ∧ Rejects (lookup p) k l.fields

/-- The second pass gets through. -/
def PassesSecond (p : List Line) (n : ℕ) : Prop :=
  p.length ≤ maxLabel ∧ ∀ k l, n ≤ k → p[k]? = some l → ¬ Rejects (lookup p) k l.fields

/-- The second pass stores past `vm`. -/
def StuckSecond (p : List Line) (n : ℕ) : Prop :=
  maxLabel < p.length ∧
    ∀ k l, n ≤ k → k ≤ maxLabel → p[k]? = some l → ¬ Rejects (lookup p) k l.fields

/-- What the second pass comes to, from the `n`-th line on. -/
theorem secondPass_cases {p ls : List Line} {n : ℕ} (h : p.drop n = ls) (hn : n ≤ maxLabel)
    (hlong : ∀ k l, n ≤ k → p[k]? = some l → ¬ l.TooLong) :
    (RejectedSecond p n ∧ ∃ printed,
      secondPass (labelAt p) n ls = .error (.exit 1 printed)) ∨
    (PassesSecond p n ∧ ∃ ws, secondPass (labelAt p) n ls = .ok ws ∧ ws.length = ls.length ∧
      ∀ i l w, p[n + i]? = some l → ws[i]? = some w →
        assembleLine (labelAt p) (n + i) l.fields = .ok w) ∨
    (StuckSecond p n ∧ secondPass (labelAt p) n ls = .error .fault) := by
  induction ls generalizing n with
  | nil =>
    have hle : p.length ≤ n := List.drop_eq_nil_iff.1 h
    refine .inr (.inl ⟨⟨hle.trans hn, fun k l hk hl => ?_⟩, [], rfl, rfl, fun i l w _ hw => ?_⟩)
    · rw [List.getElem?_eq_none (hle.trans hk)] at hl
      cases hl
    · cases hw
  | cons l ls ih =>
    obtain ⟨hl, hls⟩ := getElem?_of_drop h
    have hstep : secondPass (labelAt p) n (l :: ls) =
        (assembleLine (labelAt p) n l.fields >>= fun w =>
          if n < maxLabel then
            secondPass (labelAt p) (n + 1) ls >>= fun ws => pure (w :: ws)
          else .error .fault) := by
      rw [secondPass, readAndParse, if_neg (hlong n l le_rfl hl), ok_bind]
    rw [hstep]
    obtain ⟨hr, printed, he⟩ | ⟨hr, w, he⟩ := assembleLine_cases (labelAt p) n l.fields
    · rw [he]
      exact .inl ⟨⟨n, l, le_rfl, hn, hl, hr⟩, printed, rfl⟩
    have hhead : ∀ j l', j = n → p[j]? = some l' → ¬ Rejects (lookup p) j l'.fields := by
      rintro j l' rfl hl'
      cases hl.symm.trans hl'
      exact hr
    have hstore : (assembleLine (labelAt p) n l.fields >>= fun w =>
          if n < maxLabel then
            secondPass (labelAt p) (n + 1) ls >>= fun ws => pure (w :: ws)
          else .error .fault) =
        if n < maxLabel then secondPass (labelAt p) (n + 1) ls >>= fun ws => pure (w :: ws)
        else .error .fault := by
      rw [he, ok_bind]
    rw [hstore]
    rcases Nat.lt_or_eq_of_le hn with hlt | rfl
    · -- The word is stored; the rest decides.
      rw [if_pos hlt]
      obtain ⟨⟨k, l', hk, hkM, hl', hr'⟩, printed, hx⟩ | ⟨⟨hM, hpass⟩, ws, hx, hlen, hws⟩ |
        ⟨⟨hM, hst⟩, hx⟩ := ih hls hlt fun k l' hk => hlong k l' (by omega)
      · rw [hx]
        exact .inl ⟨⟨k, l', by omega, hkM, hl', hr'⟩, printed, rfl⟩
      · rw [hx]
        refine .inr (.inl ⟨⟨hM, fun k l' hk hl' => ?_⟩, w :: ws, rfl, ?_, fun i l' w' hl' hw' => ?_⟩)
        · rcases Nat.lt_or_eq_of_le hk with hlt | rfl
          exacts [hpass k l' hlt hl', hhead _ _ rfl hl']
        · rw [List.length_cons, List.length_cons, hlen]
        · cases i with
          | zero =>
            cases hl.symm.trans hl'
            cases hw'
            exact he
          | succ i =>
            rw [show n + (i + 1) = n + 1 + i by omega] at hl' ⊢
            exact hws i l' w' hl' hw'
      · rw [hx]
        refine .inr (.inr ⟨⟨hM, fun k l' hk hkM hl' => ?_⟩, rfl⟩)
        rcases Nat.lt_or_eq_of_le hk with hlt | rfl
        exacts [hst k l' hlt hkM hl', hhead _ _ rfl hl']
    · refine .inr (.inr ⟨⟨?_, fun k l' hk hkM hl' => hhead k l' (by omega) hl'⟩, ?_⟩)
      · exact (List.getElem?_eq_some_iff.1 hl).1
      · exact if_neg (Nat.lt_irrefl _)

theorem StuckSecond.not_rejected {p : List Line} (h : StuckSecond p 0) :
    ¬ RejectedSecond p 0 ∧ ¬ PassesSecond p 0 :=
  ⟨fun ⟨k, l, hk, hM, hl, hr⟩ => h.2 k l hk hM hl hr, fun hp => Nat.not_le.2 h.1 hp.1⟩

end CourseProjects.Lc2k.Assembler
