import CourseProjects.Lc2k.Labels

/-!
# Label resolution

When the assembler resolves the labels of a program as it is to do. A `.fill` by name
sees the lines before its own only, and goes on with `-1` where it finds none.

* `Carries.of_assembleI`: a word of `lw`, `sw` or `beq` carries the address of its
  label.
* `assemble_resolves_iff`: the program is rejected for some other reason before the
  arrays overflow, or it fits in the arrays and defines the name of every `.fill` on an
  earlier line.
-/

namespace CourseProjects.Lc2k.Assembler

variable {p : List Line} {f : Fields} {s : Str}

/-! ### Symbolic operands -/

theorem named_eq_some {arg : Str} (h : named arg = some s) :
    s = arg ∧ isNumber arg = false ∧ s ≠ [] := by
  unfold named at h
  split at h
  · cases h
  · cases h
    rw [not_or, Bool.not_eq_true] at *
    exact ⟨rfl, ‹_ ∧ _›.1, ‹_ ∧ _›.2⟩

/-- The lines with a symbolic operand. -/
theorem symbol_cases (h : f.symbol = some s) :
    (∃ op, classify f.opcode = some (op, .I) ∧ op.setWidth 16 = 0 ∧
      f.opcode ≠ ".fill".toList ∧ (op = BEQ ↔ f.opcode = "beq".toList) ∧
      s = f.arg2 ∧ isNumber f.arg2 = false ∧ s ≠ []) ∨
    (classify f.opcode = some (0, .fill) ∧ f.opcode = ".fill".toList ∧
      s = f.arg0 ∧ isNumber f.arg0 = false ∧ s ≠ []) := by
  unfold Fields.symbol at h
  split at h
  · obtain ho | ho | ho := ‹_ ∨ _ ∨ _›
    · refine .inl ⟨LW, ?_, by decide, ?_, ?_, named_eq_some h⟩ <;> rw [ho] <;> decide
    · refine .inl ⟨SW, ?_, by decide, ?_, ?_, named_eq_some h⟩ <;> rw [ho] <;> decide
    · refine .inl ⟨BEQ, ?_, by decide, ?_, ?_, named_eq_some h⟩ <;> rw [ho] <;> decide
  split at h
  · have ho : f.opcode = ".fill".toList := ‹_›
    exact .inr ⟨by rw [ho]; decide, ho, named_eq_some h⟩
  · cases h

/-- The offset field of a word of the I type is the offset. -/
theorem toInt_offset {op x offset : Word} (hop : op.setWidth 16 = 0)
    (hx : x.setWidth 16 = 0) (hlo : -32768 ≤ offset.toInt) (hhi : offset.toInt ≤ 32767) :
    ((op ||| (x ||| if op = BEQ then offset &&& 0x0000FFFF else offset)).setWidth 16).toInt =
      offset.toInt := by
  have hmask : (if op = BEQ then offset &&& 0x0000FFFF else offset).setWidth 16 =
      offset.setWidth 16 := by
    split
    · apply BitVec.eq_of_toNat_eq
      have hm : (0x0000FFFF : Word).toNat = 2 ^ 16 - 1 := by decide
      rw [BitVec.toNat_setWidth, BitVec.toNat_and, hm, Nat.and_two_pow_sub_one_eq_mod,
        BitVec.toNat_setWidth, Nat.mod_mod]
    · rfl
  rw [BitVec.setWidth_or, BitVec.setWidth_or, hop, hx, hmask,
    show (0 : BitVec 16) ||| (0 ||| offset.setWidth 16) = offset.setWidth 16 by simp]
  rw [BitVec.toInt_eq_toNat_cond] at hlo hhi ⊢
  rw [BitVec.toInt_eq_toNat_cond, BitVec.toNat_setWidth]
  split at hlo <;> split <;> omega

/-! ### Programs that get through the first pass -/

theorem exists_line {i : ℕ} (hi : labelAt p i ≠ []) : ∃ l, p[i]? = some l := by
  cases hl : p[i]? with
  | none => exact absurd (by rw [labelAt, hl]) hi
  | some l => exact ⟨l, rfl⟩

theorem PassesFirst.lt_maxLabel (hp : PassesFirst p 0) {i : ℕ} (hi : labelAt p i ≠ []) :
    i < maxLabel := by
  obtain ⟨l, hl⟩ := exists_line hi
  by_contra hge
  exact hi ((hp i l (Nat.zero_le i) hl).2 (Nat.not_lt.1 hge))

/-- No label is defined twice. -/
theorem PassesFirst.not_duplicate (hp : PassesFirst p 0) {i j : ℕ} (hij : i < j)
    (hi : labelAt p i ≠ []) : labelAt p i ≠ labelAt p j := by
  intro h
  have hj : labelAt p j ≠ [] := h ▸ hi
  obtain ⟨l, hl⟩ := exists_line hj
  have := hp.lt_maxLabel hj
  exact (hp j l (Nat.zero_le j) hl).1 (.inr (.inr ⟨hj, i, hij, by omega, h⟩))

theorem PassesFirst.label_inj (hp : PassesFirst p 0) {i j : ℕ} (hi : labelAt p i ≠ [])
    (h : labelAt p i = labelAt p j) : i = j := by
  rcases Nat.lt_trichotomy i j with hlt | rfl | hlt
  · exact absurd h (hp.not_duplicate hlt hi)
  · rfl
  · exact absurd h.symm (hp.not_duplicate hlt (h ▸ hi))

/-- A program with bad labels that gets through the first pass uses an undefined name. -/
theorem PassesFirst.undefined (hp : PassesFirst p 0) (hb : BadLabels p) :
    ∃ l ∈ p, ∃ s, l.fields.symbol = some s ∧ ∀ n, labelAt p n ≠ s := by
  obtain ⟨i, j, hij, hi, h⟩ | ⟨i, h6⟩ | h := hb
  · exact absurd h (hp.not_duplicate hij hi)
  · obtain ⟨l, hl⟩ := exists_line (p := p) (i := i) (by
      intro h
      rw [h] at h6
      exact absurd h6 (by decide))
    exact absurd (.inr (.inl h6)) (hp i l (Nat.zero_le i) hl).1
  · exact h

/-- A program that the first pass rejects is to be rejected. -/
theorem RejectedFirst.deserved (h : RejectedFirst p 0) : BadLabels p ∨ Malformed p := by
  obtain ⟨k, l, -, hl, hlong | h6 | ⟨hne, j, hj, -, hdup⟩, -⟩ := h
  · exact .inr ⟨k, l, hl, .inl hlong⟩
  · exact .inl (.inr (.inl ⟨k, h6⟩))
  · exact .inl (.inl ⟨j, k, hj, by rwa [hdup], hdup⟩)

/-! ### The words -/

theorem setWidth_shiftLeft (x : Word) {k : ℕ} (hk : 16 ≤ k) : (x <<< k).setWidth 16 = 0 := by
  refine BitVec.eq_of_getLsbD_eq fun i hi => ?_
  have hik : i < k := by omega
  simp [BitVec.getLsbD_shiftLeft, hik]

theorem toInt_address {k : ℕ} (hk : k < maxLabel) : (BitVec.ofNat 32 k).toInt = k := by
  have hk : k < 987654 := hk
  rw [BitVec.toInt_eq_toNat_cond, BitVec.toNat_ofNat]
  split <;> omega

theorem toInt_distance {k n : ℕ} (hk : k < maxLabel) (hn : n < maxLabel) :
    (BitVec.ofNat 32 k - (BitVec.ofNat 32 n + 1)).toInt = k - (n + 1) := by
  have hk : k < 987654 := hk
  have hn : n < 987654 := hn
  have h1 : BitVec.ofNat 32 n + 1 = BitVec.ofNat 32 (n + 1) := (BitVec.ofNat_add n 1).symm
  rw [h1, BitVec.toInt_eq_toNat_cond, BitVec.toNat_sub, BitVec.toNat_ofNat, BitVec.toNat_ofNat]
  split <;> omega

/-- The word of a line carries the address of its symbolic operand, unless it is a
    `.fill` whose name is not defined on an earlier line. -/
theorem carries_iff (hp : PassesFirst p 0) {n k : ℕ} {l : Line} {w : Word}
    (hn : n < maxLabel) (hw : assembleLine (labelAt p) n l.fields = .ok w)
    (hs : l.fields.symbol = some s) (hk : labelAt p k = s) :
    Carries l.fields n k w ↔
      (l.fields.opcode = ".fill".toList → ∃ j < n, labelAt p j = s) := by
  obtain ⟨op, hc, hop, hfill, hbeq, rfl, hnum, hne⟩ | ⟨hc, hfill, rfl, hnum, hne⟩ :=
    symbol_cases hs
  · refine iff_of_true ?_ fun h => absurd h hfill
    rw [assembleLine, hc] at hw
    obtain ⟨-, printed, he⟩ | ⟨offset, ⟨-, -, -, ho, hlo, hhi⟩, he⟩ :=
      assembleI_cases (labelAt p) op n l.fields
    · simp only [assembleArgs, he] at hw
      cases hw
    simp only [assembleArgs, he] at hw
    cases hw
    -- The label was found, at the line that defines it.
    rw [offsetOf, if_neg (by rw [hnum]; decide)] at ho
    obtain ⟨i, hi, rfl⟩ := Option.map_eq_some_iff.1 ho
    obtain ⟨hiM, hlab⟩ := findIdx_eq_some hi
    obtain rfl : k = i := hp.label_inj (by rwa [hk]) (hk.trans hlab.symm)
    have hx : (atoi l.fields.arg0 <<< 19 ||| atoi l.fields.arg1 <<< 16).setWidth 16 = 0 := by
      rw [BitVec.setWidth_or, setWidth_shiftLeft _ (by decide), setWidth_shiftLeft _ le_rfl]
      decide
    have hoff := toInt_offset hop hx hlo hhi
    rw [Carries, if_neg hfill]
    by_cases hop' : op = BEQ
    · rw [if_pos (hbeq.1 hop'), hoff, if_pos hop']
      exact toInt_distance (by omega) hn
    · rw [if_neg fun h => hop' (hbeq.2 h), hoff, if_neg hop']
      exact toInt_address (by omega)
  · rw [assembleLine, hc] at hw
    cases hw
    rw [Carries, if_pos hfill, assembleFill, if_neg (by rw [hnum]; decide)]
    cases hi : findIdx (labelAt p) l.fields.arg0 n with
    | none =>
      refine iff_of_false (fun h => ?_) fun h => ?_
      · have hlt : k < 987654 := hp.lt_maxLabel (hk ▸ hne)
        have := congrArg BitVec.toNat h
        simp at this
        omega
      · obtain ⟨j, hj, hlab⟩ := h hfill
        have := findIdx_isSome_iff.2 ⟨j, hj, hlab⟩
        rw [hi] at this
        cases this
    | some i =>
      obtain ⟨hin, hlab⟩ := findIdx_eq_some hi
      obtain rfl : k = i := hp.label_inj (by rwa [hk]) (hk.trans hlab.symm)
      refine iff_of_true ?_ fun _ => ⟨k, hin, hlab⟩
      exact BitVec.zero_or

/-- Every `.fill` by name comes after the line that defines the name. -/
def FillsBackward (p : List Line) : Prop :=
  ∀ n l s, p[n]? = some l → l.fields.opcode = ".fill".toList → l.fields.symbol = some s →
    ∃ j < n, labelAt p j = s

/-- The names of `lw`, `sw` and `beq` are defined, if no line is rejected. -/
theorem PassesSecond.exists_label (h2 : PassesSecond p 0) {n : ℕ} {l : Line}
    (hl : p[n]? = some l) (hs : l.fields.symbol = some s)
    (hfill : l.fields.opcode ≠ ".fill".toList) : ∃ k, labelAt p k = s := by
  obtain ⟨op, hc, -, -, -, rfl, hnum, -⟩ | ⟨-, hfill', -⟩ := symbol_cases hs
  · have hr := h2.2 n l (Nat.zero_le n) hl
    simp only [Rejects, hc, not_not] at hr
    obtain ⟨-, -, -, offset, ho, -⟩ := hr
    rw [offsetOf, if_neg (by rw [hnum]; decide)] at ho
    obtain ⟨i, hi, -⟩ := Option.map_eq_some_iff.1 ho
    exact ⟨i, (findIdx_eq_some hi).2⟩
  · exact absurd hfill' hfill

theorem not_resolves_fault : ¬ Resolves p (.error .fault) := by
  intro h
  by_cases hb : BadLabels p
  · obtain ⟨printed, h⟩ := h.1 hb
    cases h
  · obtain ⟨-, printed, h⟩ | ⟨ws, h, -⟩ := h.2 hb <;> cases h

/-- The assembler resolves the labels of a program as it is to do exactly if it rejects
    the program for something that is to be rejected, or the program fits in its arrays
    and every `.fill` by name comes after the line that defines the name. -/
theorem assemble_resolves_iff (p : List Line) :
    Resolves p (assemble p) ↔
      RejectedFirst p 0 ∨
        PassesFirst p 0 ∧
          (RejectedSecond p 0 ∧ (BadLabels p ∨ Malformed p) ∨
            PassesSecond p 0 ∧ FillsBackward p) := by
  have hentered : entered p 0 = fun _ => [] := by
    funext i
    exact if_neg (Nat.not_lt_zero i)
  obtain ⟨h1, printed, he⟩ | ⟨h1, he⟩ | ⟨h1, he⟩ := firstPass_cases (List.drop_zero (l := p))
  · -- The first pass exits.
    rw [hentered] at he
    refine iff_of_true ?_ (.inl h1)
    rw [assemble, he]
    refine ⟨fun _ => ⟨printed, rfl⟩, fun hb => .inl ⟨h1.deserved.resolve_left hb, printed, rfl⟩⟩
  · rw [hentered] at he
    have hn1 : ¬ RejectedFirst p 0 := fun ⟨k, l, hk, hl, hr, _⟩ => (h1 k l hk hl).1 hr
    rw [assemble, he, or_iff_right hn1, and_iff_right h1, ok_bind]
    obtain ⟨h2, printed, he⟩ | ⟨h2, ws, he, hlen, hws⟩ | ⟨h2, he⟩ :=
      secondPass_cases (List.drop_zero (l := p)) (Nat.zero_le _)
        fun k l hk hl hlong => (h1 k l hk hl).1 (.inl hlong)
    · -- The second pass exits.
      have hn2 : ¬ PassesSecond p 0 := fun h => by
        obtain ⟨k, l, hk, -, hl, hr⟩ := h2
        exact h.2 k l hk hl hr
      rw [he, or_iff_left fun h => hn2 h.1, and_iff_right h2]
      constructor
      · intro h
        by_cases hb : BadLabels p
        · exact .inl hb
        · obtain ⟨hm, -⟩ | ⟨ws, hws, -⟩ := h.2 hb
          · exact .inr hm
          · cases hws
      · intro h
        exact ⟨fun _ => ⟨printed, rfl⟩, fun hb => .inl ⟨h.resolve_left hb, printed, rfl⟩⟩
    · -- The words are written.
      have hn2 : ¬ RejectedSecond p 0 := fun ⟨k, l, hk, _, hl, hr⟩ => h2.2 k l hk hl hr
      have hlt : ∀ {n l}, p[n]? = some l → n < maxLabel := fun {n l} hl =>
        ((List.getElem?_eq_some_iff.1 hl).1).trans_le h2.1
      have hword : ∀ {n l w}, p[n]? = some l → ws[n]? = some w →
          assembleLine (labelAt p) n l.fields = .ok w := fun {n l w} hl hw => by
        have := hws n l w (by rwa [Nat.zero_add]) hw
        rwa [Nat.zero_add] at this
      rw [he, or_iff_right fun h => hn2 h.1, and_iff_right h2]
      constructor
      · intro h n l s hl hfill hs
        have hb : ¬ BadLabels p := fun hb => by
          obtain ⟨printed, h⟩ := h.1 hb
          cases h
        obtain ⟨-, printed, h⟩ | ⟨words, h, -, hres⟩ := h.2 hb
        · cases h
        cases h
        obtain ⟨k, hk⟩ : ∃ k, labelAt p k = s := by
          by_contra hc
          exact hb (.inr (.inr ⟨l, List.mem_of_getElem? hl, s, hs, not_exists.1 hc⟩))
        obtain ⟨w, hw⟩ : ∃ w, ws[n]? = some w :=
          ⟨_, List.getElem?_eq_getElem (hlen ▸ (List.getElem?_eq_some_iff.1 hl).1)⟩
        exact (carries_iff h1 (hlt hl) (hword hl hw) hs hk).1 (hres n l w s k hl hw hs hk) hfill
      · intro hfb
        have hb : ¬ BadLabels p := fun hb => by
          obtain ⟨l, hmem, s, hs, hno⟩ := h1.undefined hb
          obtain ⟨n, hl⟩ := List.getElem?_of_mem hmem
          by_cases hfill : l.fields.opcode = ".fill".toList
          · obtain ⟨j, -, hj⟩ := hfb n l s hl hfill hs
            exact hno j hj
          · obtain ⟨k, hk⟩ := h2.exists_label hl hs hfill
            exact hno k hk
        exact ⟨fun h => absurd h hb, fun _ => .inr ⟨ws, rfl, hlen, fun n l w s k hl hw hs hk =>
          (carries_iff h1 (hlt hl) (hword hl hw) hs hk).2 fun hfill => hfb n l s hl hfill hs⟩⟩
    · -- The second pass stores past its array.
      obtain ⟨hr, hp⟩ := h2.not_rejected
      rw [he]
      exact iff_of_false not_resolves_fault fun h => h.elim (fun h => hr h.1) fun h => hp h.1
  · -- The first pass stores past the table.
    rw [hentered] at he
    obtain ⟨hr, hp⟩ := h1.not_rejected
    rw [assemble, he]
    exact iff_of_false not_resolves_fault fun h => h.elim hr fun h => hp h.1

/-- A program that fills in a name that it does not define. -/
def fillNowhere : List Line := [⟨" .fill nowhere".toList, true, by decide, by decide⟩]

/-- The assembler writes `-1` for a name that is not defined. -/
theorem assemble_fills_nowhere : ¬ ∀ p, Resolves p (assemble p) := by
  intro h
  have hfields : ∀ l ∈ fillNowhere, l.fields = ⟨[], ".fill".toList, "nowhere".toList, [], []⟩ := by
    decide +kernel
  have hbad : BadLabels fillNowhere := by
    refine .inr (.inr ⟨_, List.mem_singleton_self _, "nowhere".toList, by decide +kernel, ?_⟩)
    intro n hn
    cases hl : fillNowhere[n]? with
    | none =>
      rw [labelAt, hl] at hn
      cases hn
    | some l =>
      rw [labelAt_eq hl, hfields l (List.mem_of_getElem? hl)] at hn
      cases hn
  have hout : (assemble fillNowhere).toOption = some [-1] := by decide +kernel
  obtain ⟨printed, he⟩ := (h fillNowhere).1 hbad
  rw [he] at hout
  cases hout

end CourseProjects.Lc2k.Assembler
