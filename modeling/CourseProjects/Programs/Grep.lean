import Mathlib

/-!
# Regular expressions and lines

The matcher of `grep.c`, and its loop over what `read` brings. A string is the list of its bytes
before the zero byte.

* `matchText_iff`: the matcher accepts the language of the expression.
* `grep_eq_iff`: the lines that are printed are those that match, for every expression, if and only
  if each read brings the end of a line as long as there are more to come.
* `grep_file_iff`: for a file, if and only if its lines fit into the buffer.
-/

namespace Grep

open Computability

/-! ### The matcher -/

/-- The star. -/
abbrev star : UInt8 := 42

/-- The dot, for any byte. -/
abbrev dot : UInt8 := 46

/-- The dollar sign, for the end of the text. -/
abbrev dollar : UInt8 := 36

/-- The caret, for the start of the text. -/
abbrev caret : UInt8 := 94

/-- A byte of the text is one that a byte of the expression stands for. -/
def Fits (c x : UInt8) : Prop := c = dot ∨ c = x

instance (c x : UInt8) : Decidable (Fits c x) := inferInstanceAs (Decidable (_ ∨ _))

/-- `matchstar`, with `matchhere` for the rest of the expression. -/
def matchstar (here : List UInt8 → Bool) (c : UInt8) : List UInt8 → Bool
  | [] => here []
  | x :: text => here (x :: text) || (Fits c x && matchstar here c text)

def matchhere : List UInt8 → List UInt8 → Bool
  | [], _ => true
  | [c], text =>
    if c = dollar then text = []
    else
      match text with
      | [] => false
      | x :: _ => Fits c x
  | c :: d :: re, text =>
    if d = star then matchstar (matchhere re) c text
    else
      match text with
      | [] => false
      | x :: text => Fits c x && matchhere (d :: re) text

/-- `match`. -/
def matchText : List UInt8 → List UInt8 → Bool
  | [], text => text.tails.any (matchhere [])
  | c :: re, text =>
    if c = caret then matchhere re text
    else text.tails.any (matchhere (c :: re))

/-! ### The language of an expression -/

/-- A byte of an expression, once or any number of times. -/
inductive Item
  | one (c : UInt8)
  | many (c : UInt8)

/-- An expression: it is for the start of the text or not, and for its end or not. -/
structure Regex where
  start : Bool
  items : List Item
  stop : Bool

/-- The texts of one byte. -/
def letter (c : UInt8) : Language UInt8 := {w | ∃ x, Fits c x ∧ w = [x]}

def Item.language : Item → Language UInt8
  | .one c => letter c
  | .many c => (letter c)∗

/-- The texts that start with the items, with nothing more if they are for the end. -/
def rest (items : List Item) (stop : Bool) : Language UInt8 :=
  (items.map Item.language).prod * if stop then 1 else ⊤

def Regex.language (r : Regex) : Language UInt8 := (if r.start then 1 else ⊤) * rest r.items r.stop

/-- The items of an expression, and whether it is for the end of the text. -/
def parseItems : List UInt8 → List Item × Bool
  | [] => ([], false)
  | [c] => if c = dollar then ([], true) else ([.one c], false)
  | c :: d :: re =>
    if d = star then (.many c :: (parseItems re).1, (parseItems re).2)
    else (.one c :: (parseItems (d :: re)).1, (parseItems (d :: re)).2)

/-- The expression that a string is. -/
def Regex.parse : List UInt8 → Regex
  | [] => ⟨false, [], false⟩
  | c :: re =>
    if c = caret then ⟨true, (parseItems re).1, (parseItems re).2⟩
    else ⟨false, (parseItems (c :: re)).1, (parseItems (c :: re)).2⟩

variable {c x : UInt8} {re text : List UInt8} {L : Language UInt8}

theorem rest_cons (i : Item) (is : List Item) (stop : Bool) :
    rest (i :: is) stop = i.language * rest is stop := by
  rw [rest, List.map_cons, List.prod_cons, mul_assoc]
  rfl

theorem nil_not_mem_letter_mul : [] ∉ letter c * L := by
  rintro ⟨_, ⟨x, -, rfl⟩, v, -, h⟩
  cases h

theorem cons_mem_letter_mul : x :: text ∈ letter c * L ↔ Fits c x ∧ text ∈ L := by
  constructor
  · rintro ⟨_, ⟨x, hx, rfl⟩, v, hv, h⟩
    cases h
    exact ⟨hx, hv⟩
  · rintro ⟨hx, ht⟩
    exact ⟨[x], ⟨x, hx, rfl⟩, text, ht, rfl⟩

/-- A star once more. -/
theorem mem_kstar_mul {l : Language UInt8} : text ∈ l∗ * L ↔ text ∈ L ∨ text ∈ l * (l∗ * L) := by
  have heq : l∗ * L = L + l * (l∗ * L) := by
    conv_lhs => rw [← Language.one_add_self_mul_kstar_eq_kstar, add_mul, one_mul, mul_assoc]
  rw [← Language.mem_add, ← heq]

theorem matchstar_iff {here : List UInt8 → Bool} (h : ∀ t, here t = true ↔ t ∈ L)
    (text : List UInt8) : matchstar here c text = true ↔ text ∈ (letter c)∗ * L := by
  induction text with
  | nil =>
    rw [matchstar, h, mem_kstar_mul]
    exact (or_iff_left nil_not_mem_letter_mul).symm
  | cons x text ih =>
    rw [matchstar, mem_kstar_mul, cons_mem_letter_mul, Bool.or_eq_true, Bool.and_eq_true, h, ih,
      decide_eq_true_iff]

theorem mem_rest_nil : text ∈ rest [] false := by
  rw [rest, List.map_nil, List.prod_nil, one_mul]
  trivial

theorem matchhere_singleton (c : UInt8) (text : List UInt8) : matchhere [c] text =
    if c = dollar then decide (text = []) else text.head?.any fun x => Fits c x := by
  cases text with
  | nil => rfl
  | cons x text => rfl

theorem matchhere_cons (c d : UInt8) (re text : List UInt8) : matchhere (c :: d :: re) text =
    if d = star then matchstar (matchhere re) c text
    else text.head?.any (fun x => Fits c x) && matchhere (d :: re) text.tail := by
  cases text with
  | nil => simp [matchhere]
  | cons x text => rfl

/-- A byte of the expression that is neither a star nor starred. -/
theorem fits_and_iff {b : List UInt8 → Bool} (h : ∀ t, b t = true ↔ t ∈ L) (text : List UInt8) :
    (text.head?.any (fun x => Fits c x) && b text.tail) = true ↔ text ∈ letter c * L := by
  cases text with
  | nil => exact iff_of_false nofun nil_not_mem_letter_mul
  | cons x text =>
    rw [List.head?_cons, Option.any_some, List.tail_cons, Bool.and_eq_true, decide_eq_true_iff, h]
    exact cons_mem_letter_mul.symm

/-- `matchhere` accepts the texts that start with the items. -/
theorem matchhere_iff : ∀ re text : List UInt8,
    matchhere re text = true ↔ text ∈ rest (parseItems re).1 (parseItems re).2
  | [], text => iff_of_true rfl mem_rest_nil
  | [c], text => by
    rw [matchhere_singleton, parseItems]
    split
    · rw [decide_eq_true_iff, rest, List.map_nil, List.prod_nil, one_mul]
      rfl
    · rw [rest_cons]
      have h := fits_and_iff (c := c) (matchhere_iff []) text
      rwa [matchhere, Bool.and_true] at h
  | c :: d :: re, text => by
    rw [matchhere_cons, parseItems]
    split
    · rw [rest_cons]
      exact matchstar_iff (matchhere_iff re) text
    · rw [rest_cons]
      exact fits_and_iff (matchhere_iff (d :: re)) text

theorem any_tails_iff {b : List UInt8 → Bool} (h : ∀ t, b t = true ↔ t ∈ L) (text : List UInt8) :
    text.tails.any b = true ↔ text ∈ ⊤ * L := by
  rw [List.any_eq_true]
  constructor
  · rintro ⟨t, ht, hb⟩
    obtain ⟨s, rfl⟩ := (List.mem_tails t text).1 ht
    exact ⟨s, trivial, t, (h t).1 hb, rfl⟩
  · rintro ⟨s, -, t, ht, rfl⟩
    exact ⟨t, (List.mem_tails _ _).2 (List.suffix_append s t), (h t).2 ht⟩

/-- The matcher accepts the texts of the language of the expression. -/
theorem matchText_iff (re text : List UInt8) :
    matchText re text = true ↔ text ∈ (Regex.parse re).language := by
  cases re with
  | nil => exact any_tails_iff (matchhere_iff []) text
  | cons c re =>
    rw [matchText, Regex.parse]
    split
    · rw [matchhere_iff, Regex.language, if_pos rfl, one_mul]
    · rw [Regex.language, if_neg nofun]
      exact any_tails_iff (matchhere_iff (c :: re)) text

/-! ### The loop -/

/-- The end of a line. -/
abbrev newline : UInt8 := 10

/-- The size of `buf`. -/
abbrev bufsize : ℕ := 1024

/-- The line up to where `strchr` finds a newline, and what is after it. A zero byte ends the
    search. -/
def cutLine (p : List UInt8) : Option (List UInt8 × List UInt8) :=
  let s := p.takeWhile (· ≠ 0)
  let line := s.takeWhile (· ≠ newline)
  if newline ∈ s then some (line, p.drop (line.length + 1)) else none

theorem length_of_cutLine {p line p' : List UInt8} (h : cutLine p = some (line, p')) :
    p'.length < p.length := by
  rw [cutLine] at h
  split at h
  · rename_i hmem
    cases h
    have hpos := List.length_pos_of_mem (List.takeWhile_sublist _ |>.subset hmem)
    rw [List.length_drop]
    omega
  · cases h

/-- The lines in the buffer, and what is after the last of them. -/
def cutLines (p : List UInt8) : List (List UInt8) × List UInt8 :=
  match _h : cutLine p with
  | none => ([], p)
  | some (line, p') => (line :: (cutLines p').1, (cutLines p').2)
termination_by p.length
decreasing_by all_goals exact length_of_cutLine _h

/-- Lines, each with its end. -/
def unlines (ls : List (List UInt8)) : List UInt8 := ls.flatMap (· ++ [newline])

/-- The loop of `grep`, on what the calls of `read` bring. -/
def grepLoop (re : List UInt8) : List UInt8 → List (List UInt8) → List UInt8
  | _, [] => []
  | buf, c :: cs =>
    let ls := (cutLines (buf ++ c)).1
    -- When there is no line, all of the buffer is dropped.
    let buf' := if ls = [] then [] else (cutLines (buf ++ c)).2
    unlines (ls.filter (matchText re)) ++ grepLoop re buf' cs

/-- `grep` prints this. -/
def grep (re : List UInt8) (cs : List (List UInt8)) : List UInt8 := grepLoop re [] cs

/-- What the calls of `read` bring from a file: as much as is asked for. -/
def fileReads (buf rest : List UInt8) : List (List UInt8) :=
  let n := bufsize - buf.length - 1
  if rest.take n = [] then []
  else
    let r := cutLines (buf ++ rest.take n)
    rest.take n :: fileReads (if r.1 = [] then [] else r.2) (rest.drop n)
termination_by rest.length
decreasing_by
  rename_i h
  rw [List.take_eq_nil_iff, not_or] at h
  have hpos := List.length_pos_of_ne_nil h.2
  rw [List.length_drop]
  omega

/-- A line without its end, and without zero bytes. -/
def Plain (l : List UInt8) : Prop := newline ∉ l ∧ 0 ∉ l

instance (l : List UInt8) : Decidable (Plain l) := inferInstanceAs (Decidable (_ ∧ _))

variable {l b p last : List UInt8} {ls ls' : List (List UInt8)} {cs : List (List UInt8)}

theorem Plain.of_append (h : Plain (p ++ l)) : Plain l :=
  ⟨fun hl => h.1 (List.mem_append_right _ hl), fun hl => h.2 (List.mem_append_right _ hl)⟩

theorem unlines_cons (l : List UInt8) (ls : List (List UInt8)) :
    unlines (l :: ls) = l ++ newline :: unlines ls := by
  rw [unlines, List.flatMap_cons, List.append_assoc]
  rfl

theorem unlines_append (ls ls' : List (List UInt8)) :
    unlines (ls ++ ls') = unlines ls ++ unlines ls' := List.flatMap_append

theorem cutLine_of_not_mem (h : newline ∉ p) : cutLine p = none :=
  if_neg fun hmem => h (List.takeWhile_sublist _ |>.subset hmem)

theorem cutLine_append (h : Plain l) (p : List UInt8) :
    cutLine (l ++ newline :: p) = some (l, p) := by
  have hzero : ∀ x ∈ l, decide (x ≠ 0) = true := fun x hx => by
    rw [decide_eq_true_iff]
    rintro rfl
    exact h.2 hx
  have hline : ∀ x ∈ l, decide (x ≠ newline) = true := fun x hx => by
    rw [decide_eq_true_iff]
    rintro rfl
    exact h.1 hx
  have hs : ∃ t, (l ++ newline :: p).takeWhile (fun x => decide (x ≠ 0)) = l ++ newline :: t := by
    rw [List.takeWhile_append_of_pos hzero]
    exact ⟨_, rfl⟩
  obtain ⟨t, hs⟩ := hs
  have hl : (l ++ newline :: t).takeWhile (fun x => decide (x ≠ newline)) = l := by
    rw [List.takeWhile_append_of_pos hline]
    exact List.append_nil l
  rw [cutLine]
  simp only [hs, hl]
  rw [if_pos (List.mem_append_right _ List.mem_cons_self), ← List.drop_drop, List.drop_left]
  rfl

theorem cutLines_of_none (h : cutLine p = none) : cutLines p = ([], p) := by
  rw [cutLines]
  split
  · rfl
  · rename_i h'
    rw [h] at h'
    cases h'

theorem cutLines_of_some {p' : List UInt8} (h : cutLine p = some (l, p')) :
    cutLines p = (l :: (cutLines p').1, (cutLines p').2) := by
  rw [cutLines]
  split
  · rename_i h'
    rw [h] at h'
    cases h'
  · rename_i h'
    rw [h] at h'
    cases h'
    rfl

theorem cutLines_unlines (hls : ∀ l ∈ ls, Plain l) (hb : newline ∉ b) :
    cutLines (unlines ls ++ b) = (ls, b) := by
  induction ls with
  | nil => exact cutLines_of_none (cutLine_of_not_mem hb)
  | cons l ls ih =>
    have h := cutLine_append (hls l List.mem_cons_self) (unlines ls ++ b)
    rw [unlines_cons, List.append_assoc, List.cons_append, cutLines_of_some h,
      ih fun l hl => hls l (List.mem_cons_of_mem _ hl)]

/-- A text is lines, and something after the last of them. -/
theorem exists_unlines (p : List UInt8) :
    ∃ ls b, p = unlines ls ++ b ∧ (∀ l ∈ ls, newline ∉ l) ∧ newline ∉ b := by
  induction p with
  | nil => exact ⟨[], [], rfl, nofun, nofun⟩
  | cons x p ih =>
    obtain ⟨ls, b, rfl, hls, hb⟩ := ih
    by_cases hx : x = newline
    · subst hx
      exact ⟨[] :: ls, b, rfl, List.forall_mem_cons.2 ⟨nofun, hls⟩, hb⟩
    · cases ls with
      | nil => exact ⟨[], x :: b, rfl, nofun, by simp [Ne.symm hx, hb]⟩
      | cons l ls =>
        rw [List.forall_mem_cons] at hls
        refine ⟨(x :: l) :: ls, b, ?_, List.forall_mem_cons.2 ⟨?_, hls.2⟩, hb⟩
        · rw [unlines_cons, unlines_cons, List.cons_append, List.cons_append]
        · simp [Ne.symm hx, hls.1]

/-- The parts before the first end of a line. -/
theorem eq_of_append_newline {l' t t' : List UInt8} (hl : newline ∉ l) (hl' : newline ∉ l')
    (h : l ++ newline :: t = l' ++ newline :: t') : l = l' ∧ t = t' := by
  induction l generalizing l' with
  | nil =>
    cases l' with
    | nil =>
      cases h
      exact ⟨rfl, rfl⟩
    | cons x l' =>
      cases h
      exact absurd List.mem_cons_self hl'
  | cons x l ih =>
    cases l' with
    | nil =>
      cases h
      exact absurd List.mem_cons_self hl
    | cons y l' =>
      rw [List.cons_append, List.cons_append, List.cons.injEq] at h
      obtain ⟨rfl, h⟩ := h
      rw [List.mem_cons, not_or] at hl hl'
      obtain ⟨rfl, ht⟩ := ih hl.2 hl'.2 h
      exact ⟨rfl, ht⟩

/-- The first lines of a text, whatever comes after them. -/
theorem unlines_prefix {t : List UInt8} (hls : ∀ l ∈ ls, newline ∉ l)
    (hls' : ∀ l ∈ ls', newline ∉ l) (hlast : newline ∉ last)
    (h : unlines ls ++ t = unlines ls' ++ last) :
    ∃ ls₂, ls' = ls ++ ls₂ ∧ t = unlines ls₂ ++ last := by
  induction ls generalizing ls' with
  | nil => exact ⟨ls', rfl, h⟩
  | cons l ls ih =>
    rw [List.forall_mem_cons] at hls
    rw [unlines_cons, List.append_assoc, List.cons_append] at h
    cases ls' with
    | nil =>
      refine absurd ?_ hlast
      change _ = last at h
      rw [← h]
      exact List.mem_append_right _ List.mem_cons_self
    | cons l' ls' =>
      rw [List.forall_mem_cons] at hls'
      rw [unlines_cons, List.append_assoc, List.cons_append] at h
      obtain ⟨rfl, hrest⟩ := eq_of_append_newline hls.1 hls'.1 h
      obtain ⟨ls₂, rfl, ht⟩ := ih hls.2 hls'.2 hrest
      exact ⟨ls₂, rfl, ht⟩

/-- What a text of lines begins with before the end of the first one. -/
theorem unlines_prefix_of_not_mem {t : List UInt8} (hp : newline ∉ p)
    (h : p ++ t = unlines (l :: ls) ++ last) :
    ∃ l', l = p ++ l' ∧ t = unlines (l' :: ls) ++ last := by
  induction p generalizing l with
  | nil => exact ⟨l, rfl, h⟩
  | cons x p ih =>
    rw [List.mem_cons, not_or] at hp
    cases l with
    | nil =>
      rw [unlines_cons, List.nil_append, List.cons_append, List.cons_append, List.cons.injEq] at h
      exact absurd h.1.symm hp.1
    | cons y l =>
      rw [unlines_cons, List.cons_append, List.cons_append, List.cons_append, List.cons.injEq] at h
      obtain ⟨rfl, h⟩ := h
      obtain ⟨l', rfl, ht⟩ := ih hp.2 (by rw [unlines_cons]; exact h)
      exact ⟨l', rfl, ht⟩

/-- The buffer after a read: it has lines, and then a part of one. -/
theorem cutLines_append {t : List UInt8} (hls : ∀ l ∈ ls, Plain l) (hlast : newline ∉ last)
    (h : p ++ t = unlines ls ++ last) :
    ∃ ls₁ ls₂ b, ls = ls₁ ++ ls₂ ∧ cutLines p = (ls₁, b) ∧ p = unlines ls₁ ++ b ∧ newline ∉ b ∧
      b ++ t = unlines ls₂ ++ last := by
  obtain ⟨ls₁, b, rfl, hls₁, hb⟩ := exists_unlines p
  rw [List.append_assoc] at h
  obtain ⟨ls₂, rfl, ht⟩ := unlines_prefix hls₁ (fun l hl => (hls l hl).1) hlast h
  refine ⟨ls₁, ls₂, b, rfl, cutLines_unlines (fun l hl => hls l ?_) hb, rfl, hb, ht⟩
  exact List.mem_append_left _ hl

/-- As long as there are more ends of lines to come, each read brings one. -/
def Fed (cs : List (List UInt8)) : Prop := cs.Pairwise fun c c' => newline ∈ c' → newline ∈ c

instance (cs : List (List UInt8)) : Decidable (Fed cs) :=
  inferInstanceAs (Decidable (cs.Pairwise fun c c' => newline ∈ c' → newline ∈ c))

theorem not_mem_unlines_append (h : newline ∉ unlines ls ++ last) : ls = [] := by
  cases ls with
  | nil => rfl
  | cons l ls =>
    refine absurd ?_ h
    rw [unlines_cons]
    exact List.mem_append_left _ (List.mem_append_right _ List.mem_cons_self)

/-- Without an end of a line, nothing is printed. -/
theorem grepLoop_of_not_mem (re : List UInt8) (hb : newline ∉ b) (hcs : newline ∉ cs.flatten) :
    grepLoop re b cs = [] := by
  induction cs generalizing b with
  | nil => rfl
  | cons c cs ih =>
    rw [List.flatten_cons, List.mem_append, not_or] at hcs
    have hp : newline ∉ b ++ c := fun h => (List.mem_append.1 h).elim hb hcs.1
    rw [grepLoop, cutLines_of_none (cutLine_of_not_mem hp)]
    exact ih List.not_mem_nil hcs.2

theorem fed_of_not_mem (h : newline ∉ cs.flatten) : Fed cs := by
  rw [Fed, List.pairwise_iff_forall_sublist]
  intro c c' hsub hc'
  refine absurd (List.mem_flatten.2 ⟨c', ?_, hc'⟩) h
  exact hsub.subset (List.mem_cons_of_mem _ List.mem_cons_self)

/-- With each read that brings the end of a line, the loop prints the lines that match. -/
theorem Fed.grepLoop (h : Fed cs) (re : List UInt8) (hls : ∀ l ∈ ls, Plain l)
    (hlast : newline ∉ last) (hb : newline ∉ b) (hcs : b ++ cs.flatten = unlines ls ++ last) :
    grepLoop re b cs = unlines (ls.filter (matchText re)) := by
  induction cs generalizing b ls with
  | nil =>
    rw [List.flatten_nil, List.append_nil] at hcs
    have hnil : newline ∉ unlines ls ++ last := hcs ▸ hb
    rw [not_mem_unlines_append hnil]
    rfl
  | cons c cs ih =>
    rw [List.flatten_cons, ← List.append_assoc] at hcs
    obtain ⟨hc, h⟩ := List.pairwise_cons.1 h
    by_cases hnl : newline ∈ c
    · obtain ⟨ls₁, ls₂, b', rfl, hcut, hp, hb', hrest⟩ := cutLines_append hls hlast hcs
      have hls₁ : ls₁ ≠ [] := by
        rintro rfl
        have hp' : b ++ c = b' := hp
        exact hb' (hp' ▸ List.mem_append_right b hnl)
      rw [Grep.grepLoop, hcut, List.filter_append, unlines_append]
      simp only [if_neg hls₁]
      rw [ih h (fun l hl => hls l (List.mem_append_right _ hl)) hb' hrest]
    · -- No read after this one brings the end of a line.
      have hflat : newline ∉ (c :: cs).flatten := fun hmem => by
        obtain ⟨c', hc', hin⟩ := List.mem_flatten.1 hmem
        rcases List.mem_cons.1 hc' with rfl | hc'
        · exact hnl hin
        · exact hnl (hc c' hc' hin)
      have hnil : ls = [] := not_mem_unlines_append fun hmem => by
        rw [← hcs, List.append_assoc] at hmem
        exact (List.mem_append.1 hmem).elim hb hflat
      rw [hnil, grepLoop_of_not_mem re hb hflat]
      rfl

/-- The empty expression matches every line. -/
theorem filter_matchText_nil (ls : List (List UInt8)) : ls.filter (matchText []) = ls :=
  List.filter_eq_self.2 fun l _ => List.any_eq_true.2 ⟨l, (List.mem_tails l l).2 l.suffix_rfl, rfl⟩

/-- All lines are printed only with such reads. -/
theorem grepLoop_all (hls : ∀ l ∈ ls, Plain l) (hlast : newline ∉ last) (hb : newline ∉ b)
    (hne : [] ∉ cs) (hcs : b ++ cs.flatten = unlines ls ++ last) :
    (grepLoop [] b cs).length ≤ (unlines ls).length ∧
      ((grepLoop [] b cs).length = (unlines ls).length → Fed cs) := by
  induction cs generalizing b ls with
  | nil => exact ⟨Nat.zero_le _, fun _ => .nil⟩
  | cons c cs ih =>
    rw [List.flatten_cons, ← List.append_assoc] at hcs
    rw [List.mem_cons, not_or] at hne
    by_cases hnl : newline ∈ c
    · obtain ⟨ls₁, ls₂, b', rfl, hcut, hp, hb', hrest⟩ := cutLines_append hls hlast hcs
      have hls₁ : ls₁ ≠ [] := by
        rintro rfl
        have hp' : b ++ c = b' := hp
        exact hb' (hp' ▸ List.mem_append_right b hnl)
      obtain ⟨hle, heq⟩ := ih (fun l hl => hls l (List.mem_append_right _ hl)) hb' hne.2 hrest
      rw [Grep.grepLoop, hcut, filter_matchText_nil, unlines_append]
      simp only [if_neg hls₁, List.length_append]
      exact ⟨Nat.add_le_add_left hle _, fun h =>
        List.pairwise_cons.2 ⟨fun _ _ _ => hnl, heq (Nat.add_left_cancel h)⟩⟩
    · have hp : newline ∉ b ++ c := fun h => (List.mem_append.1 h).elim hb hnl
      have hloop : Grep.grepLoop [] b (c :: cs) = Grep.grepLoop [] [] cs := by
        rw [Grep.grepLoop, cutLines_of_none (cutLine_of_not_mem hp)]
        rfl
      rw [hloop]
      cases ls with
      | nil =>
        have hcs' : newline ∉ cs.flatten := fun hmem => by
          have hin := List.mem_append_right (b ++ c) hmem
          rw [hcs] at hin
          exact hlast hin
        rw [grepLoop_of_not_mem [] List.not_mem_nil hcs']
        refine ⟨Nat.zero_le _, fun _ => fed_of_not_mem ?_⟩
        rw [List.flatten_cons, List.mem_append, not_or]
        exact ⟨hnl, hcs'⟩
      | cons l ls =>
        -- The first part of a line is dropped.
        obtain ⟨l', rfl, hrest⟩ := unlines_prefix_of_not_mem hp hcs
        rw [List.forall_mem_cons] at hls
        have hplain : ∀ l ∈ l' :: ls, Plain l :=
          List.forall_mem_cons.2 ⟨hls.1.of_append, hls.2⟩
        have hle := (ih hplain List.not_mem_nil hne.2 hrest).1
        have hpos := List.length_pos_of_ne_nil (Ne.symm hne.1)
        have hlt : (unlines (l' :: ls)).length < (unlines ((b ++ c ++ l') :: ls)).length := by
          rw [unlines_cons, unlines_cons]
          simp only [List.length_append]
          omega
        exact ⟨(hle.trans_lt hlt).le, fun h => absurd h (hle.trans_lt hlt).ne⟩

theorem grepLoop_iff (hls : ∀ l ∈ ls, Plain l) (hlast : newline ∉ last) (hb : newline ∉ b)
    (hne : [] ∉ cs) (hcs : b ++ cs.flatten = unlines ls ++ last) :
    (∀ re, grepLoop re b cs = unlines (ls.filter (matchText re))) ↔ Fed cs := by
  constructor
  · intro h
    refine (grepLoop_all hls hlast hb hne hcs).2 (congrArg List.length ?_)
    rw [h [], filter_matchText_nil]
  · exact fun h re => h.grepLoop re hls hlast hb hcs

/-- Whatever the expression is, the lines that match are printed, each of them as a whole, if and
    only if each read brings the end of a line as long as there are more to come: a read that does
    not drops the part of a line that it brought, and what was left of the line before. -/
theorem grep_eq_iff (hls : ∀ l ∈ ls, Plain l) (hlast : newline ∉ last) (hne : [] ∉ cs)
    (hcs : cs.flatten = unlines ls ++ last) :
    (∀ re, grep re cs = unlines (ls.filter (matchText re))) ↔ Fed cs :=
  grepLoop_iff hls hlast List.not_mem_nil hne hcs

/-- A line that comes in two pieces. -/
theorem grep_eq_iff_pieces :
    ¬∀ re, grep re [[104], [105, newline]] = unlines ([[104, 105]].filter (matchText re)) := by
  have h : (∀ re, grep re [[104], [105, newline]] = unlines ([[104, 105]].filter (matchText re))) ↔
      Fed [[104], [105, newline]] :=
    grep_eq_iff (by decide) List.not_mem_nil (by decide) rfl
  rw [h]
  decide

/-! ### Files -/

theorem fileReads_eq (b rest : List UInt8) : fileReads b rest =
    let c := rest.take (bufsize - b.length - 1)
    let r := cutLines (b ++ c)
    if c = [] then []
    else c :: fileReads (if r.1 = [] then [] else r.2) (rest.drop (bufsize - b.length - 1)) := by
  rw [fileReads]

theorem fed_cons_of_mem {c : List UInt8} (h : newline ∈ c) : Fed (c :: cs) ↔ Fed cs :=
  List.pairwise_cons.trans (and_iff_right fun _ _ _ => h)

theorem fed_cons_of_not_mem {c : List UInt8} (h : newline ∉ c) :
    Fed (c :: cs) ↔ newline ∉ cs.flatten := by
  constructor
  · intro hf hmem
    obtain ⟨c', hc', hin⟩ := List.mem_flatten.1 hmem
    exact h ((List.pairwise_cons.1 hf).1 c' hc' hin)
  · intro hcs
    refine fed_of_not_mem ?_
    rw [List.flatten_cons, List.mem_append, not_or]
    exact ⟨h, hcs⟩

theorem length_lt_unlines (h : l ∈ ls) : l.length < (unlines ls).length := by
  obtain ⟨ls₁, ls₂, rfl⟩ := List.append_of_mem h
  rw [unlines_append, unlines_cons]
  simp only [List.length_append, List.length_cons]
  omega

/-- The reads of a file bring all of it, and each one brings the end of a line when the lines fit
    into the buffer. -/
theorem fileReads_fed {rest : List UInt8} (hls : ∀ l ∈ ls, Plain l) (hlast : newline ∉ last)
    (hb : newline ∉ b) (hlen : b.length < bufsize - 1) (h : b ++ rest = unlines ls ++ last) :
    (fileReads b rest).flatten = rest ∧ [] ∉ fileReads b rest ∧
      (Fed (fileReads b rest) ↔ ∀ l ∈ ls, l.length < bufsize - 1) := by
  induction hr : rest.length using Nat.strong_induction_on generalizing b rest ls last with
  | _ k ih =>
  have hcap : 0 < bufsize - b.length - 1 := by omega
  rw [fileReads_eq]
  generalize hn : bufsize - b.length - 1 = n at hcap
  have hsplit := List.take_append_drop n rest
  have hdrop : (rest.drop n).length = rest.length - n := List.length_drop ..
  have htake : (rest.take n).length = min n rest.length := List.length_take ..
  generalize rest.take n = c at hsplit htake
  generalize rest.drop n = rest' at hsplit hdrop
  subst hsplit
  by_cases hc : c = []
  · -- The file has been read.
    subst hc
    have hrest : rest' = [] := List.length_eq_zero_iff.1 (by
      rw [List.length_nil, List.nil_append] at htake
      omega)
    subst hrest
    have hnil : newline ∉ unlines ls ++ last := by
      rwa [← h, List.append_nil, List.append_nil]
    rw [if_pos rfl, not_mem_unlines_append hnil]
    exact ⟨rfl, List.not_mem_nil, iff_of_true .nil nofun⟩
  simp only [if_neg hc]
  have hpos := List.length_pos_of_ne_nil hc
  have hlt : rest'.length < k := by
    rw [← hr, List.length_append]
    omega
  have hbuf : (b ++ c).length ≤ bufsize - 1 := by
    rw [List.length_append]
    omega
  rw [← List.append_assoc] at h
  by_cases hnl : newline ∈ c
  · obtain ⟨ls₁, ls₂, b', rfl, hcut, hp, hb', hrest⟩ := cutLines_append hls hlast h
    have hls₁ : ls₁ ≠ [] := by
      rintro rfl
      have hp' : b ++ c = b' := hp
      exact hb' (hp' ▸ List.mem_append_right b hnl)
    have hlong : ∀ l ∈ ls₁, l.length < bufsize - 1 := fun l hl => by
      have hl' := length_lt_unlines hl
      rw [hp, List.length_append] at hbuf
      omega
    have hlen' : b'.length < bufsize - 1 := by
      obtain ⟨l, hl⟩ := List.exists_mem_of_ne_nil _ hls₁
      have hl' := length_lt_unlines hl
      rw [hp, List.length_append] at hbuf
      omega
    obtain ⟨hflat, hne, hfed⟩ := ih _ hlt (fun l hl => hls l (List.mem_append_right _ hl)) hlast hb'
      hlen' hrest rfl
    rw [hcut]
    simp only [if_neg hls₁]
    refine ⟨by rw [List.flatten_cons, hflat], ?_, ?_⟩
    · rw [List.mem_cons, not_or]
      exact ⟨Ne.symm hc, hne⟩
    · rw [fed_cons_of_mem hnl, hfed, List.forall_mem_append]
      exact (and_iff_right hlong).symm
  · have hp : newline ∉ b ++ c := fun h => (List.mem_append.1 h).elim hb hnl
    rw [cutLines_of_none (cutLine_of_not_mem hp)]
    simp only [if_true]
    cases ls with
    | nil =>
      have hrest : newline ∉ rest' := fun hmem => by
        have hin := List.mem_append_right (b ++ c) hmem
        rw [h] at hin
        exact hlast hin
      have hplain : ∀ l ∈ ([] : List (List UInt8)), Plain l := nofun
      obtain ⟨hflat, hne, -⟩ := ih _ hlt hplain hrest List.not_mem_nil (by decide) rfl rfl
      refine ⟨by rw [List.flatten_cons, hflat], ?_, ?_⟩
      · rw [List.mem_cons, not_or]
        exact ⟨Ne.symm hc, hne⟩
      · rw [fed_cons_of_not_mem hnl, hflat]
        exact iff_of_true hrest nofun
    | cons l ls =>
      obtain ⟨l', rfl, hrest⟩ := unlines_prefix_of_not_mem hp h
      rw [List.forall_mem_cons] at hls
      obtain ⟨hflat, hne, -⟩ := ih _ hlt (List.forall_mem_cons.2 ⟨hls.1.of_append, hls.2⟩) hlast
        List.not_mem_nil (by decide) hrest rfl
      have hmem : newline ∈ rest' := by
        rw [hrest, unlines_cons]
        exact List.mem_append_left _ (List.mem_append_right _ List.mem_cons_self)
      refine ⟨by rw [List.flatten_cons, hflat], ?_, ?_⟩
      · rw [List.mem_cons, not_or]
        exact ⟨Ne.symm hc, hne⟩
      · -- The buffer is full, with a part of the line.
        rw [fed_cons_of_not_mem hnl, hflat]
        refine iff_of_false (fun hno => hno hmem) fun hshort => ?_
        have hl := hshort _ List.mem_cons_self
        have hpos' := List.length_pos_of_mem hmem
        rw [List.length_append] at htake
        simp only [List.length_append] at hl
        omega

/-- From a file, the lines that match are printed for every expression if and only if all of its
    lines fit into the buffer, with their ends. -/
theorem grep_file_iff (hls : ∀ l ∈ ls, Plain l) (hlast : newline ∉ last) :
    (∀ re, grep re (fileReads [] (unlines ls ++ last)) = unlines (ls.filter (matchText re))) ↔
      ∀ l ∈ ls, l.length < bufsize - 1 := by
  obtain ⟨hflat, hne, hfed⟩ := fileReads_fed hls hlast List.not_mem_nil (by decide)
    (List.nil_append _)
  exact (grepLoop_iff hls hlast List.not_mem_nil hne hflat).trans hfed

/-- Two lines, of which one has an `h` at its start, and the first part of a third one. -/
theorem grep_file_iff_lines :
    grep [caret, 104] (fileReads [] (unlines [[104, 105], [105]] ++ [104])) =
      unlines ([[104, 105], [105]].filter (matchText [caret, 104])) :=
  (grep_file_iff (by decide) (by decide)).2 (by decide) [caret, 104]

end Grep
