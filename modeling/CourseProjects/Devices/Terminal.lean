import CourseProjects.Devices.Console

/-!
# What the console is for

A terminal (`Terminal`): a line can be edited until it is complete, and is then there to be
read, byte for byte.

* `Console.run_edits`: whatever is typed and read, the console behaves as a terminal, and
  the echo shows what was committed and the line that is being edited;
* `Console.read_line`: what a read returns is of one line, without the end of the input, and
  short of what was asked for only at the end of the line or of the input.
-/

namespace Devices

open Circular Function Storage

/-! ### The terminal -/

/-- All that was committed, what of it is still to be read, and the line that is being edited. -/
structure Terminal where
  typed : List UInt8
  ready : List UInt8
  line : List UInt8

inductive TerminalEvent
  | key (c : UInt8)
  /-- A byte is read. -/
  | get (b : UInt8)
  /-- The end of the input is read. -/
  | eof

namespace Terminal

/-- A byte is added to the line; the line is complete with its end, with the end of the input, or
    when there is no room for more. -/
def add (t : Terminal) (c : UInt8) : Terminal :=
  let line := t.line ++ [c]
  if c = newline ∨ c = ctrl 'D' ∨ (t.ready ++ line).length = inputBuf then
    ⟨t.typed ++ line, t.ready ++ line, []⟩
  else { t with line := line }

/-- A key edits the line. -/
def key (t : Terminal) (c : UInt8) : Terminal :=
  if c = ctrl 'P' then t
  else if c = ctrl 'U' then { t with line := [] }
  else if c = ctrl 'H' ∨ c = 0x7f then { t with line := t.line.dropLast }
  else if c ≠ 0 ∧ (t.ready ++ t.line).length < inputBuf then t.add (if c = 13 then newline else c)
  else t

def step (t : Terminal) : TerminalEvent → Option Terminal
  | .key c => some (t.key c)
  | .get b =>
    match t.ready with
    | [] => none
    | c :: ready => if b = c ∧ b ≠ ctrl 'D' then some { t with ready := ready } else none
  | .eof =>
    match t.ready with
    | [] => none
    | c :: ready => if c = ctrl 'D' then some { t with ready := ready } else none

end Terminal

namespace Input

/-- The buffer is that of the terminal `t`. -/
structure Refines (s : Input) (t : Terminal) : Prop where
  holds : Circular.Holds inputBuf s.buf s.r s.e (t.ready ++ t.line)
  committed : s.w = s.r + UInt32.ofNat t.ready.length
  echo : s.echo = t.typed ++ t.line
  unread : t.ready <:+ t.typed
  line : ∀ b ∈ t.line, b ≠ newline ∧ b ≠ ctrl 'D'
  room : t.line ≠ [] → (t.ready ++ t.line).length < inputBuf

variable {s : Input} {t : Terminal} {c : UInt8}

theorem Refines.eq_iff (h : s.Refines t) : s.e = s.w ↔ t.line = [] := by
  rw [h.committed, h.holds.counter_iff (by decide)
    ((Nat.le_add_right _ _).trans (List.length_append ▸ h.holds.length_le)), List.length_append,
    Nat.add_eq_left, List.length_eq_zero_iff]

/-- The line is shortened by its last byte. -/
theorem Refines.erase {l : List UInt8} {b : UInt8} (h : s.Refines t) (hl : t.line = l ++ [b]) :
    s.buf ((s.e - 1).toNat % inputBuf) = b ∧ s.erase.Refines { t with line := l } := by
  obtain ⟨hh, hc, hecho, hu, hline, hroom⟩ := h
  rw [hl, ← List.append_assoc] at hh hecho
  obtain ⟨hb, hh⟩ := hh.unpush (by decide)
  refine ⟨hb, hh, hc, ?_, hu, fun c hc => hline c ?_, fun _ => ?_⟩
  · change s.echo.dropLast = _
    rw [hecho, List.dropLast_concat]
  · rw [hl]
    exact List.mem_append_left _ hc
  · have hlt := hroom (by simp [hl])
    rw [hl, ← List.append_assoc, List.length_append] at hlt
    exact (Nat.le_add_right _ _).trans_lt hlt

/-- Control-U takes back the line, and no more. -/
theorem Refines.killLine (h : s.Refines t) : s.killLine.Refines { t with line := [] } := by
  induction hl : t.line using List.reverseRecOn generalizing s t with
  | nil =>
    rw [Input.killLine, if_neg fun hne => hne.1 (h.eq_iff.2 hl), ← hl]
    exact h
  | append_singleton l b ih =>
    obtain ⟨hb, he⟩ := h.erase hl
    have hne : b ≠ newline := (h.line b (by simp [hl])).1
    have hkill := ih he rfl
    rw [Input.killLine, if_pos ⟨fun heq => by simp [h.eq_iff.1 heq] at hl, hb ▸ hne⟩]
    exact hkill

/-- A byte is added to the line. -/
theorem Refines.put (h : s.Refines t) (hlt : (t.ready ++ t.line).length < inputBuf) :
    Circular.Holds inputBuf (s.put c).buf s.r (s.put c).e (t.ready ++ (t.line ++ [c])) := by
  rw [← List.append_assoc]
  exact h.holds.push (by decide) hlt

/-- How far the counters are apart shows whether there is room. -/
theorem Refines.sub_lt_iff (h : s.Refines t) :
    s.e - s.r < UInt32.ofNat inputBuf ↔ (t.ready ++ t.line).length < inputBuf := by
  have hlt : (t.ready ++ t.line).length < 2 ^ 32 := h.holds.length_le.trans_lt (by decide)
  rw [h.holds.counter, add_sub_cancel_left, UInt32.lt_iff_toNat_lt, UInt32.toNat_ofNat',
    Nat.mod_eq_of_lt hlt]
  rfl

theorem Refines.add (h : s.Refines t) (hlt : (t.ready ++ t.line).length < inputBuf) :
    (if c = newline ∨ c = ctrl 'D' ∨ (s.put c).e = (s.put c).r + UInt32.ofNat inputBuf then
      { s.put c with w := (s.put c).e } else s.put c).Refines (t.add c) := by
  have hput := h.put (c := c) hlt
  have hfull : (s.put c).e = (s.put c).r + UInt32.ofNat inputBuf ↔
      (t.ready ++ (t.line ++ [c])).length = inputBuf :=
    hput.counter_iff (by decide) (Nat.le_refl _)
  have hecho : s.echo ++ [c] = t.typed ++ (t.line ++ [c]) := by
    rw [h.echo, List.append_assoc]
  rw [Terminal.add]
  simp only [hfull]
  split
  · refine ⟨?_, hput.counter, ?_, ?_, nofun, fun hne => absurd rfl hne⟩
    · change Circular.Holds inputBuf _ _ _ ((t.ready ++ (t.line ++ [c])) ++ [])
      rw [List.append_nil]
      exact hput
    · change s.echo ++ [c] = (t.typed ++ (t.line ++ [c])) ++ []
      rw [List.append_nil, hecho]
    · obtain ⟨l, hl⟩ := h.unread
      exact ⟨l, by rw [← List.append_assoc, hl]⟩
  · rename_i hno
    rw [not_or, not_or] at hno
    refine ⟨hput, h.committed, hecho, h.unread, fun b hb => ?_, fun _ => ?_⟩
    · rcases List.mem_append.1 hb with hb | hb
      · exact h.line b hb
      · rw [List.mem_singleton.1 hb]
        exact ⟨hno.1, hno.2.1⟩
    · exact Nat.lt_of_le_of_ne hput.length_le hno.2.2

theorem Refines.key (h : s.Refines t) (c : UInt8) : (s.key c).2.Refines (t.key c) := by
  rw [Input.key, Terminal.key]
  split
  · exact h
  split
  · exact h.killLine
  split
  · dsimp only
    split
    · rename_i hne
      obtain ⟨l, b, hl⟩ := (List.eq_nil_or_concat' t.line).resolve_left fun hnil =>
        hne (h.eq_iff.2 hnil)
      rw [hl, List.dropLast_concat]
      exact (h.erase hl).2
    · rename_i hne
      rw [h.eq_iff.1 (not_not.1 hne), List.dropLast_nil, ← h.eq_iff.1 (not_not.1 hne)]
      exact h
  simp only [h.sub_lt_iff]
  split
  · rename_i hlt
    rw [apply_ite Prod.snd]
    exact h.add hlt.2
  · exact h

/-- A key that wakes up nobody leaves nothing more to read. -/
theorem Refines.key_ready (h : s.Refines t) (hw : (s.key c).1 = false) :
    (t.key c).ready = t.ready := by
  rw [Input.key] at hw
  rw [Terminal.key]
  simp only [h.sub_lt_iff] at hw
  split
  · rfl
  split
  · rfl
  split
  · rfl
  rename_i h₁ h₂ h₃
  rw [if_neg h₁, if_neg h₂, if_neg h₃] at hw
  split
  · rename_i hlt
    rw [if_pos hlt, apply_ite Prod.fst] at hw
    generalize (if c = 13 then newline else c) = b at hw ⊢
    have hfull : (s.put b).e = (s.put b).r + UInt32.ofNat inputBuf ↔
        (t.ready ++ (t.line ++ [b])).length = inputBuf :=
      (h.put hlt.2).counter_iff (by decide) (Nat.le_refl _)
    rw [Terminal.add]
    split
    · rename_i hend
      rw [if_pos (hend.imp_right fun h => h.imp_right hfull.2)] at hw
      cases hw
    · rfl
  · rfl

theorem Refines.eq_iff_ready (h : s.Refines t) : s.r = s.w ↔ t.ready = [] := by
  have hready : t.ready.length < 2 ^ 32 := by
    have hle := h.holds.length_le
    rw [List.length_append] at hle
    exact ((Nat.le_add_right _ _).trans hle).trans_lt (by decide)
  rw [h.committed, ← List.length_eq_zero_iff, ← add_ofNat_inj (r := s.r) hready (by decide),
    show UInt32.ofNat 0 = 0 from rfl, add_zero, eq_comm]

/-- The byte that is read next is the first one that is ready. -/
theorem Refines.next (h : s.Refines t) : s.next = t.ready.head? := by
  rw [Input.next]
  cases hr : t.ready with
  | nil => rw [if_pos (h.eq_iff_ready.2 hr), List.head?_nil]
  | cons c ready =>
    have hpop := h.holds
    rw [hr, List.cons_append] at hpop
    rw [if_neg fun he => by simp [h.eq_iff_ready.1 he] at hr, (hpop.pop (by decide)).1,
      List.head?_cons]

/-! ### Reads -/

/-- No byte ends a line, or the input. -/
def Plain (bs : List UInt8) : Prop := ∀ b ∈ bs, b ≠ newline ∧ b ≠ ctrl 'D'

/-- What a turn of a read may make of what is ready, when it had got `got` before. -/
inductive Reads (killed : Bool) (got : List UInt8) :
    List UInt8 → Turn × ℕ × List UInt8 → List UInt8 → Prop
  /-- It has got what was asked for. -/
  | full {bs rest : List UInt8} (h : Plain bs) :
    Reads killed got (bs ++ rest) (.done, 0, got ++ bs) rest
  | line {bs rest : List UInt8} (h : Plain bs) (n : ℕ) :
    Reads killed got (bs ++ newline :: rest) (.done, n, got ++ (bs ++ [newline])) rest
  /-- The end of the input is left for the next call. -/
  | stop {bs rest : List UInt8} (h : Plain bs) (n : ℕ) (hne : got ++ bs ≠ []) :
    Reads killed got (bs ++ ctrl 'D' :: rest) (.done, n + 1, got ++ bs) (ctrl 'D' :: rest)
  | eof {rest : List UInt8} (n : ℕ) (hgot : got = []) :
    Reads killed got (ctrl 'D' :: rest) (.done, n + 1, got) rest
  | wait {bs : List UInt8} (h : Plain bs) (n : ℕ) :
    Reads killed got bs (if killed then .failed else .sleep, n + 1, got ++ bs) []

theorem plain_nil : Plain [] := nofun

/-- A byte that ends nothing comes first. -/
theorem Reads.cons {killed : Bool} {got ready rest : List UInt8} {x : Turn × ℕ × List UInt8}
    (h : Reads killed (got ++ [c]) ready x rest) (hc : c ≠ newline ∧ c ≠ ctrl 'D') :
    Reads killed got (c :: ready) x rest := by
  have hplain {bs : List UInt8} (h : Plain bs) : Plain (c :: bs) := List.forall_mem_cons.2 ⟨hc, h⟩
  have happ (bs : List UInt8) : got ++ [c] ++ bs = got ++ (c :: bs) := by
    rw [List.append_assoc, List.singleton_append]
  cases h with
  | full h =>
    rw [happ]
    exact .full (hplain h)
  | line h n =>
    rw [happ]
    exact .line (hplain h) n
  | stop h n hne =>
    rw [happ] at hne ⊢
    exact .stop (hplain h) n hne
  | eof n hgot => simp at hgot
  | wait h n =>
    rw [happ]
    exact .wait (hplain h) n

/-- A turn leaves the end of what was ready. -/
theorem Reads.suffix {killed : Bool} {got ready rest : List UInt8} {x : Turn × ℕ × List UInt8}
    (h : Reads killed got ready x rest) : rest <:+ ready := by
  cases h with
  | full => exact List.suffix_append _ _
  | line => exact (List.suffix_cons _ _).trans (List.suffix_append _ _)
  | stop => exact List.suffix_append _ _
  | eof => exact List.suffix_cons _ _
  | wait => exact List.nil_suffix

/-- Who falls asleep has read all there was, and no end of a line. -/
theorem Reads.sleep {killed : Bool} {got got' ready rest : List UInt8} {n : ℕ}
    (h : Reads killed got ready (.sleep, n, got') rest) (hgot : Plain got) :
    Plain got' ∧ rest = [] := by
  generalize hx : (Turn.sleep, n, got') = x at h
  cases h with
  | wait h n =>
    cases killed with
    | true => cases hx
    | false =>
      cases hx
      exact ⟨List.forall_mem_append.2 ⟨hgot, h⟩, rfl⟩
  | full | line | stop | eof => cases hx

theorem Refines.readLoop (killed : Bool) {target n : ℕ} {got : List UInt8} (h : s.Refines t)
    (hn : got.length + n = target) :
    ∃ x n' got' s' rest, s.readLoop killed target n got = (x, n', got', s') ∧
      Reads killed got t.ready (x, n', got') rest ∧ got'.length + n' = target ∧
        s'.Refines { t with ready := rest } := by
  induction n generalizing s t got with
  | zero =>
    refine ⟨_, _, _, _, t.ready, rfl, ?_, hn, h⟩
    have hfull : Reads killed got ([] ++ t.ready) (.done, 0, got ++ []) t.ready :=
      .full plain_nil
    simpa using hfull
  | succ n ih =>
    rw [Input.readLoop]
    cases hr : t.ready with
    | nil =>
      rw [if_pos (h.eq_iff_ready.2 hr)]
      refine ⟨_, _, _, _, [], rfl, ?_, hn, hr ▸ h⟩
      have hwait : Reads killed got [] (if killed then .failed else .sleep, n + 1, got ++ []) [] :=
        .wait plain_nil n
      simpa using hwait
    | cons c ready =>
      rw [if_neg fun he => by simp [h.eq_iff_ready.1 he] at hr]
      have hpop := h.holds
      rw [hr, List.cons_append] at hpop
      obtain ⟨hc, hpop⟩ := hpop.pop (by decide)
      have hs' : Input.Refines { s with r := s.r + 1 } { t with ready := ready } := by
        refine ⟨hpop, ?_, h.echo, ?_, h.line, fun hne => ?_⟩
        · change s.w = _
          rw [h.committed, hr, List.length_cons, Nat.add_comm, UInt32.ofNat_add, ← add_assoc]
          rfl
        · exact (List.suffix_cons c ready).trans (hr ▸ h.unread)
        · have hroom := h.room hne
          rw [hr, List.cons_append, List.length_cons] at hroom
          exact Nat.lt_of_succ_lt hroom
      simp only [hc]
      split
      · rename_i hD
        subst hD
        split
        · -- The byte is put back.
          rename_i hlt
          have hgot : got ≠ [] := by
            rintro rfl
            rw [List.length_nil] at hn
            omega
          refine ⟨_, _, _, _, ctrl 'D' :: ready, rfl, ?_, hn, ?_⟩
          · have hstop : Reads killed got ([] ++ ctrl 'D' :: ready) (.done, n + 1, got ++ [])
                (ctrl 'D' :: ready) := .stop plain_nil n (by simpa using hgot)
            simpa using hstop
          · rw [add_sub_cancel_right, ← hr]
            exact h
        · rename_i hlt
          have hgot : got = [] := List.length_eq_zero_iff.1 (by omega)
          exact ⟨_, _, _, _, ready, rfl, .eof n hgot, hn, hs'⟩
      split
      · rename_i hnl
        subst hnl
        refine ⟨_, _, _, _, ready, rfl, .line plain_nil n, ?_, hs'⟩
        rw [List.length_append]
        exact (Nat.add_assoc ..).trans (by rw [Nat.add_comm [newline].length]; exact hn)
      · rename_i hD hnl
        have hn' : (got ++ [c]).length + n = target := by
          rw [List.length_append, List.length_singleton]
          omega
        obtain ⟨x, n', got', s', rest, heq, hreads, hlen, hs'⟩ := ih hs' hn'
        exact ⟨x, n', got', s', rest, heq, hreads.cons ⟨hnl, hD⟩, hlen, hs'⟩

/-- What a turn that got `got'` reads, when there was `got` before. -/
def readEvents (got : List UInt8) : Turn × ℕ × List UInt8 → List TerminalEvent
  | (x, n, got') => (got'.drop got.length).map .get ++
      if x = .done ∧ n ≠ 0 ∧ got' = [] then [.eof] else []

/-- Bytes that do not end the input are read one after the other. -/
theorem run_get {bs rest : List UInt8} (h : ∀ b ∈ bs, b ≠ ctrl 'D') (ht : t.ready = bs ++ rest) :
    Trace.run Terminal.step t (bs.map .get) = some { t with ready := rest } := by
  induction bs generalizing t with
  | nil =>
    rw [List.nil_append] at ht
    rw [← ht]
    rfl
  | cons b bs ih =>
    rw [List.cons_append] at ht
    rw [List.map_cons, Trace.run_cons, Terminal.step, ht]
    dsimp only
    rw [if_pos ⟨rfl, h b List.mem_cons_self⟩, Option.bind_some,
      ih (fun b hb => h b (List.mem_cons_of_mem _ hb)) rfl]

theorem Reads.run {killed : Bool} {got rest : List UInt8} {x : Turn × ℕ × List UInt8}
    (h : Reads killed got t.ready x rest) :
    Trace.run Terminal.step t (readEvents got x) = some { t with ready := rest } := by
  generalize hr : t.ready = ready at h
  cases h with
  | full h =>
    rw [readEvents, List.drop_left, if_neg fun h => h.2.1 rfl, List.append_nil]
    exact run_get (fun b hb => (h b hb).2) hr
  | line h n =>
    rw [readEvents, List.drop_left, if_neg fun h => by simp at h, List.append_nil]
    refine run_get (fun b hb => ?_) (by rw [hr, List.append_assoc, List.singleton_append])
    rcases List.mem_append.1 hb with hb | hb
    · exact (h b hb).2
    · rw [List.mem_singleton.1 hb]
      decide
  | stop h n hne =>
    rw [readEvents, List.drop_left, if_neg fun h => hne h.2.2, List.append_nil]
    exact run_get (fun b hb => (h b hb).2) hr
  | eof n hgot =>
    rw [readEvents, List.drop_length, if_pos ⟨rfl, n.succ_ne_zero, hgot⟩, List.map_nil,
      List.nil_append, Trace.run_cons, Terminal.step, hr]
    rfl
  | wait h n =>
    have hdone : (if killed then Turn.failed else .sleep) ≠ .done := by
      split <;> nofun
    rw [readEvents, List.drop_left, if_neg fun h => hdone h.1, List.append_nil]
    exact run_get (fun b hb => (h b hb).2) (by rw [hr, List.append_nil])

end Input

/-! ### Runs -/

/-- A read under way has got bytes of one line, and sleeps only when there is nothing to read. -/
def Reader.Waits (t : Terminal) : Reader → Prop
  | .idle => True
  | .reading target n got asleep =>
    Input.Plain got ∧ got.length + n = target ∧ (asleep = true → t.ready = [])

namespace Console

open Input

/-- A turn of a read, on the terminal. -/
def readLabel (s : Console) (p : Fin nproc) (target n : ℕ) (got : List UInt8) :
    List TerminalEvent :=
  match s.input.readLoop (s.killed p) target n got with
  | (x, n', got', _) => readEvents got (x, n', got')

/-- What an event is on the terminal. -/
def label (s : Console) : ConsoleEvent → List TerminalEvent
  | .key c => [.key c]
  | .read p n => s.readLabel p n n []
  | .resume p =>
    match s.reader p with
    | .reading target n got _ => s.readLabel p target n got
    | .idle => []
  | .kill _ => []

/-- The console behaves as the terminal `t`. -/
structure Refines (s : Console) (t : Terminal) : Prop where
  input : s.input.Refines t
  reader : ∀ p, (s.reader p).Waits t

variable {s s' : Console} {t : Terminal} {p : Fin nproc} {target n : ℕ} {got : List UInt8}

/-- Whoever is woken may go on. -/
theorem waits_wake {t' : Terminal} {x : Reader} (h : x.Waits t) : x.wake.Waits t' := by
  cases x with
  | idle => trivial
  | reading => exact ⟨h.1, h.2.1, nofun⟩

theorem waits_congr {t' : Terminal} {x : Reader} (h : x.Waits t)
    (ht : t.ready = [] → t'.ready = []) : x.Waits t' := by
  cases x with
  | idle => trivial
  | reading => exact ⟨h.1, h.2.1, fun ha => ht (h.2.2 ha)⟩

theorem Refines.consoleintr (h : s.Refines t) (c : UInt8) :
    (s.consoleintr c).Refines (t.key c) := by
  refine ⟨h.input.key c, fun p => ?_⟩
  change (if (s.input.key c).1 then (s.reader p).wake else s.reader p).Waits _
  cases hw : (s.input.key c).1 with
  | true => exact waits_wake (h.reader p)
  | false => exact waits_congr (h.reader p) fun hr => (h.input.key_ready hw).trans hr

theorem Refines.consoleread (h : s.Refines t) (hgot : Plain got) (hn : got.length + n = target) :
    ∃ t', Trace.run Terminal.step t (s.readLabel p target n got) = some t' ∧
      (s.consoleread p target n got).2.Refines t' := by
  obtain ⟨x, n', got', input, rest, heq, hreads, hlen, hinput⟩ :=
    h.input.readLoop (s.killed p) hn
  have hmore : t.ready = [] → rest = [] := fun hr => List.suffix_nil.1 (hr ▸ hreads.suffix)
  have hothers {x : Reader} (hx : x.Waits { t with ready := rest }) (q : Fin nproc) :
      (update s.reader p x q).Waits { t with ready := rest } := by
    rcases eq_or_ne q p with rfl | hq
    · rwa [update_self]
    · rw [update_of_ne hq]
      exact waits_congr (h.reader q) hmore
  refine ⟨_, by rw [readLabel, heq]; exact hreads.run, ?_⟩
  rw [Console.consoleread, heq]
  cases x with
  | sleep =>
    obtain ⟨hplain, hnil⟩ := hreads.sleep hgot
    exact ⟨hinput, hothers ⟨hplain, hlen, fun _ => hnil⟩⟩
  | failed => exact ⟨hinput, hothers trivial⟩
  | done => exact ⟨hinput, hothers trivial⟩

theorem Refines.step {e : ConsoleEvent} (h : s.Refines t) (hs' : s.step e = some s') :
    ∃ t', Trace.run Terminal.step t (s.label e) = some t' ∧ s'.Refines t' := by
  cases e with
  | key c =>
    cases hs'
    exact ⟨_, rfl, h.consoleintr c⟩
  | read p n =>
    rw [Console.step] at hs'
    split at hs'
    · cases hs'
      exact h.consoleread nofun (Nat.zero_add n)
    · cases hs'
  | resume p =>
    rw [Console.step] at hs'
    rw [label]
    have hp := h.reader p
    cases hr : s.reader p with
    | idle =>
      rw [hr] at hs'
      cases hs'
    | reading target n got a =>
      rw [hr] at hs' hp
      cases a with
      | false =>
        cases hs'
        exact h.consoleread hp.1 hp.2.1
      | true => cases hs'
  | kill p =>
    cases hs'
    refine ⟨t, rfl, h.input, fun q => ?_⟩
    change (update s.reader p _ q).Waits t
    rcases eq_or_ne q p with rfl | hq
    · rw [update_self]
      exact waits_wake (h.reader q)
    · rw [update_of_ne hq]
      exact h.reader q

theorem refines_init : init.Refines ⟨[], [], []⟩ :=
  ⟨⟨holds_nil .., rfl, rfl, List.suffix_refl _, nofun, fun h => absurd rfl h⟩, fun _ => trivial⟩

/-- A run of the console is one of the terminal. -/
theorem refines_run {es : List ConsoleEvent} (h : Trace.run step init es = some s) :
    ∃ t, Trace.run Terminal.step ⟨[], [], []⟩ (Trace.labels step label init es) = some t ∧
      s.Refines t :=
  Trace.run_simulates (P := fun _ _ => True) (fun _ _ _ _ hR _ he => hR.step he) refines_init
    (Trace.along_of_forall fun _ _ _ => trivial) h

/-- Whatever is typed and read, the console behaves as a terminal: the buffer holds what is ready
    and the line, the echo shows what was committed and the line, a full buffer has no line that
    is not complete, and a process that sleeps finds nothing ready. -/
theorem run_edits {es : List ConsoleEvent} (h : Trace.run step init es = some s) :
    ∃ t, Trace.run Terminal.step ⟨[], [], []⟩ (Trace.labels step label init es) = some t ∧
      Circular.Holds inputBuf s.input.buf s.input.r s.input.e (t.ready ++ t.line) ∧
      s.input.w = s.input.r + UInt32.ofNat t.ready.length ∧
      s.input.echo = t.typed ++ t.line ∧
      (t.line ≠ [] → (t.ready ++ t.line).length < inputBuf) ∧
      ∀ p target n got, s.reader p = .reading target n got true → t.ready = [] := by
  obtain ⟨t, hrun, hin, hreader⟩ := refines_run h
  refine ⟨t, hrun, hin.holds, hin.committed, hin.echo, hin.room, fun p target n got hp => ?_⟩
  have hw := hreader p
  rw [hp] at hw
  exact hw.2.2 rfl

/-- A line is typed, with a correction, while a process waits for it. -/
def corrected : List ConsoleEvent :=
  [.read 0 5, .key 97, .key 120, .key (ctrl 'H'), .key 98, .key 13, .resume 0]

/-- The process gets the line as it was corrected. -/
theorem run_edits_corrected : ∃ s t, Trace.run step init corrected = some s ∧
    Trace.run Terminal.step ⟨[], [], []⟩
      [.key 97, .key 120, .key (ctrl 'H'), .key 98, .key 13, .get 97, .get 98, .get newline] =
        some t ∧
      s.input.echo = t.typed ++ t.line ∧ t = ⟨[97, 98, newline], [], []⟩ := by
  obtain ⟨s, hs⟩ := Option.isSome_iff_exists.1
    (by decide +kernel : (Trace.run step init corrected).isSome = true)
  obtain ⟨t, ht, -, -, hecho, -⟩ := run_edits hs
  refine ⟨s, t, hs, ht, hecho, ?_⟩
  cases ht
  rfl

/-- What a read returns is of one line, without the end of the input. It is short of what was asked
    for only at the end of the line, or of the input, which stays there unless nothing came before
    it. -/
theorem read_line {es : List ConsoleEvent} (h : Trace.run step init es = some s)
    (hp : s.reader p = .reading target n got false ∨
      s.reader p = .idle ∧ n = target ∧ got = []) {bs : List UInt8}
    (hbs : (s.consoleread p target n got).1 = some bs) :
    bs.length ≤ target ∧ Plain bs.dropLast ∧ ctrl 'D' ∉ bs ∧
      (bs.length < target → (∃ l, bs = l ++ [newline]) ∨
        bs ≠ [] ∧ (s.consoleread p target n got).2.input.next = some (ctrl 'D') ∨
        bs = [] ∧ s.input.next = some (ctrl 'D')) := by
  obtain ⟨t, -, ht⟩ := refines_run h
  obtain ⟨hgot, hn⟩ : Plain got ∧ got.length + n = target := by
    rcases hp with hp | ⟨-, rfl, rfl⟩
    · have hw := ht.reader p
      rw [hp] at hw
      exact ⟨hw.1, hw.2.1⟩
    · exact ⟨nofun, Nat.zero_add n⟩
  obtain ⟨x, n', got', input, rest, heq, hreads, hlen, hinput⟩ :=
    ht.input.readLoop (s.killed p) hn
  rw [Console.consoleread, heq] at hbs ⊢
  cases x with
  | sleep | failed => cases hbs
  | done =>
    cases hbs
    dsimp only
    have hD {l : List UInt8} (hl : Plain l) : ctrl 'D' ∉ l := fun hmem => (hl _ hmem).2 rfl
    have hplain {l : List UInt8} (hl : Plain l) : Plain (got ++ l) :=
      List.forall_mem_append.2 ⟨hgot, hl⟩
    have hdrop {l : List UInt8} (hl : Plain l) : Plain l.dropLast :=
      fun b hb => hl b (List.dropLast_subset _ hb)
    refine ⟨Nat.le.intro hlen, ?_⟩
    rw [hinput.next, ht.input.next]
    generalize hr : t.ready = ready at hreads
    generalize hx : (Turn.done, n', bs) = x at hreads
    cases hreads with
    | full h =>
      cases hx
      exact ⟨hdrop (hplain h), hD (hplain h), fun hlt => absurd hlen hlt.ne⟩
    | line h n =>
      cases hx
      rw [← List.append_assoc, List.dropLast_concat]
      refine ⟨hplain h, fun hmem => ?_, fun _ => .inl ⟨_, rfl⟩⟩
      rcases List.mem_append.1 hmem with hmem | hmem
      · exact hD (hplain h) hmem
      · exact absurd (List.mem_singleton.1 hmem) (by decide)
    | stop h n hne =>
      cases hx
      exact ⟨hdrop (hplain h), hD (hplain h), fun _ => .inr (.inl ⟨hne, rfl⟩)⟩
    | eof n hgot' =>
      cases hx
      exact ⟨hdrop hgot, hD hgot, fun _ => .inr (.inr ⟨hgot', rfl⟩)⟩
    | wait h n => split at hx <;> cases hx

/-- The end of the input, after a part of a line, is left for the next read. -/
theorem read_line_eof : ∃ s bs, Trace.run step init [.key 97, .key (ctrl 'D')] = some s ∧
    (s.consoleread 0 5 5 []).1 = some bs ∧ bs = [97] ∧
      (s.consoleread 0 5 5 []).2.input.next = some (ctrl 'D') := by
  obtain ⟨s, hs⟩ := Option.isSome_iff_exists.1
    (by decide +kernel : (Trace.run step init [.key 97, .key (ctrl 'D')]).isSome = true)
  have hfacts : (Trace.run step init [.key 97, .key (ctrl 'D')]).all (fun s =>
      s.reader 0 = .idle ∧ (s.consoleread 0 5 5 []).1 = some [97]) = true := by
    decide +kernel
  rw [hs] at hfacts
  obtain ⟨hidle, hbs⟩ := of_decide_eq_true hfacts
  obtain ⟨-, -, -, hshort⟩ := read_line hs (.inr ⟨hidle, rfl, rfl⟩) hbs
  refine ⟨s, [97], hs, hbs, rfl, ?_⟩
  rcases hshort (by decide) with ⟨l, hl⟩ | h | h
  · have hlast := congrArg List.getLast? hl
    rw [List.getLast?_concat] at hlast
    exact absurd hlast (by decide)
  · exact h.2
  · cases h.1

end Console

end Devices
