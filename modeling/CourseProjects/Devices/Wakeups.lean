import CourseProjects.Devices.Channel

/-!
# Lost wake-ups

* `PipeUsers.awake_iff`: nobody sleeps who could go on, exactly as long as no killed writer
  fills the pipe and gives up while somebody sleeps in a read.
-/

namespace Devices

open Circular Function Storage

/-- Readers have to wait. -/
def Pipe.Empty (s : Pipe) : Prop := s.nread = s.nwrite ∧ s.writeopen = true

/-- Writers have to wait. -/
def Pipe.Full (s : Pipe) : Prop :=
  s.nwrite = s.nread + UInt32.ofNat pipesize ∧ s.readopen = true

namespace Caller

/-- Who sleeps has to. -/
def Rested (s : Pipe) : Caller → Prop
  | idle => True
  | reading _ asleep => asleep = true → s.Empty
  | writing _ asleep => asleep = true → s.Full

variable {s s' : Pipe} {c : Caller} {w : Bool}

theorem uses_wakeReader : c.wakeReader.uses w = c.uses w := by
  cases c <;> rfl

theorem uses_wakeWriter : c.wakeWriter.uses w = c.uses w := by
  cases c <;> rfl

theorem Rested.wakeReader (h : c.Rested s) (hs : s.Full → s'.Full) : c.wakeReader.Rested s' := by
  cases c with
  | idle => trivial
  | reading => nofun
  | writing => exact fun ha => hs (h ha)

theorem Rested.wakeWriter (h : c.Rested s) (hs : s.Empty → s'.Empty) : c.wakeWriter.Rested s' := by
  cases c with
  | idle => trivial
  | reading => exact fun ha => hs (h ha)
  | writing => nofun

end Caller

namespace PipeUsers

/-- Nobody sleeps who could go on. -/
def Awake (s : PipeUsers) : Prop := ∀ p, (s.caller p).Rested s.pipe

/-- A killed process writes more than the pipe holds, while somebody sleeps in a read. -/
def Overfills (s : PipeUsers) (p : Fin nproc) (bs : List UInt8) : Prop :=
  s.killed p = true ∧ pipesize < bs.length ∧ ∃ q n, s.caller q = .reading n true

/-- In the event a process overfills the pipe. -/
def GivesUp (s : PipeUsers) : PipeEvent → Prop
  | .write p bs => (s.caller p = .idle ∧ s.pipe.writeopen = true) ∧ s.Overfills p bs
  | .resume p => ∃ bs, s.caller p = .writing bs false ∧ s.Overfills p bs
  | .read .. | .kill _ | .close _ => False

/-- The ends of the pipe that the calls under way need are open. -/
def Open (s : PipeUsers) : Prop :=
  ∀ p w, (s.caller p).uses w = true → (if w then s.pipe.writeopen else s.pipe.readopen) = true

variable {s s' : PipeUsers} {p q : Fin nproc} {bs : List UInt8} {n : ℕ}

/-! ### The ends of the pipe -/

/-- The process `p` goes on with an end of the pipe that is open. -/
theorem Open.goOn {pipe : Pipe} {f : Fin nproc → Caller} {k : Fin nproc → Bool} {x : Caller}
    (h : s.Open) (hr : pipe.readopen = s.pipe.readopen) (hw : pipe.writeopen = s.pipe.writeopen)
    (hf : ∀ q w, (f q).uses w = (s.caller q).uses w)
    (hx : ∀ w, x.uses w = true → (if w then s.pipe.writeopen else s.pipe.readopen) = true) :
    Open ⟨pipe, update f p x, k⟩ := by
  intro q w hq
  change (if w then pipe.writeopen else pipe.readopen) = true
  rw [hr, hw]
  change (update f p x q).uses w = true at hq
  rcases eq_or_ne q p with rfl | hqp
  · rw [update_self] at hq
    exact hx w hq
  · rw [update_of_ne hqp, hf q w] at hq
    exact h q w hq

theorem Open.pipewrite {q₀ : List UInt8} (h : s.Open) (hholds : s.pipe.Holds q₀)
    (hw : s.pipe.writeopen = true) : (s.pipewrite p bs).Open := by
  obtain ⟨t, pre, bs', pipe, heq, -, -, hr', hw', -⟩ := hholds.writeLoop (s.killed p) bs
  rw [PipeUsers.pipewrite, heq]
  cases t with
  | sleep =>
    refine h.goOn hr' hw' (fun _ _ => Caller.uses_wakeReader) fun w hx => ?_
    cases w with
    | true => exact hw
    | false => cases hx
  | failed => exact h.goOn hr' hw' (fun _ _ => rfl) fun w hx => by cases hx
  | done => exact h.goOn hr' hw' (fun _ _ => Caller.uses_wakeReader) fun w hx => by cases hx

theorem Open.piperead {q₀ : List UInt8} (h : s.Open) (hholds : s.pipe.Holds q₀)
    (hr : s.pipe.readopen = true) : (s.piperead p n).2.Open := by
  rw [PipeUsers.piperead]
  split
  · refine h.goOn rfl rfl (fun _ _ => rfl) fun w hx => ?_
    split at hx
    · cases hx
    · cases w with
      | true => cases hx
      | false => exact hr
  · obtain ⟨pipe, heq, -, hr', hw'⟩ := hholds.readLoop n
    rw [heq]
    exact h.goOn hr' hw' (fun _ _ => Caller.uses_wakeWriter) fun w hx => by cases hx

theorem Open.step {e : PipeEvent} {q₀ : List UInt8} (h : s.Open) (hholds : s.pipe.Holds q₀)
    (hs' : s.step e = some s') : s'.Open := by
  cases e with
  | write p bs =>
    rw [PipeUsers.step] at hs'
    split at hs'
    · rename_i hp
      cases hs'
      exact h.pipewrite hholds hp.2
    · cases hs'
  | read p n =>
    rw [PipeUsers.step] at hs'
    split at hs'
    · rename_i hp
      cases hs'
      exact h.piperead hholds hp.2
    · cases hs'
  | resume p =>
    rw [PipeUsers.step] at hs'
    split at hs'
    · rename_i bs hp
      cases hs'
      exact h.pipewrite hholds (h p true (by rw [hp]; rfl))
    · rename_i n hp
      cases hs'
      exact h.piperead hholds (h p false (by rw [hp]; rfl))
    all_goals cases hs'
  | kill p =>
    cases hs'
    refine h.goOn rfl rfl (fun _ _ => rfl) fun w hx => h p w ?_
    rwa [Caller.uses_wakeWriter, Caller.uses_wakeReader] at hx
  | close w =>
    rw [PipeUsers.step] at hs'
    split at hs'
    · cases hs'
    · rename_i hno
      cases hs'
      -- Nobody is in a call that needs the end that is closed.
      intro p v hp
      cases w with
      | true =>
        have hp : (s.caller p).uses v = true := Caller.uses_wakeReader ▸ hp
        cases v with
        | true => exact absurd ⟨p, hp⟩ hno
        | false => exact h p false hp
      | false =>
        have hp : (s.caller p).uses v = true := Caller.uses_wakeWriter ▸ hp
        cases v with
        | true => exact h p true hp
        | false => exact absurd ⟨p, hp⟩ hno

/-! ### The turns -/

/-- One process goes on, and the others are woken up or stay as they are. -/
theorem awake_update {pipe : Pipe} {f : Fin nproc → Caller} {k : Fin nproc → Bool} {x : Caller}
    (hx : x.Rested pipe) (hf : ∀ q, q ≠ p → (f q).Rested pipe) : Awake ⟨pipe, update f p x, k⟩ := by
  intro q
  change (update f p x q).Rested pipe
  rcases eq_or_ne q p with rfl | hq
  · rwa [update_self]
  · rw [update_of_ne hq]
    exact hf q hq

/-- A turn of a write leaves nobody asleep who could go on, unless it overfills the pipe. -/
theorem Awake.pipewrite {q₀ : List UInt8} (h : s.Awake) (hopen : s.Open)
    (hp : ∀ n, s.caller p ≠ .reading n true) (hholds : s.pipe.Holds q₀) :
    (s.pipewrite p bs).Awake ↔ ¬s.Overfills p bs := by
  obtain ⟨t, pre, bs', pipe, heq, hbs, hholds', hr', hw', ht⟩ := hholds.writeLoop (s.killed p) bs
  -- What was full is full still.
  have hstill : s.pipe.Full → pipe.Full := by
    rintro ⟨hfull, hr⟩
    refine ⟨hholds'.full_iff.2 (le_antisymm hholds'.length_le ?_), hr'.trans hr⟩
    rw [List.length_append, hholds.full_iff.1 hfull]
    exact Nat.le_add_right _ _
  have hlen : (q₀ ++ pre).length = q₀.length + pre.length := List.length_append
  rw [PipeUsers.pipewrite, heq]
  cases t with
  | done =>
    have hnil : bs' = [] := by
      rcases ht with ⟨-, hnil⟩ | ⟨-, -, ht⟩
      · exact hnil
      · split at ht <;> cases ht
    refine iff_of_true (awake_update trivial fun q _ => (h q).wakeReader hstill) ?_
    rintro ⟨-, hlt, -⟩
    have hle := hholds'.length_le
    rw [hbs, hnil, List.append_nil] at hlt
    omega
  | sleep =>
    obtain ⟨-, hfull, ht⟩ := ht.resolve_left fun hdone => by cases hdone.1
    have hgo : ¬(s.pipe.readopen = false ∨ s.killed p = true) := fun hfail => by
      rw [if_pos hfail] at ht
      cases ht
    have hpipe : pipe.Full :=
      ⟨hholds'.full_iff.2 hfull, hr'.trans (Bool.not_eq_false _ ▸ fun hr => hgo (.inl hr))⟩
    exact iff_of_true (awake_update (fun _ => hpipe) fun q _ => (h q).wakeReader hstill)
      fun hover => hgo (.inr hover.1)
  | failed =>
    obtain ⟨hne, hfull, ht⟩ := ht.resolve_left fun hdone => by cases hdone.1
    have hfail : s.pipe.readopen = false ∨ s.killed p = true := by
      by_contra hgo
      rw [if_neg hgo] at ht
      cases ht
    by_cases hsleep : ∃ q n, s.caller q = .reading n true
    · -- The pipe was empty, is full now, and the sleeper has not been told.
      obtain ⟨q, n, hq⟩ := hsleep
      have hrest := h q
      rw [hq] at hrest
      have hnil := (hholds.eq_iff (by decide)).1 (hrest rfl).1
      have hr := hopen q false (by rw [hq]; rfl)
      have hk := hfail.resolve_left fun hclosed => by
        rw [show s.pipe.readopen = true from hr] at hclosed
        cases hclosed
      rw [hnil, List.nil_append] at hfull hholds'
      have hover : s.Overfills p bs := by
        refine ⟨hk, ?_, q, n, hq⟩
        rw [hbs, List.length_append, hfull]
        exact Nat.lt_add_of_pos_right (List.length_pos_of_ne_nil hne)
      refine iff_of_false (fun hawake => ?_) fun hnot => hnot hover
      have hqp : q ≠ p := fun he => hp n (he ▸ hq)
      have hrest' : (update s.caller p .idle q).Rested pipe := hawake q
      rw [update_of_ne hqp, hq] at hrest'
      rw [(hholds'.eq_iff (by decide)).1 (hrest' rfl).1] at hfull
      cases hfull
    · refine iff_of_true (awake_update trivial fun q _ => ?_) fun hover => hsleep hover.2.2
      have hrest := h q
      cases hc : s.caller q with
      | idle => trivial
      | reading n a => exact fun ha => absurd ⟨q, n, ha ▸ hc⟩ hsleep
      | writing bs a =>
        rw [hc] at hrest
        exact fun ha => hstill (hrest ha)

theorem Awake.piperead {q₀ : List UInt8} (h : s.Awake) (hholds : s.pipe.Holds q₀) :
    (s.piperead p n).2.Awake := by
  rw [PipeUsers.piperead]
  split
  · rename_i hempty
    refine awake_update ?_ fun q _ => h q
    split
    · trivial
    · exact fun _ => hempty
  · rename_i hne
    obtain ⟨pipe, heq, -⟩ := hholds.readLoop n
    rw [heq]
    exact awake_update trivial fun q _ => (h q).wakeWriter fun hempty => absurd hempty hne

/-! ### Runs -/

/-- An event leaves nobody asleep who could go on, unless a process gives up in it. -/
theorem Awake.step {e : PipeEvent} {q₀ : List UInt8} (h : s.Awake) (hopen : s.Open)
    (hholds : s.pipe.Holds q₀) (hs' : s.step e = some s') : s'.Awake ↔ ¬s.GivesUp e := by
  cases e with
  | write p bs =>
    rw [PipeUsers.step] at hs'
    split at hs'
    · rename_i hp
      cases hs'
      have hidle (n : ℕ) : s.caller p ≠ .reading n true := fun hr => by
        cases hp.1.symm.trans hr
      rw [h.pipewrite hopen hidle hholds, GivesUp, and_iff_right hp]
    · cases hs'
  | read p n =>
    rw [PipeUsers.step] at hs'
    split at hs'
    · cases hs'
      exact iff_of_true (h.piperead hholds) id
    · cases hs'
  | resume p =>
    rw [PipeUsers.step] at hs'
    split at hs'
    · rename_i bs hp
      cases hs'
      have hwriting (n : ℕ) : s.caller p ≠ .reading n true := fun hr => by
        cases hp.symm.trans hr
      rw [h.pipewrite hopen hwriting hholds, GivesUp]
      refine not_congr ⟨fun hover => ⟨bs, hp, hover⟩, ?_⟩
      rintro ⟨bs', hp', hover⟩
      rw [hp] at hp'
      cases hp'
      exact hover
    · rename_i n hp
      cases hs'
      refine iff_of_true (h.piperead hholds) ?_
      rintro ⟨bs, hp', -⟩
      rw [hp] at hp'
      cases hp'
    all_goals cases hs'
  | kill p =>
    cases hs'
    refine iff_of_true (awake_update ?_ fun q _ => h q) id
    cases s.caller p with
    | idle => trivial
    | reading | writing => exact fun ha => by cases ha
  | close w =>
    rw [PipeUsers.step] at hs'
    split at hs'
    · cases hs'
    · rename_i hno
      cases hs'
      refine iff_of_true ?_ id
      cases w with
      | true => exact fun q => (h q).wakeReader id
      | false => exact fun q => (h q).wakeWriter id

theorem giveUp_possible {e : PipeEvent} (hs : s.step e = none) : ¬s.GivesUp e := by
  intro hg
  cases e with
  | write p bs =>
    rw [PipeUsers.step, if_pos hg.1] at hs
    cases hs
  | resume p =>
    obtain ⟨bs, hp, -⟩ := hg
    rw [PipeUsers.step, hp] at hs
    cases hs
  | read | kill | close => exact hg

/-- Nobody ever sleeps who could go on, exactly if no killed process overfills the pipe, and gives
    up, while somebody sleeps in a read. -/
theorem awake_iff (es : List PipeEvent) :
    (∀ fs, fs <+: es → ∀ s, Trace.run step init fs = some s → s.Awake) ↔
      Trace.Along step (fun s e => ¬s.GivesUp e) init es := by
  refine (Trace.along_iff_prefix (I := fun s => (∃ c, s.Refines c) ∧ s.Open) ?_ ?_
    (fun s e => giveUp_possible) ⟨⟨_, refines_init⟩, fun p w h => nomatch h⟩ fun p => trivial).symm
  · rintro s e s' ⟨⟨c, hc⟩, hopen⟩ hA hs'
    exact hA.step hopen hc.holds hs'
  · rintro s e s' ⟨⟨c, hc⟩, hopen⟩ hs'
    obtain ⟨c', -, hc'⟩ := hc.step hs'
    exact ⟨⟨c', hc'⟩, hopen.step hc.holds hs'⟩

end PipeUsers

end Devices
