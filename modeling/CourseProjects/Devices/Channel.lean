import CourseProjects.Devices.Pipe

/-!
# What a pipe is for

A bounded channel (`Channel`): each call of `write` puts its bytes in one after the other,
each call of `read` takes out what has been there longest.

* `PipeUsers.run_fifo`: in whatever order the processes come, a pipe behaves as such a
  channel; no byte is lost, read twice, or read out of turn.
-/

namespace Devices

open Circular Function Storage

/-! ### The channel -/

/-- The bytes in the channel, what is left of each write, and whether there may be more. -/
structure Channel where
  queue : List UInt8
  pending : Fin nproc → Option (List UInt8)
  writeopen : Bool

inductive ChannelEvent
  | write (p : Fin nproc) (bs : List UInt8)
  | put (p : Fin nproc)
  | wrote (p : Fin nproc)
  | failed (p : Fin nproc)
  /-- A read of up to `n` bytes returns these. -/
  | read (n : ℕ) (bs : List UInt8)
  | close

def Channel.step (c : Channel) : ChannelEvent → Option Channel
  | .write p bs =>
    if c.pending p = none ∧ c.writeopen then some { c with pending := update c.pending p (some bs) }
    else none
  | .put p =>
    match c.pending p with
    | some (b :: bs) =>
      if c.queue.length < pipesize then
        some { c with queue := c.queue ++ [b], pending := update c.pending p (some bs) }
      else none
    | some [] | none => none
  | .wrote p =>
    if c.pending p = some [] then some { c with pending := update c.pending p none } else none
  | .failed p =>
    if c.pending p = none then none else some { c with pending := update c.pending p none }
  | .read n bs =>
    if bs = c.queue.take n ∧ (c.queue = [] → c.writeopen = false) then
      some { c with queue := c.queue.drop n }
    else none
  | .close => if ∀ p, c.pending p = none then some { c with writeopen := false } else none

namespace PipeUsers

/-! ### The labels -/

/-- A turn of `pipewrite`, on the channel. -/
def writeLabel (s : PipeUsers) (p : Fin nproc) (bs : List UInt8) : List ChannelEvent :=
  match s.pipe.writeLoop (s.killed p) bs with
  | (t, bs', _) =>
    List.replicate (bs.length - bs'.length) (.put p) ++
      match t with
      | .sleep => []
      | .failed => [.failed p]
      | .done => [.wrote p]

/-- A turn of `piperead`, on the channel. -/
def readLabel (s : PipeUsers) (p : Fin nproc) (n : ℕ) : List ChannelEvent :=
  (s.piperead p n).1.elim [] fun bs => [.read n bs]

/-- What an event is on the channel. -/
def label (s : PipeUsers) : PipeEvent → List ChannelEvent
  | .write p bs => .write p bs :: s.writeLabel p bs
  | .read p n => s.readLabel p n
  | .resume p =>
    match s.caller p with
    | .writing bs _ => s.writeLabel p bs
    | .reading n _ => s.readLabel p n
    | .idle => []
  | .kill _ => []
  | .close writable => if writable then [.close] else []

end PipeUsers

/-- What is left of the write that a process is at. -/
def Caller.left : Caller → Option (List UInt8)
  | writing bs _ => some bs
  | idle | reading .. => none

@[simp] theorem Caller.left_wakeReader (c : Caller) : c.wakeReader.left = c.left := by
  cases c <;> rfl

@[simp] theorem Caller.left_wakeWriter (c : Caller) : c.wakeWriter.left = c.left := by
  cases c <;> rfl

namespace PipeUsers

/-- The pipe behaves as the channel `c`. -/
structure Refines (s : PipeUsers) (c : Channel) : Prop where
  holds : s.pipe.Holds c.queue
  pending : ∀ p, c.pending p = (s.caller p).left
  writeopen : c.writeopen = s.pipe.writeopen

variable {s s' : PipeUsers} {c : Channel} {p q : Fin nproc} {bs : List UInt8} {n : ℕ}

/-! ### The turns -/

/-- Bytes are put in one after the other, while there is room. -/
theorem run_put (pre : List UInt8) {bs' : List UInt8} (hp : c.pending p = some (pre ++ bs'))
    (hlen : (c.queue ++ pre).length ≤ pipesize) :
    Trace.run Channel.step c (List.replicate pre.length (.put p)) =
      some { c with queue := c.queue ++ pre, pending := update c.pending p (some bs') } := by
  induction pre generalizing c with
  | nil =>
    rw [List.nil_append] at hp
    rw [List.append_nil, ← hp, update_eq_self]
    rfl
  | cons b pre ih =>
    rw [List.length_append, List.length_cons] at hlen
    rw [List.length_cons, List.replicate_succ, Trace.run_cons, Channel.step, hp]
    simp only [List.cons_append]
    rw [if_pos (by omega), Option.bind_some]
    have hlen' : ((c.queue ++ [b]) ++ pre).length ≤ pipesize := by
      simp only [List.length_append, List.length_singleton]
      omega
    rw [ih (update_self ..) hlen', List.append_assoc, List.singleton_append, update_idem]

theorem run_wrote (hp : c.pending p = some []) :
    Trace.run Channel.step c [.wrote p] = some { c with pending := update c.pending p none } := by
  rw [Trace.run_cons, Channel.step, if_pos hp]
  rfl

theorem run_failed (hp : c.pending p = some bs) :
    Trace.run Channel.step c [.failed p] = some { c with pending := update c.pending p none } := by
  rw [Trace.run_cons, Channel.step, if_neg (by simp [hp])]
  rfl

/-- The process `p` goes on, and the others have as much left as before. -/
theorem pending_update {pend : Fin nproc → Option (List UInt8)} {f : Fin nproc → Caller}
    (h : ∀ q, q ≠ p → pend q = (f q).left) (x : Caller) (q : Fin nproc) :
    update pend p x.left q = (update f p x q).left := by
  rcases eq_or_ne q p with rfl | hq
  · rw [update_self, update_self]
  · rw [update_of_ne hq, update_of_ne hq, h q hq]

/-- A turn of a write, of which the channel knows what is left. -/
theorem refines_pipewrite (hholds : s.pipe.Holds c.queue)
    (hpend : ∀ q, q ≠ p → c.pending q = (s.caller q).left) (hopen : c.writeopen = s.pipe.writeopen)
    (hp : c.pending p = some bs) :
    ∃ c', Trace.run Channel.step c (s.writeLabel p bs) = some c' ∧ (s.pipewrite p bs).Refines c' := by
  obtain ⟨t, pre, bs', pipe, heq, rfl, hholds, -, hw, ht⟩ := hholds.writeLoop (s.killed p) bs
  have hput := run_put pre hp hholds.length_le
  have hlen : (pre ++ bs').length - bs'.length = pre.length := by
    rw [List.length_append, Nat.add_sub_cancel]
  have hwake : ∀ q, q ≠ p → c.pending q = (s.caller q).wakeReader.left := fun q hq =>
    (hpend q hq).trans (Caller.left_wakeReader _).symm
  have hopen' := hopen.trans hw.symm
  rw [writeLabel, PipeUsers.pipewrite, heq]
  dsimp only
  rw [hlen, Trace.run_append, hput, Option.bind_some]
  cases t with
  | sleep => exact ⟨_, rfl, hholds, pending_update hwake (.writing bs' true), hopen'⟩
  | failed =>
    refine ⟨_, run_failed (update_self ..), ?_⟩
    rw [update_idem]
    exact ⟨hholds, pending_update hpend .idle, hopen'⟩
  | done =>
    rcases ht with ⟨-, rfl⟩ | ⟨-, -, ht⟩
    · refine ⟨_, run_wrote (update_self ..), ?_⟩
      rw [update_idem]
      exact ⟨hholds, pending_update hwake .idle, hopen'⟩
    · split at ht <;> cases ht

theorem Refines.piperead (h : s.Refines c) (hp : c.pending p = none) :
    ∃ c', Trace.run Channel.step c (s.readLabel p n) = some c' ∧ (s.piperead p n).2.Refines c' := by
  -- The process has nothing left to write, before and after.
  have hpend {f : Fin nproc → Caller} (hf : ∀ q, (f q).left = (s.caller q).left) {x : Caller}
      (hx : x.left = none) (q : Fin nproc) : c.pending q = (update f p x q).left := by
    rw [← pending_update (fun q _ => (h.pending q).trans (hf q).symm), hx, ← hp, update_eq_self]
  rw [readLabel, PipeUsers.piperead]
  split
  · refine ⟨c, rfl, h.holds, hpend (fun _ => rfl) ?_, h.writeopen⟩
    split <;> rfl
  · rename_i hne
    obtain ⟨pipe, heq, hholds, -, hw⟩ := h.holds.readLoop n
    have heof : c.queue = [] → c.writeopen = false := by
      intro hnil
      rw [h.writeopen, ← Bool.not_eq_true]
      exact fun hopen => hne ⟨(h.holds.eq_iff (by decide)).2 hnil, hopen⟩
    have hrun : Trace.run Channel.step c [.read n (c.queue.take n)] =
        some { c with queue := c.queue.drop n } := by
      rw [Trace.run_cons, Channel.step, if_pos ⟨rfl, heof⟩]
      rfl
    rw [heq]
    exact ⟨_, hrun, hholds, hpend (fun q => Caller.left_wakeWriter _) rfl, h.writeopen.trans hw.symm⟩

theorem Refines.close (h : s.Refines c) {w : Bool} (hp : ¬∃ p, (s.caller p).uses w) :
    ∃ c', Trace.run Channel.step c (s.label (.close w)) = some c' ∧ (s.pipeclose w).Refines c' := by
  cases w with
  | false => exact ⟨c, rfl, h.holds, fun q => (h.pending q).trans (Caller.left_wakeWriter _).symm,
      h.writeopen⟩
  | true =>
    have hnone : ∀ p, c.pending p = none := by
      intro p
      rw [h.pending]
      cases hc : s.caller p with
      | writing bs a => exact absurd ⟨p, by rw [hc]; rfl⟩ hp
      | idle | reading => rfl
    refine ⟨{ c with writeopen := false }, ?_, h.holds, fun q => ?_, rfl⟩
    · change Trace.run _ _ [ChannelEvent.close] = _
      rw [Trace.run_cons, Channel.step, if_pos hnone]
      rfl
    · exact (h.pending q).trans (Caller.left_wakeReader _).symm

theorem Refines.step {e : PipeEvent} (h : s.Refines c) (hs' : s.step e = some s') :
    ∃ c', Trace.run Channel.step c (s.label e) = some c' ∧ s'.Refines c' := by
  cases e with
  | write p bs =>
    rw [PipeUsers.step] at hs'
    split at hs'
    · rename_i hp
      cases hs'
      have hnone : c.pending p = none := by rw [h.pending, hp.1]; rfl
      obtain ⟨c', hc', hs'⟩ := refines_pipewrite (s := s)
        (c := { c with pending := update c.pending p (some bs) }) h.holds
        (fun q hq => (update_of_ne hq _ _).trans (h.pending q)) h.writeopen (update_self ..)
      refine ⟨c', ?_, hs'⟩
      rw [label, Trace.run_cons, Channel.step, if_pos ⟨hnone, h.writeopen.trans hp.2⟩]
      exact hc'
    · cases hs'
  | read p n =>
    rw [PipeUsers.step] at hs'
    split at hs'
    · rename_i hp
      cases hs'
      exact h.piperead (by rw [h.pending, hp.1]; rfl)
    · cases hs'
  | resume p =>
    rw [PipeUsers.step] at hs'
    rw [label]
    cases hp : s.caller p with
    | idle =>
      rw [hp] at hs'
      cases hs'
    | writing bs a =>
      rw [hp] at hs'
      cases a with
      | false =>
        cases hs'
        exact refines_pipewrite h.holds (fun q _ => h.pending q) h.writeopen
          (by rw [h.pending, hp]; rfl)
      | true => cases hs'
    | reading n a =>
      rw [hp] at hs'
      cases a with
      | false =>
        cases hs'
        exact h.piperead (by rw [h.pending, hp]; rfl)
      | true => cases hs'
  | kill p =>
    cases hs'
    refine ⟨c, rfl, h.holds, fun q => (h.pending q).trans ?_, h.writeopen⟩
    rw [← pending_update (f := s.caller) fun _ _ => rfl,
      Caller.left_wakeWriter, Caller.left_wakeReader, update_eq_self]
  | close w =>
    rw [PipeUsers.step] at hs'
    split at hs'
    · cases hs'
    · rename_i hp
      cases hs'
      exact h.close hp

theorem refines_init : init.Refines ⟨[], fun _ => none, true⟩ :=
  ⟨Pipe.holds_pipealloc, fun _ => rfl, rfl⟩

/-- In whatever order the processes come, a pipe behaves as a channel: each write puts its bytes
    in, one after the other, and each read takes out those that have been there longest. -/
theorem run_fifo {es : List PipeEvent} (h : Trace.run step init es = some s) :
    ∃ c, Trace.run Channel.step ⟨[], fun _ => none, true⟩ (Trace.labels step label init es) = some c ∧
      s.Refines c :=
  Trace.run_simulates (P := fun _ _ => True) (fun _ _ _ _ hR _ he => hR.step he)
    refines_init (Trace.along_of_forall fun _ _ _ => trivial) h

/-- A reader waits for a writer, and takes out a part of what it has written. -/
theorem run_fifo_part : ∃ s c,
    Trace.run step init [.read 1 2, .write 0 [1, 2, 3], .resume 1] = some s ∧
      Trace.run Channel.step ⟨[], fun _ => none, true⟩
        [.write 0 [1, 2, 3], .put 0, .put 0, .put 0, .wrote 0, .read 2 [1, 2]] = some c ∧
      s.Refines c ∧ c.queue = [3] := by
  obtain ⟨s, hs⟩ := Option.isSome_iff_exists.1 (by decide +kernel :
    (Trace.run step init [.read 1 2, .write 0 [1, 2, 3], .resume 1]).isSome = true)
  obtain ⟨c, hc, h⟩ := run_fifo hs
  refine ⟨s, c, hs, hc, h, ?_⟩
  have hq : (Trace.run Channel.step ⟨[], fun _ => none, true⟩
      (Trace.labels step label init [.read 1 2, .write 0 [1, 2, 3], .resume 1])).all
        (·.queue = [3]) = true := by
    decide +kernel
  rw [hc] at hq
  exact of_decide_eq_true hq

end PipeUsers

end Devices
