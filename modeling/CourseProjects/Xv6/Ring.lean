import CourseProjects.Lib.Window
import CourseProjects.Xv6.Multilevel

/-!
# The ring of the FCFS queue

The queue of `MULTILEVEL_SCHED` is a ring of 80 cells between `front` and `rear`. `in_qu`
goes from `front` to `rear` without going round, so it finds nothing once `rear` is before
`front`.

* `ring_isFifo_iff`: the runs in which the ring is a FIFO queue without duplicates.
* `ring_push`, `ring_pop`, `ring_get`: the queue of the kernel is this one.
-/

namespace Xv6

/-- The array and the two indices. -/
structure Ring (α : Type) where
  arr : ℕ → Option α
  front : ℕ
  rear : ℕ

/-- The calls of the queue. -/
inductive RingCall (α : Type)
  | push (a : α)
  | pop
  | get
  | emp
  deriving DecidableEq

/-- What a call returns. -/
inductive RingReply (α : Type)
  | done
  | got (a : Option α)
  | isEmp (b : Bool)
  deriving DecidableEq

namespace Ring

variable {α : Type}

/-! ### The code -/

section Code

variable (pid : α → ℤ) (r : Ring α)

def InQu (a : α) : Prop := ∃ i < r.rear, r.front ≤ i ∧ ∃ q ∈ r.arr i, pid q = pid a

instance : DecidablePred (r.InQu pid) :=
  fun a => inferInstanceAs (Decidable (∃ i < r.rear, r.front ≤ i ∧ ∃ q ∈ r.arr i, pid q = pid a))

def push (a : α) : Ring α :=
  if r.InQu pid a then r
  else { r with arr := Function.update r.arr (r.rear % 80) (some a), rear := (r.rear + 1) % 80 }

def pop : Ring α :=
  if r.front = r.rear then r
  else { r with arr := Function.update r.arr r.front none, front := (r.front + 1) % 80 }

def get : Option α := if r.front = r.rear then none else r.arr r.front

def emp : Bool := r.front = r.rear

def call : RingCall α → RingReply α × Ring α
  | .push a => (.done, r.push pid a)
  | .pop => (.done, r.pop)
  | .get => (.got r.get, r)
  | .emp => (.isEmp r.emp, r)

/-- The queue at the start. -/
def boot (α : Type) : Ring α where
  arr := fun _ => none
  front := 0
  rear := 0

/-- The queue as the kernel has it. -/
def ofKernel {ncpu : ℕ} (m : Multilevel ncpu) : Ring Slot := ⟨m.arr, m.front, m.rear⟩

theorem ring_push {ncpu : ℕ} (m : Multilevel ncpu) (p : Slot) :
    ofKernel (m.push p) = (ofKernel m).push (fun q => (m.proc q).pid) p := by
  rw [push, Multilevel.push]
  split
  · exact (if_pos ‹_›).symm
  · exact (if_neg ‹_›).symm

theorem ring_pop {ncpu : ℕ} (m : Multilevel ncpu) : ofKernel m.pop = (ofKernel m).pop := by
  rw [pop, Multilevel.pop]
  split
  · exact (if_pos ‹_›).symm
  · exact (if_neg ‹_›).symm

theorem ring_get {ncpu : ℕ} (m : Multilevel ncpu) : m.get = (ofKernel m).get := rfl

end Code

/-! ### The queue it is to be -/

/-- A call of a FIFO queue without duplicates. -/
def fifo (pid : α → ℤ) (l : List α) : RingCall α → RingReply α × List α
  | .push a => (.done, if ∃ q ∈ l, pid q = pid a then l else l ++ [a])
  | .pop => (.done, l.tail)
  | .get => (.got l.head?, l)
  | .emp => (.isEmp l.isEmpty, l)

/-- The processes in the ring, from `front` to `rear`. -/
def contents (r : Ring α) : List (Option α) :=
  Window.window 80 r.arr r.front ((r.rear + 80 - r.front) % 80)

/-- The ring and the queue, step by step. -/
def both (pid : α → ℤ) (s : Ring α × List α) (c : RingCall α) : Option (Ring α × List α) :=
  some ((s.1.call pid c).2, (fifo pid s.2 c).2)

/-- The ring returns what the queue does, and contains afterwards what the queue does. -/
def Agrees (pid : α → ℤ) (s : Ring α × List α) (c : RingCall α) : Prop :=
  (s.1.call pid c).1 = (fifo pid s.2 c).1 ∧
    (s.1.call pid c).2.contents = (fifo pid s.2 c).2.map some

/-- A process with a `pid` that is queued is not pushed while `rear` is before `front`. -/
def NoRepeat (pid : α → ℤ) (s : Ring α × List α) : RingCall α → Prop
  | .push a => s.1.rear < s.1.front → ∀ x ∈ s.1.contents, ∀ q ∈ x, pid q ≠ pid a
  | _ => True

instance [DecidableEq α] (pid : α → ℤ) (s : Ring α × List α) (c : RingCall α) :
    Decidable (Agrees pid s c) :=
  inferInstanceAs (Decidable (_ = _ ∧ _ = _))

instance (pid : α → ℤ) (s : Ring α × List α) : DecidablePred (NoRepeat pid s)
  | .push a => inferInstanceAs (Decidable (s.1.rear < s.1.front →
      ∀ x ∈ s.1.contents, ∀ q ∈ x, pid q ≠ pid a))
  | .pop | .get | .emp => isTrue trivial

variable {pid : α → ℤ} {r : Ring α} {l : List α} {a : α}

/-- The ring contains the queue. -/
structure Holds (r : Ring α) (l : List α) : Prop where
  front : r.front < 80
  rear : r.rear < 80
  contents : r.contents = l.map some

theorem Holds.length (h : Holds r l) : l.length = (r.rear + 80 - r.front) % 80 := by
  have := congrArg List.length h.contents
  simpa [Ring.contents] using this.symm

/-- `in_qu` finds the processes of the queue, unless `rear` is before `front`. -/
theorem Holds.inQu_iff (h : Holds r l) :
    r.InQu pid a ↔ r.front ≤ r.rear ∧ ∃ q ∈ l, pid q = pid a := by
  have hf := h.front
  have hr := h.rear
  have hmem : ∀ q, q ∈ l ↔ some q ∈ r.contents := fun q => by simp [h.contents]
  simp only [InQu, hmem, Ring.contents, Window.mem_window]
  constructor
  · rintro ⟨i, hi, hle, q, hq, hp⟩
    refine ⟨by omega, q, ⟨i - r.front, by omega, ?_⟩, hp⟩
    rwa [show (r.front + (i - r.front)) % 80 = i by omega]
  · rintro ⟨hle, q, ⟨i, hi, hq⟩, hp⟩
    rw [show (r.front + i) % 80 = r.front + i by omega] at hq
    exact ⟨r.front + i, by omega, by omega, q, hq, hp⟩

/-- A process that `in_qu` does not find is appended. -/
theorem Holds.push (h : Holds r l) (hl : l.length < 79) (hq : ¬ r.InQu pid a) :
    Holds (r.push pid a) (l ++ [a]) := by
  have hlen := h.length
  have hf := h.front
  have hr := h.rear
  rw [Ring.push, if_neg hq]
  refine ⟨hf, Nat.mod_lt _ (by omega), ?_⟩
  have hsize : ((r.rear + 1) % 80 + 80 - r.front) % 80 = l.length + 1 := by omega
  have hcell : r.rear % 80 = (r.front + l.length) % 80 := by omega
  have hold := h.contents
  rw [Ring.contents, ← hlen] at hold
  rw [Ring.contents]
  dsimp only
  rw [hsize, hcell, Window.window_push _ (by omega), hold, List.map_append]
  rfl

theorem Holds.pop (h : Holds r l) : Holds r.pop l.tail := by
  have hlen := h.length
  have hf := h.front
  have hr := h.rear
  rw [Ring.pop]
  split
  · obtain rfl : l = [] := List.length_eq_zero_iff.1 (by omega)
    exact h
  · refine ⟨Nat.mod_lt _ (by omega), hr, ?_⟩
    have hsize : (r.rear + 80 - (r.front + 1) % 80) % 80 + 1 = l.length := by omega
    have hold := h.contents
    rw [Ring.contents, ← hlen, ← hsize] at hold
    have hpop := Window.window_pop r.front r.arr none
      (by omega : (r.rear + 80 - (r.front + 1) % 80) % 80 < 80)
    rw [Nat.mod_eq_of_lt hf] at hpop
    rw [Ring.contents, hpop, hold, List.map_tail]

theorem Holds.get (h : Holds r l) : r.get = l.head? := by
  have hlen := h.length
  have hf := h.front
  have hr := h.rear
  rw [Ring.get]
  split
  · have hnil : l = [] := List.length_eq_zero_iff.1 (by omega)
    rw [hnil]
    rfl
  · cases l with
    | nil =>
      simp only [List.length_nil] at hlen
      omega
    | cons b l =>
      have hold := h.contents
      rw [Ring.contents, ← hlen, List.length_cons, Window.window_cons, Nat.mod_eq_of_lt hf] at hold
      exact (List.cons.inj hold).1

theorem Holds.emp (h : Holds r l) : r.emp = l.isEmpty := by
  have hlen := h.length
  have hf := h.front
  have hr := h.rear
  rw [Ring.emp, Bool.eq_iff_iff, decide_eq_true_iff, List.isEmpty_iff, ← List.length_eq_zero_iff]
  omega

/-! ### Runs -/

/-- The ring contains the queue, of processes in use with different pids. -/
structure Inv (pid : α → ℤ) (used : Finset α) (s : Ring α × List α) : Prop where
  holds : Holds s.1 s.2
  nodup : (s.2.map pid).Nodup
  used : ∀ q ∈ s.2, q ∈ used

variable {used : Finset α} {s s' : Ring α × List α} {c : RingCall α}

/-- The processes that a call puts to use. -/
def RingCall.Uses (used : Finset α) : RingCall α → Prop
  | .push a => a ∈ used
  | _ => True

instance [DecidableEq α] (used : Finset α) : DecidablePred (RingCall.Uses used)
  | .push a => inferInstanceAs (Decidable (a ∈ used))
  | .pop | .get | .emp => isTrue trivial

theorem Inv.length_le (h : Inv pid used s) : s.2.length ≤ used.card := by
  classical
  rw [← List.toFinset_card_of_nodup (List.Nodup.of_map pid h.nodup)]
  exact Finset.card_le_card fun q hq => h.used q (List.mem_toFinset.1 hq)

theorem inv_boot : Inv pid used (boot α, []) where
  holds := ⟨by simp [boot], by simp [boot], by simp [contents, boot]⟩
  nodup := List.nodup_nil
  used := by simp

/-- A call that does not push again keeps the ring and the queue together. -/
theorem Inv.step (h : Inv pid used s) (h64 : used.card ≤ 64) (hu : RingCall.Uses used c)
    (hn : NoRepeat pid s c) (hs : both pid s c = some s') : Inv pid used s' := by
  cases hs
  have hlen := h.length_le
  cases c with
  | push a =>
    by_cases hq : ∃ q ∈ s.2, pid q = pid a
    · have hin : s.1.InQu pid a := by
        refine h.holds.inQu_iff.2 ⟨not_lt.1 fun hlt => ?_, hq⟩
        obtain ⟨q, hq, hp⟩ := hq
        exact hn hlt (some q) (h.holds.contents ▸ List.mem_map_of_mem hq) q rfl hp
      simp only [call, push, fifo, if_pos hin, if_pos hq]
      exact h
    · have hin : ¬ s.1.InQu pid a := fun hin => hq (h.holds.inQu_iff.1 hin).2
      simp only [call, fifo, if_neg hq]
      refine ⟨h.holds.push (by omega) hin, ?_, fun q hmem => ?_⟩
      · rw [List.map_append, List.map_singleton, ← List.concat_eq_append, List.nodup_concat]
        exact ⟨fun hmem => hq (List.mem_map.1 hmem), h.nodup⟩
      · rcases List.mem_append.1 hmem with hmem | hmem
        · exact h.used q hmem
        · exact List.mem_singleton.1 hmem ▸ hu
  | pop =>
    exact ⟨h.holds.pop, List.map_tail ▸ h.nodup.tail,
      fun q hq => h.used q (List.mem_of_mem_tail hq)⟩
  | get => exact h
  | emp => exact h

/-- A call agrees unless it pushes a process again. -/
theorem Inv.agrees_iff (h : Inv pid used s) (h64 : used.card ≤ 64) (hu : RingCall.Uses used c) :
    Agrees pid s c ↔ NoRepeat pid s c := by
  constructor
  · intro ha
    cases c with
    | push a =>
      rintro hlt _ hx q rfl hp
      have hmem : q ∈ s.2 := by
        rw [h.holds.contents] at hx
        simpa using hx
      -- The ring is one longer, the queue is not.
      have hin : ¬ s.1.InQu pid a := fun hin => (h.holds.inQu_iff.1 hin).1.not_gt hlt
      have hlen := h.length_le
      have hpush := (h.holds.push (by omega) hin).contents
      have hsame : (s.1.push pid a).contents = s.2.map some := by
        have := ha.2
        rwa [fifo, if_pos ⟨q, hmem, hp⟩] at this
      have := congrArg List.length (hpush.symm.trans hsame)
      simp at this
    | pop => trivial
    | get => trivial
    | emp => trivial
  · intro hn
    refine ⟨?_, (h.step h64 hu hn rfl).holds.contents⟩
    cases c with
    | push a => rfl
    | pop => rfl
    | get => exact congrArg RingReply.got h.holds.get
    | emp => exact congrArg RingReply.isEmp h.holds.emp

/-- The ring is a FIFO queue without duplicates in the runs in which no process is pushed again
    while `rear` is before `front`, and in no others. -/
theorem ring_isFifo_iff (pid : α → ℤ) (used : Finset α) (h64 : used.card ≤ 64)
    {cs : List (RingCall α)} (hu : ∀ c ∈ cs, RingCall.Uses used c) :
    Trace.Along (both pid) (Agrees pid) (boot α, []) cs ↔
      Trace.Along (both pid) (NoRepeat pid) (boot α, []) cs :=
  Trace.along_congr (I := Inv pid used) (fun _ _ h hu => h.agrees_iff h64 hu)
    (fun _ _ _ h hu hn hs => h.step h64 hu hn hs)
    inv_boot hu

/-- A process goes through the queue again and again: `rear` goes round. -/
def around (n : ℕ) : List (RingCall ℕ) := (List.replicate n [.push 3, .pop]).flatten

theorem ring_isFifo_around :
    Trace.Along (both Int.ofNat) (Agrees Int.ofNat) (boot ℕ, [])
      (around 79 ++ [.push 3, .push 4, .get, .pop, .push 5, .emp]) :=
  (ring_isFifo_iff Int.ofNat {3, 4, 5} (by decide) (by decide +kernel)).2 (by decide +kernel)

/-- The process is pushed twice while `rear` is before `front`, and enters the queue twice. -/
theorem ring_duplicates :
    ¬ Trace.Along (both Int.ofNat) (Agrees Int.ofNat) (boot ℕ, [])
      (around 79 ++ [.push 3, .push 3]) := by
  decide +kernel

end Ring
end Xv6
