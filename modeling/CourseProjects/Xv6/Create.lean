import CourseProjects.Xv6.Moves
import CourseProjects.Xv6.Pointers

/-!
# Creating a thread

`thread_create` takes a slot, a kernel stack, a region for the stack and references to the
files of the process, one after the other. It gives the slot back when there is no kernel
stack, and does not look at what `allocuvm` returns.

* `create_cleanly_iff`: it returns `0` with a stack, or `-1` with all as it was, exactly if no
  slot is free, or there is a kernel stack and the pages of the region can be mapped.
-/

namespace Xv6

open Vm

/-- The files of a process, `NOFILE`. -/
abbrev nofile : ℕ := 16

/-- What `thread_create` reads and writes: the process table, the address space of the
    process, the files and the directory of its first thread, and the references to them. -/
structure Host (ncpu : ℕ) where
  kernel : Kernel ncpu
  space : Space
  ofile : Fin nofile → Option ℕ
  cwd : ℕ
  fileRef : ℕ → ℤ
  inodeRef : ℕ → ℤ

/-- `filedup` and `idup`. -/
def dup (ref : ℕ → ℤ) (f : ℕ) : ℕ → ℤ := Function.update ref f (ref f + 1)

/-- The address at which a thread starts: below the end of its stack, for the argument. -/
def Thread.esp (x : Thread) : ℕ := (x.sz + 2 ^ 32 - 8) % 2 ^ 32

namespace Kernel

variable {ncpu : ℕ} {k k' : Kernel ncpu} {e : Event ncpu}

/-- The pids are drawn in order. -/
def Drawn (k : Kernel ncpu) : Prop := 0 < k.nextpid ∧ ∀ q, (k.proc q).pid < k.nextpid

/-- Nothing is drawn, and a slot has the pid of another one, or none. -/
theorem Drawn.keep (h : Drawn k) (hn : k'.nextpid = k.nextpid)
    (hp : ∀ q, (k'.proc q).pid = 0 ∨ ∃ r, (k'.proc q).pid = (k.proc r).pid) : Drawn k' := by
  obtain ⟨h0, hpid⟩ := h
  refine ⟨hn ▸ h0, fun q => ?_⟩
  rw [hn]
  rcases hp q with hz | ⟨r, hr⟩
  · rwa [hz]
  · rw [hr]
    exact hpid r

theorem Drawn.embryo (h : Drawn k) (np : Slot) : Drawn (k.embryo np) := by
  obtain ⟨h0, hpid⟩ := h
  refine ⟨by grind [Kernel.embryo], fun q => ?_⟩
  have := hpid q
  grind [Kernel.embryo]

theorem Drawn.move (h : Drawn k) (hm : Move k k') : Drawn k' := by
  cases hm with
  | quiet hq => exact h.keep (by rw [hq.globals]) fun q => .inr ⟨q, hq.pid q⟩
  | forkEmbryo | createEmbryo => exact h.embryo _
  | createInit =>
    refine h.keep rfl fun q => ?_
    rw [Kernel.createInit]
    grind
  | reapThread => exact h.keep (by simp) fun q => by grind
  | forkCopy | createSet | reapChild | commit | threadWakeup | forkStack | createStack | abandon
  | ready | dispatch | yield | sleep | goto | reparent | die =>
    refine h.keep rfl fun q => ?_
    grind [Kernel.forkCopy, Kernel.createSet, Kernel.reapChild, Kernel.execLoad, Kernel.allocStack,
      Kernel.abandon, Kernel.ready, Kernel.dispatch, Kernel.sleep]

theorem Drawn.special (h : Drawn k) (hs : Special k e k') : Drawn k' := by
  cases hs with
  | enterExec => exact h.keep rfl fun q => .inr ⟨q, rfl⟩
  | threadExit =>
    refine h.keep rfl fun q => .inr ⟨q, ?_⟩
    grind [Kernel.threadExit]
  | joinScan =>
    rw [Kernel.joinScan]
    split
    · exact h.keep (by simp) fun q => by grind
    split
    · exact h.keep rfl fun q => .inr ⟨q, rfl⟩
    · refine h.keep rfl fun q => .inr ⟨q, ?_⟩
      grind [Kernel.sleep]
  | exec =>
    rw [Kernel.exec]
    split
    · exact h.keep rfl fun q => .inr ⟨q, rfl⟩
    · refine h.keep rfl fun q => .inr ⟨q, ?_⟩
      grind
  | threadKill =>
    refine h.keep (by simp) fun q => .inr ⟨q, ?_⟩
    grind

theorem drawn_of_run {es : List (Event ncpu)}
    (hr : Trace.run Kernel.step (boot ncpu) es = some k) : Drawn k := by
  refine Trace.run_inv (P := fun _ _ => True)
    (fun _ _ _ h _ he => step_inv (fun _ _ => Drawn.move) (Drawn.special h) h he) ?_
    (Trace.along_of_forall fun _ _ _ => trivial) hr
  exact ⟨by simp, fun q => by grind⟩

end Kernel

namespace Host

variable {ncpu : ℕ} (h : Host ncpu)

/-- The files of the process, for another thread. -/
def dupFiles : ℕ → ℤ :=
  (List.finRange nofile).foldl (fun ref fd => (h.ofile fd).elim ref (dup ref)) h.fileRef

/-- `thread_create` in the slot `p`, with the frame for a kernel stack and those for `avail`
    pages: what it returns, and the state then. -/
def threadCreate (p : Slot) (kstack : Bool) (avail : ℕ) : Except Panic (ℤ × Host ncpu) :=
  let master := (h.kernel.proc p).master.getD p
  match h.kernel.allocproc with
  | none => .ok (-1, h)
  | some (np, k) =>
    let k := k.createAlloc p np master kstack
    if kstack = false then .ok (-1, { h with kernel := k })
    else
      let k := k.createInit p np master
      (h.space.threadCreate avail).map fun space =>
        let k := ((k.createMap p np master).createSet p np (k.proc master).pgdir).ready np
        (0, { h with
          kernel := k.goto p .user
          space := space
          fileRef := h.dupFiles
          inodeRef := dup h.inodeRef h.cwd })

/-- The region for the next stack. -/
def region : ℕ := h.space.emptyMem.head?.getD h.space.sz

/-- The pages of the stack are mapped, and the stack pointer lies in them. -/
def HasStack (s : Space) (x : Thread) : Prop :=
  (∀ a ∈ Space.stackPages x.virAdd, a ∈ s.pgdir) ∧
    ∃ a ∈ Space.stackPages x.virAdd, a ≤ x.esp ∧ x.esp < a + PGSIZE

/-- All is as before: the address space, the references and the process table. -/
structure Unchanged (h' : Host ncpu) : Prop where
  space : h'.space = h.space
  fileRef : h'.fileRef = h.fileRef
  inodeRef : h'.inodeRef = h.inodeRef
  proc : h'.kernel.proc = h.kernel.proc

/-- The call returns `0` with a stack for the new thread, or `-1` with all as before. -/
def Cleanly (p : Slot) (kstack : Bool) (avail : ℕ) : Prop :=
  ∃ r h', h.threadCreate p kstack avail = .ok (r, h') ∧
    (r = 0 ∧ (∃ x ∈ h'.space.threads.head?, HasStack h'.space x) ∨ r = -1 ∧ h.Unchanged h')

/-- No slot is free, or there is a kernel stack, and the region lies below the kernel, with
    frames for its pages, none of which is mapped. -/
def Room (kstack : Bool) (avail : ℕ) : Prop :=
  (h.kernel.findSlot fun x => x.state = .unused) = none ∨
    kstack = true ∧ h.region + 2 * PGSIZE < KERNBASE ∧ 2 ≤ avail ∧
      ∀ a ∈ Space.stackPages h.region, a ∉ h.space.pgdir

/-- What the system keeps: the bounds of the address space, and that pids are drawn in
    order. -/
structure Valid : Prop where
  bounded : h.space.Bounded
  narrow : h.space.Narrow
  drawn : h.kernel.Drawn

variable {h} {p : Slot} {avail : ℕ}

/-- The region is an address. -/
theorem Valid.region_lt (hv : h.Valid) : h.region < 2 ^ 32 := by
  rw [region]
  cases hm : h.space.emptyMem with
  | nil => exact hv.bounded.sz_lt
  | cons v vs => exact hv.narrow.region v (by simp [Space.regions, hm])

/-- The stack of the new thread is what `allocuvm` makes of the region. -/
theorem threadCreate_space (avail : ℕ) : ∃ s : Space, s.pgdir = h.space.pgdir ∧
    h.space.threadCreate avail = s.stackAt h.region avail := by
  rw [Space.threadCreate, region]
  cases hm : h.space.emptyMem with
  | nil => exact ⟨{ h.space with sz := (h.space.sz + 2 * PGSIZE) % 2 ^ 32, emptyMem := [] }, rfl, rfl⟩
  | cons v vs => exact ⟨{ h.space with emptyMem := vs }, rfl, rfl⟩

/-- A region below the kernel has two pages. -/
theorem length_stackPages {v : ℕ} (hk : v + 2 * PGSIZE < KERNBASE) :
    (Space.stackPages v).length = 2 := by
  simp only [Space.stackPages, pageRange, List.length_map, List.length_range, PGROUNDUP, PGSIZE,
    KERNBASE] at *
  omega

/-- No stack pointer in the kernel is in a user stack. -/
theorem not_hasStack {s : Space} {x : Thread} (hp : ∀ a ∈ s.pgdir, a < KERNBASE)
    (he : KERNBASE + PGSIZE ≤ x.esp) : ¬ HasStack s x := by
  rintro ⟨hall, a, ha, -, hlt⟩
  have := hp a (hall a ha)
  omega

/-- Below the kernel, the end of the stack lies on its last page. -/
theorem esp_mem {v : ℕ} (hk : v + 2 * PGSIZE < KERNBASE) {x : Thread} (hx : x.sz = v + 2 * PGSIZE) :
    ∃ a ∈ Space.stackPages v, a ≤ x.esp ∧ x.esp < a + PGSIZE := by
  have hw : v + 2 * PGSIZE < 2 ^ 32 := hk.trans (by simp [KERNBASE])
  have hesp : x.esp = v + 2 * PGSIZE - 8 := by
    rw [Thread.esp, hx]
    simp only [PGSIZE] at *
    omega
  refine ⟨(v + 2 * PGSIZE - 8) / PGSIZE * PGSIZE, (Space.mem_stackPages hw).2 ⟨?_, ?_, ?_⟩, ?_, ?_⟩
  · exact Nat.dvd_mul_left _ _
  all_goals
    simp only [PGSIZE] at *
    omega

/-- The new thread has a stack exactly if the pages of its region can be mapped. -/
theorem stackAt_hasStack {s : Space} {v : ℕ} (hp : ∀ a ∈ s.pgdir, PGSIZE ∣ a ∧ a < KERNBASE)
    (hv : v < 2 ^ 32) :
    (∃ s', s.stackAt v avail = .ok s' ∧ ∃ x ∈ s'.threads.head?, HasStack s' x) ↔
      v + 2 * PGSIZE < KERNBASE ∧ 2 ≤ avail ∧ ∀ a ∈ Space.stackPages v, a ∉ s.pgdir := by
  have hmap : (∃ s', s.stackAt v avail = .ok s' ∧ ∃ x ∈ s'.threads.head?, HasStack s' x) ↔
      ∃ r, allocuvm avail s.pgdir v ((v + 2 * PGSIZE) % 2 ^ 32) = .ok r ∧
        HasStack { s with pgdir := r.2 } { tid := s.nexttid, virAdd := v, sz := r.1 } := by
    rw [Space.stackAt]
    constructor
    · rintro ⟨s', he, x, hx, hs⟩
      obtain ⟨r, hr, rfl⟩ := map_eq_ok he
      cases hx
      exact ⟨r, hr, hs⟩
    · rintro ⟨r, hr, hs⟩
      rw [hr]
      exact ⟨_, rfl, _, rfl, hs⟩
  rw [hmap]
  by_cases hk : v + 2 * PGSIZE < KERNBASE
  · have hlen : (pageRange v (v + 2 * PGSIZE)).length = 2 := length_stackPages hk
    have hw : (v + 2 * PGSIZE) % 2 ^ 32 = v + 2 * PGSIZE :=
      Nat.mod_eq_of_lt (hk.trans (by simp [KERNBASE]))
    rw [hw, allocuvm_eq avail (fun a ha => (hp a ha).1) (Nat.le_add_right _ _) hk, and_iff_right hk,
      hlen]
    by_cases hr : Remaps avail s.pgdir v (v + 2 * PGSIZE)
    · obtain ⟨a, ha, hmem⟩ := hr
      rw [if_pos ⟨a, ha, hmem⟩]
      refine iff_of_false (by simp) fun h => ?_
      exact h.2 a (List.mem_of_mem_take ha) hmem
    rw [if_neg hr]
    by_cases hav : 2 ≤ avail
    · rw [if_pos hav]
      refine iff_of_true ⟨_, rfl, fun a ha => ?_, esp_mem hk rfl⟩ ⟨hav, fun a ha hmem => ?_⟩
      · exact Finset.mem_union_right _ (List.mem_toFinset.2 ha)
      · refine hr ⟨a, ?_, hmem⟩
        rwa [List.take_of_length_le (hlen.le.trans hav)]
    · -- The pages that were mapped are given back.
      rw [if_neg hav]
      refine iff_of_false ?_ fun h => hav h.1
      rintro ⟨r, he, hall, a, ha, -⟩
      cases he
      exact (Finset.mem_sdiff.1 (hall a ha)).2 (List.mem_toFinset.2 ha)
  · refine iff_of_false ?_ fun h => hk h.1
    rintro ⟨r, he, hs⟩
    -- Nothing is mapped, and the stack pointer is in the kernel.
    have hr : r.2 = s.pgdir ∧ (r.1 = 0 ∨ r.1 = v ∧ 2 ^ 32 ≤ v + 2 * PGSIZE) := by
      rw [allocuvm] at he
      split at he
      · cases he
        exact ⟨rfl, .inl rfl⟩
      · rw [if_pos (by simp only [KERNBASE, PGSIZE] at *; omega)] at he
        cases he
        refine ⟨rfl, .inr ⟨rfl, ?_⟩⟩
        simp only [KERNBASE, PGSIZE] at *
        omega
    refine not_hasStack (fun a ha => ?_) ?_ hs
    · exact (hp a (hr.1 ▸ ha)).2
    · rw [Thread.esp]
      rcases hr.2 with h0 | ⟨h0, hle⟩
      · simp [h0, KERNBASE, PGSIZE]
      · dsimp only
        rw [h0]
        simp only [KERNBASE, PGSIZE] at *
        omega

/-- The call succeeds with a stack, or fails with all as before, exactly if no slot is free or
    the thread gets all it needs. -/
theorem create_cleanly_iff {kstack : Bool} (hv : h.Valid) :
    h.Cleanly p kstack avail ↔ h.Room kstack avail := by
  obtain ⟨s, hpgdir, hs⟩ := threadCreate_space (h := h) avail
  have hpage : ∀ a ∈ s.pgdir, PGSIZE ∣ a ∧ a < KERNBASE := hpgdir ▸ hv.bounded.page
  rw [Cleanly, Room, threadCreate, Kernel.allocproc]
  rcases hf : h.kernel.findSlot fun x => x.state = .unused with _ | np
  · exact iff_of_true ⟨-1, h, rfl, .inr ⟨rfl, rfl, rfl, rfl, rfl⟩⟩ (.inl rfl)
  simp only [Option.map_some, reduceCtorEq, false_or]
  cases kstack with
  | false =>
    refine iff_of_false ?_ (by simp)
    rintro ⟨r, h', he, hr⟩
    rw [if_pos rfl] at he
    cases he
    rcases hr with ⟨h0, -⟩ | ⟨-, hun⟩
    · cases h0
    · -- The slot that is given back has drawn a pid.
      have hpid := congrArg (fun f => (f np).pid) hun.proc
      have := hv.drawn.2 np
      simp [Kernel.createAlloc, Kernel.abandon, Kernel.embryo, Kernel.modify_proc] at hpid
      omega
  | true =>
    rw [if_neg (by simp), hs, and_iff_right rfl, ← hpgdir, ← stackAt_hasStack hpage hv.region_lt]
    constructor
    · rintro ⟨r, h', he, hr⟩
      obtain ⟨s', hs', heq⟩ := map_eq_ok he
      cases heq
      rcases hr with ⟨-, hst⟩ | ⟨h1, -⟩
      · exact ⟨s', hs', hst⟩
      · cases h1
    · rintro ⟨s', hs', hst⟩
      rw [hs']
      exact ⟨0, _, rfl, .inl ⟨rfl, hst⟩⟩

/-- What the system keeps, in every state of the kernel and of the process. -/
theorem valid_of_run {es : List (Event ncpu)} {cs : List SpaceCall} {sz₀ : ℕ}
    (h₀ : sz₀ ≤ KERNBASE) (hk : Trace.run Kernel.step (Kernel.boot ncpu) es = some h.kernel)
    (hs : Trace.run Space.step (Space.boot sz₀) cs = some h.space) : h.Valid :=
  ⟨(Space.narrow_of_run h₀ hs).1, (Space.narrow_of_run h₀ hs).2, Kernel.drawn_of_run hk⟩

/-- The first process, with one file, in the directory of the inode `1`. -/
def first : Host 2 where
  kernel := Kernel.boot 2
  space := Space.boot 4096
  ofile := fun fd => if fd = 0 then some 0 else none
  cwd := 1
  fileRef := fun f => if f = 0 then 1 else 0
  inodeRef := fun i => if i = 1 then 1 else 0

theorem valid_first : first.Valid :=
  valid_of_run (by decide : 4096 ≤ KERNBASE)
    (rfl : Trace.run Kernel.step (Kernel.boot 2) [] = some first.kernel)
    (rfl : Trace.run Space.step (Space.boot 4096) [] = some first.space)

theorem create_cleanly_first : first.Cleanly 0 true 2 :=
  (create_cleanly_iff valid_first).2 (by rw [Room]; decide +kernel)

/-- With frames for one page only, a thread is created without a stack. -/
theorem create_without_stack : ¬ ∀ (h : Host 2) p kstack avail, h.Valid →
    h.Cleanly p kstack avail := by
  intro hall
  obtain ⟨r, h', he, hr⟩ := hall first 0 true 1 valid_first
  have hno : ∀ x ∈ (first.threadCreate 0 true 1).toOption, x.1 = 0 ∧
      ∀ y ∈ x.2.space.threads.head?, ∃ a ∈ Space.stackPages y.virAdd, a ∉ x.2.space.pgdir := by
    decide +kernel
  obtain ⟨h0, hstack⟩ := hno (r, h') (by rw [he]; rfl)
  rcases hr with ⟨-, y, hy, hall, -⟩ | ⟨h1, -⟩
  · obtain ⟨a, ha, hmem⟩ := hstack y hy
    exact hmem (hall a ha)
  · rw [h1] at h0
    cases h0

end Host
end Xv6
