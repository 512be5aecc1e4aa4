import CourseProjects.Lib.Trace
import CourseProjects.Xv6.Proc
import CourseProjects.Xv6.Vm

/-!
# The stacks of the threads of a process

The address space of a process and its threads: `thread_create` takes a region for the
stack of a thread from `empty_mem`, or above the size of the process; the region of a
thread that was joined goes to `empty_mem`; and `growproc` moves the size. The sections of
these calls that touch the address space run under the lock of the table, so a call is one
step. The pages of a stack are those that `allocuvm` maps for its region.

* `stacks_separate`: where `growproc` never moves the size below a page of a stack or
  of a recorded region, the stacks, the recorded regions and the heap are separate.
-/

namespace Xv6

open Vm

/-- A thread of the process, the first one apart, until it is joined. -/
structure Thread where
  tid : ℕ
  virAdd : ℕ
  sz : ℕ
  zombie : Bool := false
  deriving DecidableEq

/-- The address space of a process: the size and the pages, of which `heap` were obtained
    through `growproc`, the threads, and the stack `empty_mem` from its top. -/
structure Space where
  sz : ℕ
  pgdir : Finset ℕ
  heap : Finset ℕ
  threads : List Thread
  emptyMem : List ℕ
  nexttid : ℕ
  deriving DecidableEq

/-- The calls of the threads of the process. -/
inductive SpaceCall
  | threadCreate (avail : ℕ)
  | threadExit (tid : ℕ)
  | threadJoin (tid : ℕ)
  /-- The caller does not matter: a thread grows the first one. -/
  | growproc (n : ℤ) (avail : ℕ)
  deriving DecidableEq

namespace Space

variable (s : Space)

/-! ### The calls -/

/-- A thread gets the pages of its stack; the result of `allocuvm` is not checked. -/
def stackAt (virAdd avail : ℕ) : Except Panic Space :=
  (allocuvm avail s.pgdir virAdd ((virAdd + 2 * PGSIZE) % 2 ^ 32)).map fun r =>
    { s with
      pgdir := r.2
      heap := s.heap ∩ r.2
      threads := { tid := s.nexttid, virAdd := virAdd, sz := r.1 } :: s.threads
      nexttid := s.nexttid + 1 }

/-- `thread_create`, once `allocproc` found a slot. -/
def threadCreate (avail : ℕ) : Except Panic Space :=
  match s.emptyMem with
  | [] => stackAt { s with sz := (s.sz + 2 * PGSIZE) % 2 ^ 32 } s.sz avail
  | v :: vs => stackAt { s with emptyMem := vs } v avail

def threadExit (tid : ℕ) : Space :=
  { s with threads := s.threads.map fun x => if x.tid = tid then { x with zombie := true } else x }

/-- `thread_join`, when it finds the thread: its region is recorded, and then unmapped. -/
def threadJoin (tid : ℕ) : Option (Except Panic Space) :=
  (s.threads.find? fun x => x.tid = tid ∧ x.zombie).map fun x =>
    (deallocuvm s.pgdir x.sz x.virAdd).map fun r =>
      { s with
        pgdir := r.2
        heap := s.heap ∩ r.2
        threads := s.threads.eraseP fun x => x.tid = tid ∧ x.zombie
        emptyMem := x.virAdd :: s.emptyMem }

/-- The size that `growproc` asks for. -/
def newsz (n : ℤ) : ℕ := ((s.sz + n) % 2 ^ 32).toNat

/-- `growproc`: the result `0` is taken for a failure, after the pages are unmapped. -/
def growproc (n : ℤ) (avail : ℕ) : Except Panic Space :=
  if 0 < n then
    (allocuvm avail s.pgdir s.sz (s.newsz n)).map fun r =>
      { s with
        sz := if r.1 = 0 then s.sz else r.1
        pgdir := r.2
        heap := (s.heap ∪ r.2 \ s.pgdir) ∩ r.2 }
  else if n < 0 then
    (deallocuvm s.pgdir s.sz (s.newsz n)).map fun r =>
      { s with
        sz := if r.1 = 0 then s.sz else r.1
        pgdir := r.2
        heap := s.heap ∩ r.2 }
  else .ok s

/-- A call; a call that does not come, or does not find what it waits for, is none. -/
def call : SpaceCall → Option (Except Panic Space)
  | .threadCreate avail =>
    if s.threads.length < nproc - 1 then some (s.threadCreate avail) else none
  | .threadExit tid =>
    if ∃ x ∈ s.threads, x.tid = tid ∧ x.zombie = false then some (.ok (s.threadExit tid)) else none
  | .threadJoin tid => s.threadJoin tid
  | .growproc n avail => some (s.growproc n avail)

/-- One call, from which the system goes on. -/
def step (e : SpaceCall) : Option Space := (s.call e).bind Except.toOption

/-- The address space of a process of one thread. -/
def boot (sz : ℕ) : Space where
  sz := sz
  pgdir := (pageRange 0 sz).toFinset
  heap := ∅
  threads := []
  emptyMem := []
  nexttid := 1

/-! ### Separate regions -/

/-- The pages of the stack at an address. -/
def stackPages (virAdd : ℕ) : List ℕ := pageRange virAdd (virAdd + 2 * PGSIZE)

/-- The stacks of the threads and the recorded regions. -/
def regions : List ℕ := s.threads.map Thread.virAdd ++ s.emptyMem

/-- The regions, the heap and what is not mapped are kept apart. -/
structure Separate (s : Space) : Prop where
  sz_le : s.sz ≤ KERNBASE + 2 * PGSIZE * s.regions.length
  length_lt : s.regions.length < nproc
  bound : ∀ v ∈ s.regions, v + 2 * PGSIZE < 2 ^ 32
  pages : ∀ a ∈ s.pgdir, PGSIZE ∣ a ∧ a < s.sz
  heap : s.heap ⊆ s.pgdir
  below : ∀ v ∈ s.regions, ∀ a ∈ stackPages v, a < s.sz
  apart : s.regions.Pairwise fun v w => (stackPages v).Disjoint (stackPages w)
  heap_apart : ∀ v ∈ s.regions, ∀ a ∈ stackPages v, a ∉ s.heap
  unmapped : ∀ v ∈ s.emptyMem, ∀ a ∈ stackPages v, a ∉ s.pgdir
  /-- A thread has its stack, or `allocuvm` failed. -/
  stack : ∀ x ∈ s.threads, x.sz = x.virAdd + 2 * PGSIZE ∧ x.sz < KERNBASE ∨
    x.sz = 0 ∧ ∀ a ∈ stackPages x.virAdd, a ∉ s.pgdir

variable {s} {s' : Space} {v a avail tid : ℕ} {n : ℤ} {e : SpaceCall}

theorem mem_stackPages (h : v + 2 * PGSIZE < 2 ^ 32) :
    a ∈ stackPages v ↔ InRange v (v + 2 * PGSIZE) a :=
  mem_pageRange (by omega)

theorem exists_mem_stackPages (h : v + 2 * PGSIZE < 2 ^ 32) : ∃ a, a ∈ stackPages v := by
  refine ⟨(v + (PGSIZE - 1)) / PGSIZE * PGSIZE, (mem_stackPages h).2 ⟨Nat.dvd_mul_left _ _, ?_⟩⟩
  simp only [PGSIZE]
  omega

/-- The regions of `empty_mem` are all different. -/
theorem Separate.nodup (h : Separate s) : s.emptyMem.Nodup := by
  refine ((List.pairwise_append.1 h.apart).2.1).imp_of_mem fun {v w} hv _ hd heq => ?_
  subst heq
  obtain ⟨a, ha⟩ := exists_mem_stackPages (h.bound v (List.mem_append_right _ hv))
  exact hd ha ha

/-- A region above the size is separate from the rest. -/
theorem Separate.reserve (h : Separate s) (hm : s.emptyMem = [])
    (hn : s.threads.length < nproc - 1) :
    Separate { s with sz := (s.sz + 2 * PGSIZE) % 2 ^ 32, emptyMem := [s.sz] } := by
  have hlen : s.regions.length = s.threads.length := by simp [regions, hm]
  have hsz := h.sz_le
  have hlt : s.sz + 2 * PGSIZE < 2 ^ 32 := by
    simp only [KERNBASE, PGSIZE, nproc] at *
    omega
  have hmod : (s.sz + 2 * PGSIZE) % 2 ^ 32 = s.sz + 2 * PGSIZE := Nat.mod_eq_of_lt hlt
  have hreg : ∀ v, v ∈ s.threads.map Thread.virAdd ++ [s.sz] ↔ v ∈ s.regions ∨ v = s.sz := by
    simp [regions, hm]
  have hnew : ∀ a ∈ stackPages s.sz, s.sz ≤ a ∧ a < s.sz + 2 * PGSIZE := fun a ha =>
    ((mem_stackPages (by omega)).1 ha).2
  rw [hmod]
  constructor
  case sz_le =>
    simp only [regions, List.length_append, List.length_map, List.length_singleton]
    simp only [hlen, PGSIZE] at hsz ⊢
    omega
  case length_lt =>
    simp only [regions, List.length_append, List.length_map, List.length_singleton]
    simp only [nproc] at hn ⊢
    omega
  case bound =>
    intro v hv
    rcases (hreg v).1 hv with hv | rfl
    · exact h.bound v hv
    · omega
  case pages =>
    intro a ha
    obtain ⟨hd, hlt⟩ := h.pages a ha
    exact ⟨hd, by dsimp only; omega⟩
  case heap => exact h.heap
  case below =>
    intro v hv a ha
    rcases (hreg v).1 hv with hv | rfl
    · have := h.below v hv a ha
      dsimp only
      omega
    · exact (hnew a ha).2
  case apart =>
    refine List.pairwise_append.2 ⟨?_, List.pairwise_singleton _ _, fun v hv w hw a ha ha' => ?_⟩
    · have := h.apart
      rwa [regions, hm, List.append_nil] at this
    · rw [List.mem_singleton.1 hw] at ha'
      have := h.below v (List.mem_append_left _ hv) a ha
      have := (hnew a ha').1
      omega
  case heap_apart =>
    intro v hv a ha hmem
    rcases (hreg v).1 hv with hv | rfl
    · exact h.heap_apart v hv a ha hmem
    · have := (h.pages a (h.heap hmem)).2
      have := (hnew a ha).1
      omega
  case unmapped =>
    intro v hv a ha hmem
    rw [List.mem_singleton.1 hv] at ha
    have := (h.pages a hmem).2
    have := (hnew a ha).1
    omega
  case stack => exact h.stack

/-- A thread takes the top of `empty_mem` for its stack. -/
theorem Separate.stackAt (h : Separate { s with emptyMem := v :: s.emptyMem }) :
    ∃ s', s.stackAt v avail = .ok s' ∧ Separate s' := by
  have hmid : v ∈ s.threads.map Thread.virAdd ++ v :: s.emptyMem :=
    List.mem_append_right _ List.mem_cons_self
  have hb : v + 2 * PGSIZE < 2 ^ 32 := h.bound v hmid
  have hfree : ∀ a ∈ s.pgdir, ¬ InRange v (v + 2 * PGSIZE) a := fun a ha hr =>
    h.unmapped v List.mem_cons_self a ((mem_stackPages hb).2 hr) ha
  obtain ⟨r, pgdir', he, hr⟩ := allocuvm_spec avail (fun a ha => (h.pages a ha).1)
    (by omega) hfree
  simp only [← mem_stackPages hb] at hr
  -- The pages are those that were mapped, and maybe the stack.
  have hmem : ∀ a ∈ pgdir', a ∈ s.pgdir ∨ a ∈ stackPages v := by
    intro a ha
    rcases hr with ⟨rfl, -⟩ | ⟨-, -, -, hall⟩
    · exact .inl ha
    · exact (hall a).1 ha
  have hapart := (List.perm_middle.pairwise_iff List.Disjoint.symm).1 h.apart
  have hothers := (List.pairwise_cons.1 hapart).1
  have hperm : ∀ w, w ∈ v :: (s.threads.map Thread.virAdd ++ s.emptyMem) →
      w ∈ s.threads.map Thread.virAdd ++ v :: s.emptyMem := fun w =>
    (List.perm_middle (a := v)).mem_iff.2
  refine ⟨_, by rw [Space.stackAt, Nat.mod_eq_of_lt hb, he]; rfl, ?_⟩
  constructor
  case sz_le =>
    have := h.sz_le
    simpa [regions, Nat.add_assoc, Nat.add_comm 1] using this
  case length_lt =>
    have := h.length_lt
    simpa [regions, Nat.add_assoc, Nat.add_comm 1] using this
  case bound => exact fun w hw => h.bound w (hperm w hw)
  case pages =>
    intro a ha
    rcases hmem a ha with ha | ha
    · exact h.pages a ha
    · exact ⟨((mem_stackPages hb).1 ha).1, h.below v hmid a ha⟩
  case heap => exact Finset.inter_subset_right
  case below => exact fun w hw => h.below w (hperm w hw)
  case apart => exact hapart
  case heap_apart =>
    exact fun w hw a ha hmem => h.heap_apart w (hperm w hw) a ha (Finset.mem_inter.1 hmem).1
  case unmapped =>
    intro w hw a ha hmem'
    rcases hmem a hmem' with hmem' | hmem'
    · exact h.unmapped w (List.mem_cons_of_mem _ hw) a ha hmem'
    · exact hothers w (List.mem_append_right _ hw) hmem' ha
  case stack =>
    intro x hx
    rcases List.mem_cons.1 hx with rfl | hx
    · rcases hr with ⟨rfl, rfl | ⟨-, hlt⟩⟩ | ⟨rfl, -, hlt, -⟩
      · exact .inr ⟨rfl, h.unmapped v List.mem_cons_self⟩
      · omega
      · exact .inl ⟨rfl, hlt⟩
    · refine (h.stack x hx).imp_right fun ⟨h0, hun⟩ => ⟨h0, fun a ha hmem' => ?_⟩
      rcases hmem a hmem' with hmem' | hmem'
      · exact hun a ha hmem'
      · exact hothers x.virAdd (List.mem_append_left _ (List.mem_map_of_mem hx)) hmem' ha

variable (avail) in
theorem Separate.threadCreate (h : Separate s) (hn : s.threads.length < nproc - 1) :
    ∃ s', s.threadCreate avail = .ok s' ∧ Separate s' := by
  rw [Space.threadCreate]
  cases hm : s.emptyMem with
  | nil =>
    have hr := h.reserve hm hn
    exact Separate.stackAt
      (s := { s with sz := (s.sz + 2 * PGSIZE) % 2 ^ 32, emptyMem := [] }) hr
  | cons v vs =>
    refine Separate.stackAt (s := { s with emptyMem := vs }) ?_
    dsimp only
    rw [← hm]
    exact h

/-- `thread_exit` leaves the regions as they are. -/
theorem Separate.threadExit (h : Separate s) (tid : ℕ) : Separate (s.threadExit tid) := by
  have hreg : (s.threadExit tid).regions = s.regions := by
    simp only [regions, Space.threadExit, List.map_map]
    congr 2
    funext x
    simp only [Function.comp_apply]
    split <;> rfl
  constructor
  case sz_le => exact hreg ▸ h.sz_le
  case length_lt => exact hreg ▸ h.length_lt
  case bound => exact hreg ▸ h.bound
  case pages => exact h.pages
  case heap => exact h.heap
  case below => exact hreg ▸ h.below
  case apart => exact hreg ▸ h.apart
  case heap_apart => exact hreg ▸ h.heap_apart
  case unmapped => exact h.unmapped
  case stack =>
    intro x hx
    obtain ⟨y, hy, rfl⟩ := List.mem_map.1 hx
    have := h.stack y hy
    dsimp only [Space.threadExit]
    split <;> exact this

/-- The stack of a thread is unmapped. -/
theorem Separate.dealloc (h : Separate s) {x : Thread} (hx : x ∈ s.threads) :
    ∃ r pgdir', deallocuvm s.pgdir x.sz x.virAdd = .ok (r, pgdir') ∧
      ∀ a, a ∈ pgdir' ↔ a ∈ s.pgdir ∧ a ∉ stackPages x.virAdd := by
  have hb := h.bound _ (List.mem_append_left _ (List.mem_map_of_mem hx))
  rcases h.stack x hx with ⟨hsz, hlt⟩ | ⟨hsz, hun⟩
  · obtain ⟨⟨r, pgdir'⟩, he⟩ := deallocuvm_ok x.virAdd s.pgdir hlt.le
    refine ⟨r, pgdir', he, fun a => ?_⟩
    rw [(deallocuvm_spec (fun a ha => (h.pages a ha).1) (by omega) he).1, mem_stackPages hb, hsz]
  · refine ⟨x.sz, s.pgdir, by simp [deallocuvm, hsz], fun a => ?_⟩
    exact ⟨fun ha => ⟨ha, fun hs => hun a hs ha⟩, fun ha => ha.1⟩

/-- `thread_join` unmaps the stack of the thread, and records its region. -/
theorem Separate.threadJoin (h : Separate s) {r : Except Panic Space}
    (hj : s.threadJoin tid = some r) :
    ∃ s', r = .ok s' ∧ Separate s' ∧
      ∀ a ∈ s.pgdir, a ∉ s'.pgdir → a ∉ s.heap ∧
        ∀ x ∈ s'.threads, a ∉ stackPages x.virAdd := by
  obtain ⟨x, hfind, rfl⟩ := Option.map_eq_some_iff.1 hj
  obtain ⟨hp, as, bs, hl, has⟩ := List.find?_eq_some_iff_append.1 hfind
  have hrest : (s.threads.eraseP fun x => x.tid = tid ∧ x.zombie) = as ++ bs := by
    rw [hl, List.eraseP_append_right _ fun b hb hpb => by simpa [hpb] using has b hb]
    exact congrArg (as ++ ·) (List.eraseP_cons_of_pos hp)
  have hx : x ∈ s.threads := hl ▸ List.mem_append_right _ List.mem_cons_self
  obtain ⟨r, pgdir', he, hmem⟩ := h.dealloc hx
  have hxr : x.virAdd ∈ s.regions := List.mem_append_left _ (List.mem_map_of_mem hx)
  -- The region of the thread moves to `empty_mem`.
  have hperm : ((as ++ bs).map Thread.virAdd ++ x.virAdd :: s.emptyMem).Perm s.regions := by
    rw [regions, hl, List.map_append, List.map_append, List.map_cons]
    refine List.perm_middle.trans ?_
    rw [List.append_assoc, List.append_assoc]
    exact List.perm_middle.symm
  have hapart : (x.virAdd :: ((as ++ bs).map Thread.virAdd ++ s.emptyMem)).Pairwise
      fun v w => (stackPages v).Disjoint (stackPages w) :=
    ((List.perm_middle.symm.trans hperm).pairwise_iff List.Disjoint.symm).2 h.apart
  have hothers := (List.pairwise_cons.1 hapart).1
  have hthreads : ∀ y ∈ as ++ bs, y ∈ s.threads := by
    intro y hy
    rw [hl]
    rcases List.mem_append.1 hy with hy | hy
    · exact List.mem_append_left _ hy
    · exact List.mem_append_right _ (List.mem_cons_of_mem _ hy)
  rw [he, hrest]
  refine ⟨_, rfl, ?_, fun a ha ha' => ?_⟩
  · constructor
    case sz_le =>
      have := h.sz_le
      rwa [← hperm.length_eq] at this
    case length_lt => exact hperm.length_eq.symm ▸ h.length_lt
    case bound => exact fun v hv => h.bound v (hperm.mem_iff.1 hv)
    case pages => exact fun a ha => h.pages a ((hmem a).1 ha).1
    case heap => exact Finset.inter_subset_right
    case below => exact fun v hv => h.below v (hperm.mem_iff.1 hv)
    case apart => exact (hperm.pairwise_iff List.Disjoint.symm).2 h.apart
    case heap_apart =>
      exact fun v hv a ha hheap =>
        h.heap_apart v (hperm.mem_iff.1 hv) a ha (Finset.mem_inter.1 hheap).1
    case unmapped =>
      intro v hv a ha ha'
      rcases List.mem_cons.1 hv with rfl | hv
      · exact ((hmem a).1 ha').2 ha
      · exact h.unmapped v hv a ha ((hmem a).1 ha').1
    case stack =>
      intro y hy
      refine (h.stack y (hthreads y hy)).imp_right fun ⟨h0, hun⟩ => ⟨h0, fun a ha ha' => ?_⟩
      exact hun a ha ((hmem a).1 ha').1
  · -- What was mapped and is not any more is of the stack of the thread.
    have hxa : a ∈ stackPages x.virAdd := by
      by_contra hna
      exact ha' ((hmem a).2 ⟨ha, hna⟩)
    refine ⟨h.heap_apart _ hxr a hxa, fun y hy hya => ?_⟩
    exact hothers _ (List.mem_append_left _ (List.mem_map_of_mem hy)) hxa hya

/-! ### Growing and shrinking -/

/-- `growproc` keeps the size above the pages of the regions. -/
def KeepsRegions (s : Space) : SpaceCall → Prop
  | .growproc n _ => n < 0 → 0 < s.newsz n → s.newsz n < s.sz →
      ∀ v ∈ s.regions, ∀ a ∈ stackPages v, a < s.newsz n
  | _ => True

instance (s : Space) : DecidablePred (KeepsRegions s)
  | .growproc n _ => inferInstanceAs (Decidable (n < 0 → 0 < s.newsz n → s.newsz n < s.sz →
      ∀ v ∈ s.regions, ∀ a ∈ stackPages v, a < s.newsz n))
  | .threadCreate _ | .threadExit _ | .threadJoin _ => isTrue trivial

/-- A size at least as large as the pages, and pages apart from the regions, do. -/
theorem Separate.resize (h : Separate s) {sz : ℕ} {pgdir heap : Finset ℕ}
    (hsz : sz ≤ KERNBASE + 2 * PGSIZE * s.regions.length)
    (hpages : ∀ a ∈ pgdir, PGSIZE ∣ a ∧ a < sz) (hheap : heap ⊆ pgdir)
    (hbelow : ∀ v ∈ s.regions, ∀ a ∈ stackPages v, a < sz)
    (hnew : ∀ a ∈ pgdir, a ∈ s.pgdir ∧ (a ∈ heap → a ∈ s.heap) ∨
      ∀ v ∈ s.regions, a ∉ stackPages v) :
    Separate { s with sz := sz, pgdir := pgdir, heap := heap } where
  sz_le := hsz
  length_lt := h.length_lt
  bound := h.bound
  pages := hpages
  heap := hheap
  below := hbelow
  apart := h.apart
  heap_apart := by
    intro v hv a ha hmem
    rcases hnew a (hheap hmem) with ⟨-, hold⟩ | hfree
    · exact h.heap_apart v hv a ha (hold hmem)
    · exact hfree v hv ha
  unmapped := by
    intro v hv a ha hmem
    rcases hnew a hmem with ⟨hold, -⟩ | hfree
    · exact h.unmapped v hv a ha hold
    · exact hfree v (List.mem_append_right _ hv) ha
  stack := by
    intro x hx
    refine (h.stack x hx).imp_right fun ⟨h0, hun⟩ => ⟨h0, fun a ha hmem => ?_⟩
    rcases hnew a hmem with ⟨hold, -⟩ | hfree
    · exact hun a ha hold
    · exact hfree _ (List.mem_append_left _ (List.mem_map_of_mem hx)) ha

variable (avail) in
/-- A process that grows does not panic, and gets pages above the regions. -/
theorem Separate.grow (h : Separate s) (hn : 0 < n) :
    ∃ s', s.growproc n avail = .ok s' ∧ Separate s' := by
  have hsz := h.sz_le
  have hlen := h.length_lt
  have hlt : s.sz + PGSIZE ≤ 2 ^ 32 := by
    simp only [KERNBASE, PGSIZE, nproc] at *
    omega
  obtain ⟨r, pgdir', he, hr⟩ := allocuvm_spec avail (fun a ha => (h.pages a ha).1) hlt
    fun a ha (hr : InRange s.sz (s.newsz n) a) => by
      have := (h.pages a ha).2
      have := hr.2.1
      omega
  refine ⟨_, by rw [Space.growproc, if_pos hn, he]; rfl, ?_⟩
  rcases hr with ⟨rfl, hr⟩ | ⟨rfl, hle, hk, hall⟩
  · have hr' : (if r = 0 then s.sz else r) = s.sz := by
      rcases hr with rfl | ⟨rfl, -⟩
      · exact if_pos rfl
      · split <;> rfl
    dsimp only
    rw [hr']
    refine h.resize hsz h.pages Finset.inter_subset_right h.below fun a ha => .inl ⟨ha, ?_⟩
    intro hmem
    simpa using (Finset.mem_inter.1 hmem).1
  · have hr' : (if s.newsz n = 0 then s.sz else s.newsz n) = s.newsz n := by
      split <;> omega
    dsimp only
    rw [hr']
    refine h.resize (by omega) (fun a ha => ?_) Finset.inter_subset_right (fun v hv a ha => ?_)
      fun a ha => ?_
    · rcases (hall a).1 ha with ha | ha
      · obtain ⟨hd, hlt⟩ := h.pages a ha
        exact ⟨hd, by omega⟩
      · exact ⟨ha.1, ha.2.2⟩
    · have := h.below v hv a ha
      omega
    · rcases (hall a).1 ha with ha | ha
      · refine .inl ⟨ha, fun hmem => ?_⟩
        simpa [ha] using (Finset.mem_inter.1 hmem).1
      · refine .inr fun v hv hmem => ?_
        have := h.below v hv a hmem
        have := ha.2.1
        omega

/-- What a process that shrinks comes to: a size of at least `sz` or of `0` is no change. -/
theorem Separate.shrink_eq (h : Separate s) (hn : n < 0) (he : s.growproc n avail = .ok s') :
    ∃ pgdir', s' = { s with
        sz := if 0 < s.newsz n ∧ s.newsz n < s.sz then s.newsz n else s.sz
        pgdir := pgdir'
        heap := s.heap ∩ pgdir' } ∧
      ∀ a, a ∈ pgdir' ↔ a ∈ s.pgdir ∧ ¬ InRange (s.newsz n) s.sz a := by
  have hsz := h.sz_le
  have hlen := h.length_lt
  rw [Space.growproc, if_neg (by omega), if_pos hn] at he
  cases hd : deallocuvm s.pgdir s.sz (s.newsz n) with
  | error e =>
    rw [hd] at he
    cases he
  | ok r =>
    obtain ⟨r, pgdir'⟩ := r
    rw [hd] at he
    cases he
    rcases Nat.lt_or_ge (s.newsz n) s.sz with hlt | hge
    · have hle : s.newsz n + PGSIZE ≤ 2 ^ 32 := by
        simp only [KERNBASE, PGSIZE, nproc] at *
        omega
      obtain ⟨hmem, rfl⟩ := deallocuvm_spec (fun a ha => (h.pages a ha).1) hle hd
      refine ⟨pgdir', ?_, hmem⟩
      grind
    · simp only [deallocuvm, if_pos hge, Except.ok.injEq, Prod.mk.injEq] at hd
      obtain ⟨rfl, rfl⟩ := hd
      refine ⟨s.pgdir, ?_, fun a => ⟨fun ha => ⟨ha, fun hr => ?_⟩, fun ha => ha.1⟩⟩
      · grind
      · have := hr.2
        omega

/-- A process that shrinks keeps the rest apart when the size stays above the regions. -/
theorem Separate.shrink (h : Separate s) (hn : n < 0) (hk : s.KeepsRegions (.growproc n avail))
    (he : s.growproc n avail = .ok s') : Separate s' := by
  have hsz := h.sz_le
  obtain ⟨pgdir', rfl, hmem⟩ := h.shrink_eq hn he
  have hsub : pgdir' ⊆ s.pgdir := fun a ha => ((hmem a).1 ha).1
  refine h.resize ?_ (fun a ha => ?_) Finset.inter_subset_right ?_ fun a ha =>
    .inl ⟨hsub ha, fun hheap => (Finset.mem_inter.1 hheap).1⟩
  · split <;> omega
  · obtain ⟨ha, hr⟩ := (hmem a).1 ha
    obtain ⟨hd, hlt⟩ := h.pages a ha
    refine ⟨hd, ?_⟩
    -- What is left is below the new size: the pages above it are unmapped.
    have : a < s.newsz n ∨ s.sz ≤ s.newsz n := by
      by_contra hc
      exact hr ⟨hd, by omega, hlt⟩
    split <;> omega
  · intro v hv a ha
    split
    · rename_i hc
      exact hk hn hc.1 hc.2 v hv a ha
    · exact h.below v hv a ha

/-! ### Runs -/

/-- A call that keeps the size above the regions does not remap, and keeps all apart. -/
theorem Separate.call (h : Separate s) {r : Except Panic Space} (he : s.call e = some r) :
    r ≠ .error .remap ∧ ∀ s', r = .ok s' → s.KeepsRegions e → Separate s' := by
  cases e with
  | threadCreate avail =>
    simp only [Space.call, Option.ite_none_right_eq_some, Option.some.injEq] at he
    obtain ⟨hn, rfl⟩ := he
    obtain ⟨s', he, hs⟩ := h.threadCreate avail hn
    rw [he]
    refine ⟨nofun, fun s'' heq _ => ?_⟩
    cases heq
    exact hs
  | threadExit tid =>
    simp only [Space.call, Option.ite_none_right_eq_some, Option.some.injEq] at he
    obtain ⟨-, rfl⟩ := he
    refine ⟨nofun, fun s'' heq _ => ?_⟩
    cases heq
    exact h.threadExit tid
  | threadJoin tid =>
    obtain ⟨s', rfl, hs, -⟩ := h.threadJoin he
    refine ⟨nofun, fun s'' heq _ => ?_⟩
    cases heq
    exact hs
  | growproc n avail =>
    obtain rfl := Option.some.inj he
    rcases lt_trichotomy n 0 with hn | rfl | hn
    · refine ⟨fun hr => ?_, fun s'' heq hk => h.shrink hn hk heq⟩
      rw [Space.growproc, if_neg (by omega), if_pos hn] at hr
      cases hd : deallocuvm s.pgdir s.sz (s.newsz n) with
      | error p =>
        rw [hd] at hr
        cases hr
        exact deallocuvm_ne_remap hd
      | ok r =>
        rw [hd] at hr
        cases hr
    · refine ⟨nofun, fun s'' heq _ => ?_⟩
      cases heq
      exact h
    · obtain ⟨s', he, hs⟩ := h.grow avail hn
      rw [he]
      refine ⟨nofun, fun s'' heq _ => ?_⟩
      cases heq
      exact hs

theorem Separate.run (h : Separate s) {es : List SpaceCall}
    (hk : Trace.Along Space.step KeepsRegions s es) (hr : Trace.run Space.step s es = some s') :
    Separate s' := by
  refine Trace.run_inv (fun s e s' h hk he => ?_) h hk hr
  obtain ⟨r, hc, hs⟩ := Option.bind_eq_some_iff.1 he
  cases r with
  | error p => cases hs
  | ok t => exact Option.some.inj hs ▸ (h.call hc).2 t rfl hk

theorem separate_boot {sz₀ : ℕ} (h₀ : sz₀ ≤ KERNBASE) : Separate (boot sz₀) := by
  have hmem : ∀ a, a ∈ (boot sz₀).pgdir ↔ InRange 0 sz₀ a := fun a => by
    simp [boot, mem_pageRange (show 0 + PGSIZE ≤ 2 ^ 32 by simp [PGSIZE])]
  constructor
  case sz_le => simpa [boot, regions] using h₀
  case length_lt => simp [boot, regions, nproc]
  case pages => exact fun a ha => ⟨((hmem a).1 ha).1, ((hmem a).1 ha).2.2⟩
  case heap => exact Finset.empty_subset _
  case apart => exact List.Pairwise.nil
  all_goals intro v hv; cases hv

/-- A call breaks the bound on the regions exactly when it moves the size below one of their
    pages. -/
theorem Separate.below_iff (h : Separate s) (he : s.call e = some (.ok s')) :
    (∀ v ∈ s'.regions, ∀ a ∈ stackPages v, a < s'.sz) ↔ s.KeepsRegions e := by
  refine ⟨fun hb => ?_, fun hk => ((h.call he).2 s' rfl hk).below⟩
  cases e with
  | growproc n avail =>
    intro hn hpos hlt v hv a ha
    obtain ⟨pgdir', rfl, -⟩ := h.shrink_eq hn (Option.some.inj he)
    simpa [hpos, hlt] using hb v hv a ha
  | _ => trivial

/-- In every run in which `growproc` keeps the size above the pages of the stacks of the
    threads and of the recorded regions, these and the pages obtained through `growproc`
    are separate and below the size, `empty_mem` holds no region twice and at most `NPROC` of
    them, no call maps a page again, and `thread_join` unmaps nothing that the heap or
    another thread uses. The next call leaves the regions below the size exactly if it
    is such a call. -/
theorem stacks_separate {sz₀ : ℕ} {es : List SpaceCall} (h₀ : sz₀ ≤ KERNBASE)
    (hk : Trace.Along Space.step KeepsRegions (boot sz₀) es)
    (hr : Trace.run Space.step (boot sz₀) es = some s) :
    s.regions.Pairwise (fun v w => (stackPages v).Disjoint (stackPages w)) ∧
    (∀ v ∈ s.regions, ∀ a ∈ stackPages v, a ∉ s.heap ∧ a < s.sz) ∧
    (∀ a ∈ s.heap, a < s.sz) ∧
    s.emptyMem.Nodup ∧ s.emptyMem.length ≤ nproc ∧
    (∀ e, s.call e ≠ some (.error .remap)) ∧
    (∀ tid s', s.call (.threadJoin tid) = some (.ok s') → ∀ a ∈ s.pgdir, a ∉ s'.pgdir →
      a ∉ s.heap ∧ ∀ x ∈ s'.threads, a ∉ stackPages x.virAdd) ∧
    ∀ e s', s.call e = some (.ok s') →
      ((∀ v ∈ s'.regions, ∀ a ∈ stackPages v, a < s'.sz) ↔ s.KeepsRegions e) := by
  have h : Separate s := (separate_boot h₀).run hk hr
  refine ⟨h.apart, fun v hv a ha => ⟨h.heap_apart v hv a ha, h.below v hv a ha⟩,
    fun a ha => (h.pages a (h.heap ha)).2, h.nodup, ?_, fun e he => (h.call he).1 rfl,
    fun tid s' he => ?_, fun e s' he => h.below_iff he⟩
  · have := h.length_lt
    simp only [regions, List.length_append] at this
    omega
  · obtain ⟨s'', heq, -, hun⟩ := h.threadJoin he
    cases heq
    exact hun

/-- A thread is created, exits and is joined; the process grows and shrinks again, and creates
    another thread. -/
def createAndGrow : List SpaceCall :=
  [.threadCreate 2, .threadExit 1, .threadJoin 1, .growproc 4096 1, .growproc (-4096) 0,
    .threadCreate 2]

theorem stacks_separate_createAndGrow :
    ∃ s, Trace.run Space.step (boot 16384) createAndGrow = some s ∧ s.regions = [16384] ∧
      (∀ a ∈ stackPages 16384, a ∉ s.heap ∧ a < s.sz) ∧ s.emptyMem.length ≤ nproc := by
  have hs : ∃ s ∈ Trace.run Space.step (boot 16384) createAndGrow, s.regions = [16384] := by
    decide +kernel
  obtain ⟨s, hr, hreg⟩ := hs
  obtain ⟨-, hpages, -, -, hlen, -⟩ := stacks_separate (by decide) (by decide +kernel) hr
  exact ⟨s, hr, hreg, hpages 16384 (by simp [hreg]), hlen⟩

/-- The region of a thread that was joined is given back by `growproc`, and obtained again: it
    is recorded and in the heap, and the next thread runs into the panic. -/
theorem region_remapped :
    ∃ s ∈ Trace.run Space.step (boot 16384)
        [.threadCreate 2, .threadExit 1, .threadJoin 1, .growproc (-8192) 0, .growproc 8192 2],
      16384 ∈ s.emptyMem ∧ 16384 ∈ stackPages 16384 ∧ 16384 ∈ s.heap ∧
        s.call (.threadCreate 2) = some (.error .remap) := by
  decide +kernel

end Space
end Xv6
