import CourseProjects.Xv6.Stacks

/-!
# The address space of a child

`fork` copies the pages of the process up to the size of the first thread, and gives the
child the size of the thread that calls it. The size of another thread is the end of its
stack, and stays what it was when the thread was created.

* `fork_consistent_iff`: the child has the size of what was copied, and runs into no page that
  is mapped already, exactly if the first thread calls `fork`, or one of the same size.
-/

namespace Xv6

open Vm

namespace Vm

/-- The loop of `copyuvm`. It ends without a copy in a panic, where there is no page table
    (`tables`) or in the pages of the kernel, which are mapped in every copy, and when the
    frames run out. -/
def copyLoop (tables : ℕ → Bool) (pgdir : Finset ℕ) : ℕ → Finset ℕ → List ℕ → Option (Finset ℕ)
  | _, d, [] => some d
  | avail, d, i :: is =>
    if tables i = false ∨ KERNBASE ≤ i then none
    -- a page that is not mapped is passed over
    else if i ∉ pgdir then copyLoop tables pgdir avail d is
    else if avail = 0 then none
    else
      match mappages d i with
      | .error _ => none
      | .ok d => copyLoop tables pgdir (avail - 1) d is

/-- `copyuvm`, when it returns a copy. -/
def copyuvm (tables : ℕ → Bool) (avail : ℕ) (pgdir : Finset ℕ) (sz : ℕ) : Option (Finset ℕ) :=
  copyLoop tables pgdir avail ∅ ((List.range ((sz + (PGSIZE - 1)) / PGSIZE)).map (PGSIZE * ·))

variable {tables : ℕ → Bool} {avail sz : ℕ} {pgdir d d' : Finset ℕ} {a : ℕ}

/-- The pages that the loop goes through are copied, and none is in the kernel. -/
theorem copyLoop_spec {is : List ℕ} (h : copyLoop tables pgdir avail d is = some d') :
    (∀ i ∈ is, i < KERNBASE) ∧ ∀ a, a ∈ d' ↔ a ∈ d ∨ a ∈ is ∧ a ∈ pgdir := by
  induction is generalizing avail d with
  | nil =>
    cases h
    simp
  | cons i is ih =>
    rw [copyLoop] at h
    split at h
    · cases h
    rename_i hi
    rw [not_or, Nat.not_le] at hi
    split at h
    · rename_i hp
      obtain ⟨hlt, hmem⟩ := ih h
      refine ⟨by simpa using ⟨hi.2, hlt⟩, fun a => ?_⟩
      rw [hmem, List.mem_cons]
      refine or_congr_right (and_congr_left fun ha => ?_)
      rw [or_iff_right]
      rintro rfl
      exact hp ha
    · rename_i hp
      rw [not_not] at hp
      split at h
      · cases h
      split at h
      · cases h
      · rename_i d₁ hd
        have hd₁ : d₁ = insert i d := by
          rw [mappages] at hd
          split at hd
          · cases hd
          · exact (Except.ok.inj hd).symm
        obtain ⟨hlt, hmem⟩ := ih h
        refine ⟨by simpa using ⟨hi.2, hlt⟩, fun a => ?_⟩
        rw [hmem, hd₁, Finset.mem_insert, List.mem_cons]
        constructor
        · rintro ((rfl | ha) | ha)
          · exact .inr ⟨.inl rfl, hp⟩
          · exact .inl ha
          · exact .inr ⟨.inr ha.1, ha.2⟩
        · rintro (ha | ⟨rfl | hm, ha⟩)
          · exact .inl (.inr ha)
          · exact .inl (.inl rfl)
          · exact .inr ⟨hm, ha⟩

/-- A copy has the pages below the size, which is below the kernel. -/
theorem copyuvm_spec (h : copyuvm tables avail pgdir sz = some d) :
    sz ≤ KERNBASE ∧ ∀ a ∈ d, PGSIZE ∣ a ∧ a < sz := by
  obtain ⟨hlt, hmem⟩ := copyLoop_spec h
  refine ⟨?_, fun a ha => ?_⟩
  · by_contra hsz
    refine (hlt KERNBASE ?_).ne rfl
    refine List.mem_map.2 ⟨KERNBASE / PGSIZE, List.mem_range.2 ?_, rfl⟩
    simp only [KERNBASE, PGSIZE] at *
    omega
  · obtain ⟨i, hi, rfl⟩ := List.mem_map.1 (((hmem a).1 ha).resolve_left (by simp)).1
    rw [List.mem_range] at hi
    refine ⟨Nat.dvd_mul_right _ _, ?_⟩
    simp only [PGSIZE] at *
    omega

end Vm

namespace Space

variable {s s' child : Space} {x : Option Thread} {tables : ℕ → Bool} {avail : ℕ}

/-- The size of the caller of `fork`, the first thread or another one. -/
def callerSz (s : Space) : Option Thread → ℕ
  | none => s.sz
  | some x => x.sz

/-- The size that `fork` copies. -/
def extent (s : Space) : Option Thread → ℕ
  | none => s.sz
  | some x => if 0 < x.tid then s.sz else x.sz

/-- The address space of the child, when `fork` gets one. `allocproc` clears `empty_mem`. -/
def fork (s : Space) (x : Option Thread) (tables : ℕ → Bool) (avail : ℕ) : Option Space :=
  (copyuvm tables avail s.pgdir (s.extent x)).map fun d =>
    { sz := s.callerSz x
      pgdir := d
      heap := ∅
      threads := []
      emptyMem := []
      nexttid := s.nexttid }

/-- No call maps a page again, as long as `growproc` keeps the size above the regions. -/
def NeverRemaps (s : Space) : Prop :=
  ∀ es s', Trace.Along Space.step KeepsRegions s es → Trace.run Space.step s es = some s' →
    ∀ e, s'.call e ≠ some (.error .remap)

/-- The child has the size of what was copied, no page above it, and maps no page again. -/
structure Consistent (child : Space) (extent : ℕ) : Prop where
  sz_eq : child.sz = extent
  below : ∀ a ∈ child.pgdir, a < PGROUNDUP child.sz
  neverRemaps : NeverRemaps child

theorem Separate.neverRemaps (h : Separate s) : NeverRemaps s :=
  fun _ _ hk hr _ he => ((h.run hk hr).call he).1 rfl

/-- A child as large as its pages starts out with separate regions. -/
theorem separate_fork (h : s.fork x tables avail = some child)
    (hx : s.callerSz x = s.extent x) : Separate child := by
  obtain ⟨d, hd, rfl⟩ := Option.map_eq_some_iff.1 h
  obtain ⟨hsz, hpages⟩ := copyuvm_spec hd
  constructor
  case sz_le => simpa [regions, hx] using hsz
  case length_lt => simp [regions, nproc]
  case pages => simpa only [hx] using hpages
  case heap => exact Finset.empty_subset _
  case apart => exact List.Pairwise.nil
  all_goals intro v hv; cases hv

/-- The child of a process is as large as what was copied, and maps no page again, exactly if
    the first thread called `fork`, or one whose size is that of the first thread. -/
theorem fork_consistent_iff (h : s.fork x tables avail = some child) :
    Consistent child (s.extent x) ↔ ∀ y ∈ x, 0 < y.tid → y.sz = s.sz := by
  obtain ⟨d, hd, hchild⟩ := Option.map_eq_some_iff.1 h
  have hsz : child.sz = s.callerSz x := by rw [← hchild]
  constructor
  · rintro hc y rfl ht
    have := hsz.symm.trans hc.sz_eq
    rwa [callerSz, extent, if_pos ht] at this
  · intro hx
    have heq : s.callerSz x = s.extent x := by
      cases x with
      | none => rfl
      | some y =>
        rw [callerSz, extent]
        split
        · exact hx y rfl ‹_›
        · rfl
    have hs := separate_fork h heq
    refine ⟨hsz.trans heq, fun a ha => ?_, hs.neverRemaps⟩
    obtain ⟨hdvd, hlt⟩ := hs.pages a ha
    by_contra hge
    have hbound : child.sz + PGSIZE ≤ 2 ^ 32 := by
      have := (copyuvm_spec hd).1
      rw [hsz, heq]
      simp only [KERNBASE, PGSIZE] at *
      omega
    exact hlt.not_ge ((pgroundup_le_iff hbound hdvd).1 (Nat.not_lt.1 hge))

/-- The second of two threads calls `fork`. -/
theorem fork_consistent_last : ∃ s child, Trace.run Space.step (boot 4096)
    [.threadCreate 2, .threadCreate 2] = some s ∧
      s.fork s.threads.head? (fun _ => true) 5 = some child ∧
      Consistent child (s.extent s.threads.head?) := by
  obtain ⟨s, hr, child, hf, hsz⟩ : ∃ s ∈ Trace.run Space.step (boot 4096)
      [.threadCreate 2, .threadCreate 2], ∃ child ∈ s.fork s.threads.head? (fun _ => true) 5,
        ∀ y ∈ s.threads.head?, 0 < y.tid → y.sz = s.sz := by decide +kernel
  exact ⟨s, child, hr, hf, (fork_consistent_iff hf).2 hsz⟩

/-- The first of two threads calls `fork`, and the child grows. -/
theorem fork_remaps : ∃ s ∈ Trace.run Space.step (boot 4096) [.threadCreate 2, .threadCreate 2],
    ∃ x ∈ s.threads, x.zombie = false ∧ ∃ child ∈ s.fork (some x) (fun _ => true) 5,
      child.sz ≠ s.extent (some x) ∧ (∃ a ∈ child.pgdir, PGROUNDUP child.sz ≤ a) ∧
      child.call (.growproc 4096 1) = some (.error .remap) := by
  decide +kernel

end Space
end Xv6
