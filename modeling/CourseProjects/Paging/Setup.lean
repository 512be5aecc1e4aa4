import CourseProjects.Paging.Unmapping

/-!
# The kernel's part of an address space

* `Sound.setupkvm`: a new address space maps the kernel as `kmap` says, and nothing else. It takes
  `kernelFrames` frames.
* `Sound.abort`: what is left when an address space is given up halfway.
-/

namespace Paging

open Function Tx Words Xv6

variable {k : Kernel} {w w' w₁ : World} {f g p q i j t u v n : ℕ} {E : Set ℕ} {R : Set (ℕ × ℕ)}
  {N : Set Owner}

/-! ### An address space is given up -/

/-- A frame of the address space `p`, besides the directory. -/
def Owner.Within (p : ℕ) (x : Owner) : Prop := (∃ i, x = .table p i) ∨ ∃ v, x = .page p v

/-- All frames of an address space are given back, also those that have come to it since. -/
theorem Sound.abort (hw : Sound k w₁) (hp : w.owner p = .dir) (hk : Keeps w w₁ ∅ R N)
    (hR : ∀ x ∈ R, x.1 = p) (hN : ∀ x ∈ N, x.Within p ∨ x = .lost) :
    ∃ w', (Paging.freevm k p).run w₁.machine = .ok (⟨⟩, w'.machine) ∧ Sound k w' ∧
      Keeps w w' (w.space p) ∅ {.free, .lost} ∧ (∀ f ∈ w.space p, w'.owner f = .free) ∧
      ∀ f, w'.owner f = .lost ↔ w₁.owner f = .lost := by
  have hsame (f : ℕ) (hf : w.owner f ≠ .free) : w₁.owner f = w.owner f :=
    hk.owner f (Set.notMem_empty f) hf
  have hp₁ : w₁.owner p = .dir := (hsame p (by simp [hp])).trans hp
  obtain ⟨w', hrun, hw', hk', hfree⟩ := hw.freevm hp₁
  have hsub {f : ℕ} (hf : f ∈ w.space p) : f ∈ w₁.space p := by
    rcases hf with rfl | ⟨i, hi⟩ | ⟨v, hv⟩
    · exact .inl rfl
    · exact .inr (.inl ⟨i, (hsame f (by simp [hi])).trans hi⟩)
    · exact .inr (.inr ⟨v, (hsame f (by simp [hv])).trans hv⟩)
  have hnew {f : ℕ} (hf : f ∈ w₁.space p) (hno : f ∉ w.space p) : w.owner f = .free := by
    by_contra hne
    rw [World.space, Set.mem_ofPred_eq, hsame f hne] at hf
    exact hno hf
  have hall : Keeps w w' (w₁.space p) ∅ .univ :=
    ((hk.mono (Set.empty_subset _) le_rfl (Set.subset_univ N)).drop
      fun x hx => .inl (hR x hx)).trans (hk'.mono le_rfl le_rfl (Set.subset_univ _))
  refine ⟨w', hrun, hw', (hall.of_free fun f hf hno => hnew hf hno).narrow fun f hf => ?_,
    fun f hf => hfree f (hsub hf), fun f => ?_⟩
  · by_cases hf' : f ∈ w₁.space p
    · exact .inl (hfree f hf')
    · have ho : w'.owner f = w₁.owner f := by
        by_contra hne
        have h := hk'.fresh f hne
        rcases eq_or_ne (w₁.owner f) .free with he | he
        · exact hne (h.trans he.symm)
        · exact hne (hk'.owner f hf' he)
      rw [ho] at hf ⊢
      rcases hN _ (hk.fresh f hf) with (⟨i, hi⟩ | ⟨v, hv⟩) | hl
      · exact absurd (.inr (.inl ⟨i, hi⟩)) hf'
      · exact absurd (.inr (.inr ⟨v, hv⟩)) hf'
      · exact .inr hl
  · constructor
    · intro hl
      by_contra hne
      have h := hk'.fresh f fun he => hne (he ▸ hl)
      rw [hl] at h
      cases h
    · intro hl
      rw [← hl]
      refine hk'.owner f ?_ (by simp [hl])
      rintro (rfl | ⟨i, hi⟩ | ⟨v, hv⟩)
      · rw [hp₁] at hl
        cases hl
      · rw [hl] at hi
        cases hi
      · rw [hl] at hv
        cases hv

/-! ### The kernel's mappings -/

namespace Kmap

variable (e : Kmap)

def size : ℕ := (e.phys_end + 2 ^ 32 - e.phys_start) % 2 ^ 32

/-- The pages, from the first one to the last one. -/
def first : ℕ := e.virt / PGSIZE

def last : ℕ := (e.virt + e.size - 1) / PGSIZE

/-- The entry of a page. -/
def pte (u : ℕ) : ℕ := PGSIZE * (e.phys_start / PGSIZE + (u - e.first)) + (e.perm ||| PTE_P)

/-- Whole pages of the kernel's part. -/
structure Aligned : Prop where
  virt : PGSIZE ∣ e.virt
  phys : PGSIZE ∣ e.phys_start
  size : PGSIZE ∣ e.size
  pos : 0 < e.size
  low : KERNBASE ≤ e.virt
  high : e.virt + e.size ≤ 2 ^ 32
  phys_high : e.phys_start + e.size ≤ 2 ^ 32
  perm : e.perm < PGSIZE

/-- The page `u` is one of these. -/
def Covers (u : ℕ) : Prop := e.first ≤ u ∧ u ≤ e.last

end Kmap

variable {e : Kmap} {es : List Kmap}

theorem Kmap.Aligned.covers_iff (he : e.Aligned) :
    e.Covers u ↔ e.virt ≤ PGSIZE * u ∧ PGSIZE * u < e.virt + e.size := by
  obtain ⟨a, ha⟩ := he.virt
  obtain ⟨b, hb⟩ := he.size
  have hpos := he.pos
  rw [Kmap.Covers, Kmap.first, Kmap.last, ha, hb]
  rw [hb] at hpos
  simp only [PGSIZE] at *
  omega

theorem Kmap.Aligned.first_le (he : e.Aligned) : 2 ^ 19 ≤ e.first ∧ e.first ≤ e.last := by
  have h₁ := he.low
  have h₂ := he.pos
  simp only [Kmap.first, Kmap.last, KERNBASE, PGSIZE] at *
  omega

/-- The pages of an entry of `kmap`. -/
theorem Sound.mapEntry (hw : Sound k w) (hp : w.owner p = .dir) (he : e.Aligned)
    (hzero : ∀ u, e.Covers u → lookup w.machine.frame p u = 0) :
    ∃ b w', (Paging.mappages p e.virt e.size e.phys_start e.perm).run w.machine =
        .ok (b, w'.machine) ∧
      KernelMapped k w p e.first (e.last - e.first) e.pte b w' := by
  obtain ⟨v, hv⟩ := he.virt
  obtain ⟨f, hf⟩ := he.phys
  obtain ⟨m, hm⟩ := he.size
  have hpos := he.pos
  have hlow := he.low
  have hhigh := he.high
  have hphys := he.phys_high
  rw [hv, hm] at hhigh
  rw [hf, hm] at hphys
  rw [hm] at hpos
  rw [hv] at hlow
  have hfirst : e.first = v := by rw [Kmap.first, hv, Nat.mul_div_cancel_left v (by decide)]
  have hframe : e.phys_start / PGSIZE = f := by
    rw [hf, Nat.mul_div_cancel_left f (by decide)]
  have hlast : e.last = v + (m - 1) := by
    rw [Kmap.last, hv, hm]
    simp only [PGSIZE] at *
    omega
  have hend : PGROUNDDOWN ((e.virt + e.size + (2 ^ 32 - 1)) % 2 ^ 32) = PGSIZE * (v + (m - 1)) := by
    rw [hv, hm]
    simp only [PGROUNDDOWN, PGSIZE, KERNBASE] at *
    omega
  have hrun : Paging.mappages p e.virt e.size e.phys_start e.perm =
      Paging.mapLoop p e.perm (PGSIZE * (v + (m - 1))) (2 ^ 20) (PGSIZE * v) (PGSIZE * f) := by
    rw [Paging.mappages, hend, hv, PGROUNDDOWN_mul, hf]
  rw [hrun, hfirst, hlast, Nat.add_sub_cancel_left]
  have hpte : e.pte = fun u => PGSIZE * (f + (u - v)) + (e.perm ||| PTE_P) := by
    funext u
    rw [Kmap.pte, hfirst, hframe]
  rw [hpte]
  have h₁ : 2 ^ 19 ≤ v := by
    simp only [PGSIZE, KERNBASE] at hlow
    omega
  have h₂ : v + (m - 1) < 2 ^ 20 ∧ f + (m - 1) < 2 ^ 20 ∧ m - 1 < 2 ^ 20 := by
    simp only [PGSIZE] at *
    omega
  refine hw.mapKernel hp h₁ h₂.1 h₂.2.1 he.perm h₂.2.2 fun u hu hu' => hzero u ?_
  rw [Kmap.Covers, hfirst, hlast]
  exact ⟨hu, hu'⟩

/-- The places of their page tables. -/
def kmapTables : List Kmap → Finset ℕ
  | [] => ∅
  | e :: es => Finset.Icc (e.first / 1024) (e.last / 1024) ∪ kmapTables es

/-- The entries of `kmap`, if there are frames for their page tables. -/
structure Built (k : Kernel) (w : World) (p : ℕ) (es : List Kmap) (b : Bool) (w' : World) :
    Prop where
  sound : Sound k w'
  keeps : Keeps w w' ∅ {x | x.1 = p ∧ 2 ^ 19 ≤ x.2} {x | ∃ i, x = .table p i}
  lookup : b = true → ∀ e ∈ es, ∀ u, e.Covers u → lookup w'.machine.frame p u = e.pte u
  other : b = true → ∀ u < 2 ^ 20, (∀ e ∈ es, ¬e.Covers u) →
    Paging.lookup w'.machine.frame p u = Paging.lookup w.machine.frame p u
  enough : b = true ↔ w.missing p (kmapTables es) ≤ w.free.length
  free : b = true → w'.free.length + w.missing p (kmapTables es) = w.free.length
  hasTable : b = true → ∀ q j, w'.HasTable q j ↔ w.HasTable q j ∨ (q = p ∧ j ∈ kmapTables es)

/-- An entry is mapped, and then the others. -/
theorem KernelMapped.cons_built {b : Bool} (hp : w.owner p = .dir) (he : e.Aligned)
    (hlt : ∀ u, e.Covers u → u < 2 ^ 20) (hdisj : ∀ e' ∈ es, ∀ u, e.Covers u → ¬e'.Covers u)
    (h : KernelMapped k w p e.first (e.last - e.first) e.pte true w₁)
    (h' : Built k w₁ p es b w') : Built k w p (e :: es) b w' := by
  have hle := he.first_le
  have hlast : e.first + (e.last - e.first) = e.last := by omega
  obtain ⟨hw₁, hk₁, hl₁, hen₁, hf₁, ht₁⟩ := h
  rw [hlast] at hk₁ hl₁ hen₁ hf₁ ht₁
  have hcount := missing_union (J := kmapTables es) (ht₁ rfl)
  have hfree := hf₁ rfl
  refine ⟨h'.sound, (hk₁.mono le_rfl ?_ le_rfl).trans h'.keeps, fun hb d hd u hu => ?_,
    fun hb u hu hno => ?_, ?_, fun hb => ?_, fun hb q j => ?_⟩
  · exact fun x hx => ⟨hx.1, hle.1.trans hx.2.1⟩
  · rcases List.mem_cons.1 hd with rfl | hd
    · rw [h'.other hb u (hlt u hu) fun d' hd' => hdisj d' hd' u hu]
      exact hl₁ rfl u hu.1 hu.2
    · exact h'.lookup hb d hd u hu
  · rw [h'.other hb u hu fun d hd => hno d (List.mem_cons_of_mem _ hd)]
    refine hk₁.lookup p (Set.notMem_empty p) hp u hu fun hm => ?_
    exact hno e List.mem_cons_self ⟨hm.2.1, hm.2.2⟩
  · rw [h'.enough, kmapTables]
    omega
  · have := h'.free hb
    rw [kmapTables]
    omega
  · rw [h'.hasTable hb, ht₁ rfl, kmapTables, Finset.mem_union, or_assoc, ← and_or_left]

/-- The loop of `setupkvm`, up to where it gives up. -/
theorem Sound.kmapLoop (hw : Sound k w) (hp : w.owner p = .dir) (hes : ∀ e ∈ es, e.Aligned)
    (hdisj : es.Pairwise fun e e' => ∀ u, e.Covers u → ¬e'.Covers u)
    (hzero : ∀ e ∈ es, ∀ u, e.Covers u → lookup w.machine.frame p u = 0) :
    ∃ b w', (Paging.kmapLoop k p es).run w.machine =
        (if b = true then pure (some p) else do Paging.freevm k p; pure none :
          MemOp _).run w'.machine ∧
      Built k w p es b w' := by
  induction es generalizing w with
  | nil =>
    refine ⟨true, w, rfl, hw, .rfl, fun _ e he => ?_, fun _ _ _ _ => rfl, ?_, fun _ => rfl,
      fun _ q j => ?_⟩
    · cases he
    · exact iff_of_true rfl (Nat.zero_le _)
    · exact (or_iff_left fun h => Finset.notMem_empty j h.2).symm
  | cons e es ih =>
    obtain ⟨hdisj₁, hdisj₂⟩ := List.pairwise_cons.1 hdisj
    have he := hes e List.mem_cons_self
    have hle := he.first_le
    have hlt (u : ℕ) (hu : e.Covers u) : u < 2 ^ 20 := by
      have h := (he.covers_iff.1 hu).2
      have h' := he.high
      simp only [PGSIZE] at h
      omega
    obtain ⟨b, w₁, hrun, hmap⟩ := hw.mapEntry hp he (hzero e List.mem_cons_self)
    have hbind : (Paging.kmapLoop k p (e :: es)).run w.machine =
        (if b = true then Paging.kmapLoop k p es else do Paging.freevm k p; pure none :
          MemOp _).run w₁.machine := by
      rw [Paging.kmapLoop, StateT.run_bind]
      exact congrArg (· >>= _) hrun
    cases b with
    | false =>
      have hlast : e.first + (e.last - e.first) = e.last := by omega
      have hno := hmap.enough
      rw [hlast] at hno
      refine ⟨false, w₁, hbind, hmap.sound, hmap.keeps.mono le_rfl ?_ le_rfl, (by simp), (by simp), ?_,
        (by simp), (by simp)⟩
      · exact fun x hx => ⟨hx.1, hle.1.trans hx.2.1⟩
      · refine iff_of_false (by simp) fun h => ?_
        refine absurd (hno.2 (le_trans (Finset.card_le_card ?_) h)) Bool.false_ne_true
        exact Finset.filter_subset_filter _ Finset.subset_union_left
    | true =>
      have hp₁ : w₁.owner p = .dir := by
        rw [← hp]
        exact hmap.keeps.owner p (Set.notMem_empty p) (by simp [hp])
      have hzero₁ (d : Kmap) (hd : d ∈ es) (u : ℕ) (hu : d.Covers u) :
          lookup w₁.machine.frame p u = 0 := by
        rw [← hzero d (List.mem_cons_of_mem _ hd) u hu]
        have hd' := hes d (List.mem_cons_of_mem _ hd)
        have h := (hd'.covers_iff.1 hu).2
        have h' := hd'.high
        simp only [PGSIZE] at h
        refine hmap.keeps.lookup p (Set.notMem_empty p) hp u (by omega) fun hm => ?_
        have hm' := hm.2.2
        exact hdisj₁ d hd u ⟨hm.2.1, by omega⟩ hu
      obtain ⟨b, w', hrun', hbuilt⟩ := ih hmap.sound hp₁
        (fun d hd => hes d (List.mem_cons_of_mem _ hd)) hdisj₂ hzero₁
      exact ⟨b, w', hbind.trans hrun', hmap.cons_built hp he hlt hdisj₁ hbuilt⟩

/-! ### `setupkvm` -/

/-- The frames of an address space that maps nothing but the kernel. -/
def kernelFrames : ℕ := 65

/-- The kernel is mapped as `kmap` says, and nothing else is in its part. -/
structure Kernel.Maps (k : Kernel) (frame : ℕ → Page) (p : ℕ) : Prop where
  covers : ∀ e ∈ k.kmap, ∀ u, e.Covers u → lookup frame p u = e.pte u
  other : ∀ u, 2 ^ 19 ≤ u → u < 2 ^ 20 → (∀ e ∈ k.kmap, ¬e.Covers u) → lookup frame p u = 0

variable (k) in
/-- What the linker says about the pages of the kernel. -/
theorem Kernel.data_eq : ∃ d, k.data = PGSIZE * d ∧ 2 ^ 19 + 256 < d ∧ d < 2 ^ 19 + 57344 := by
  obtain ⟨d, hd⟩ := k.dvd_data
  have h₁ := k.kernlink_lt
  have h₂ := k.data_le
  have h₃ := k.end_lt
  refine ⟨d, hd, ?_⟩
  rw [hd] at h₁ h₂
  simp only [KERNLINK, EXTMEM, PGSIZE, KERNBASE, P2V, PHYSTOP] at *
  omega

theorem Kernel.kmap_pages (k : Kernel) : ∃ d, 2 ^ 19 + 256 < d ∧ d < 2 ^ 19 + 57344 ∧
    (∀ e ∈ k.kmap, e.Aligned) ∧ k.kmap.map (fun e => (e.first, e.last)) =
      [(2 ^ 19, 2 ^ 19 + 255), (2 ^ 19 + 256, d - 1), (d, 2 ^ 19 + 57343),
        (1040384, 2 ^ 20 - 1)] := by
  obtain ⟨d, hd, hlow, hhigh⟩ := k.data_eq
  refine ⟨d, hlow, hhigh, ?_, ?_⟩
  · simp only [Kernel.kmap, List.forall_mem_cons, hd]
    refine ⟨?_, ?_, ?_, ?_, (by simp)⟩
    all_goals
      constructor <;>
        simp only [Kmap.size, V2P, KERNLINK, EXTMEM, PGSIZE, KERNBASE, PHYSTOP, DEVSPACE, PTE_W] <;>
        omega
  · simp only [Kernel.kmap, List.map_cons, List.map_nil, hd, Kmap.first, Kmap.last, Kmap.size, V2P,
      KERNLINK, EXTMEM, PGSIZE, KERNBASE, PHYSTOP, DEVSPACE, List.cons.injEq, Prod.mk.injEq,
      and_true, true_and]
    refine ⟨⟨?_, ?_⟩, ⟨?_, ?_⟩, ⟨?_, ?_⟩, ?_⟩
    all_goals omega

theorem Kernel.kmap_disjoint (k : Kernel) :
    k.kmap.Pairwise fun e e' => ∀ u, e.Covers u → ¬e'.Covers u := by
  obtain ⟨d, hlow, hhigh, -, hpages⟩ := k.kmap_pages
  have hpair : (k.kmap.map fun e => (e.first, e.last)).Pairwise fun a b => a.2 < b.1 := by
    rw [hpages]
    simp only [List.pairwise_cons, List.mem_cons, forall_eq_or_imp, List.not_mem_nil,
      IsEmpty.forall_iff, implies_true, and_true, List.Pairwise.nil]
    omega
  refine (List.pairwise_map.1 hpair).imp fun {e e'} hlt u hu hu' => ?_
  exact absurd (hu.2.trans_lt (hlt.trans_le hu'.1)) (lt_irrefl u)

theorem kmapTables_eq (es : List Kmap) : kmapTables es =
    (es.map fun e => (e.first, e.last)).foldr (fun a I => Finset.Icc (a.1 / 1024) (a.2 / 1024) ∪ I)
      ∅ := by
  induction es with
  | nil => rfl
  | cons e es ih => rw [kmapTables, ih, List.map_cons, List.foldr_cons]

/-- The kernel takes one page table for each four megabytes. -/
theorem Kernel.card_kmapTables (k : Kernel) : (kmapTables k.kmap).card + 1 = kernelFrames := by
  obtain ⟨d, hlow, hhigh, -, hpages⟩ := k.kmap_pages
  have heq : kmapTables k.kmap = Finset.Icc 512 567 ∪ Finset.Icc 1016 1023 := by
    rw [kmapTables_eq, hpages]
    ext i
    simp only [List.foldr_cons, List.foldr_nil, Finset.mem_union, Finset.mem_Icc,
      Finset.notMem_empty, or_false]
    omega
  rw [heq]
  decide +kernel

theorem Kernel.kmapTables_le (k : Kernel) (hi : i ∈ kmapTables k.kmap) : 512 ≤ i := by
  obtain ⟨d, hlow, hhigh, -, hpages⟩ := k.kmap_pages
  rw [kmapTables_eq, hpages] at hi
  simp only [List.foldr_cons, List.foldr_nil, Finset.mem_union, Finset.mem_Icc,
    Finset.notMem_empty, or_false] at hi
  omega

/-- A new address space with the kernel in it. -/
structure NewSpace (k : Kernel) (w : World) (p : ℕ) (w' : World) : Prop where
  sound : Sound k w'
  owner : w.owner p = .free
  dir : ∀ f, w'.owner f = .dir ↔ w.owner f = .dir ∨ f = p
  keeps : Keeps w w' ∅ ∅ {x | x = .dir ∨ ∃ i, x = .table p i}
  maps : k.Maps w'.machine.frame p
  empty : ∀ v < 2 ^ 19, lookup w'.machine.frame p v = 0
  table : ∀ i < 512, ¬w'.HasTable p i
  free : w'.free.length + kernelFrames = w.free.length

/-- A frame becomes a page directory. -/
theorem Sound.newDir (hw : Sound k w) (hf : w.owner p = .held) (hzero : w.machine.frame p = 0) :
    ∃ w' : World, w'.machine = w.machine ∧ Sound k w' ∧ w'.owner = update w.owner p .dir ∧
      w'.free = w.free := by
  refine ⟨⟨w.machine, update w.owner p .dir, w.free⟩, rfl, .of_parts
    (hw.toTables.makeDir (by rw [hf]; trivial) hzero) (usable_update hw (by simp [hf]))
    hw.chain hw.nodup fun f => ?_, rfl, rfl⟩
  rcases eq_or_ne f p with rfl | hfp
  · rw [update_self, hw.mem_free, hf]
    exact iff_of_false (by simp) (by simp)
  · rw [update_of_ne hfp, hw.mem_free]

/-- `setupkvm` makes an address space of `kernelFrames` frames, or changes nothing. -/
theorem Sound.setupkvm (hw : Sound k w) :
    ∃ r w', (setupkvm k).run w.machine = .ok (r, w'.machine) ∧
      ((kernelFrames ≤ w.free.length ∧ ∃ p, r = some p ∧ NewSpace k w p w') ∨
        (w.free.length < kernelFrames ∧ r = none ∧ Sound k w' ∧ Keeps w w' ∅ ∅ ∅)) := by
  obtain ⟨-, -, -, haligned, -⟩ := k.kmap_pages
  have hcard := k.card_kmapTables
  rcases hw.kalloc with ⟨hfree, hk⟩ | ⟨p, l, w₁, hfree, hk, hw₁, hfr₁, ho₁, hl₁⟩
  · refine ⟨none, w, bind_eq_ok.2 ⟨_, _, hk, rfl⟩, .inr ⟨?_, rfl, hw, .rfl⟩⟩
    rw [hfree, kernelFrames, List.length_nil]
    decide
  have hpfree : w.owner p = .free := (hw.mem_free p).1 (hfree ▸ List.mem_cons_self)
  have hheld : w₁.owner p = .held := by rw [ho₁, update_self]
  have hw₂ := hw₁.fill (f := p) (by rw [hheld]; trivial) 0
  obtain ⟨w₃, hm₃, hw₃, ho₃, hl₃⟩ := hw₂.newDir (p := p) hheld (update_self ..)
  have hp₃ : w₃.owner p = .dir := by rw [ho₃, update_self]
  have hzero₃ : w₃.machine.frame p = 0 := by
    rw [hm₃]
    exact update_self ..
  have hlook₃ (u : ℕ) : lookup w₃.machine.frame p u = 0 := lookup_of_zero (by rw [hzero₃]; rfl)
  have hno₃ (i : ℕ) : ¬w₃.HasTable p i := by
    rintro ⟨t, ht⟩
    have h := (hw₃.table t p i ht).2.2
    rw [hzero₃, show word 0 i = 0 from rfl] at h
    omega
  have hmissing (I : Finset ℕ) : w₃.missing p I = I.card := by
    rw [World.missing, Finset.filter_true_of_mem fun i _ => hno₃ i]
  have howner₃ (f : ℕ) (hf : f ≠ p) : w₃.owner f = w.owner f := by
    rw [ho₃, update_of_ne hf]
    change w₁.owner f = _
    rw [ho₁, update_of_ne hf]
  have hk₃ : Keeps w w₃ {p} ∅ .univ := by
    refine .of_plain hw.toTables (by rw [hpfree]; trivial) rfl trivial (fun f hf => howner₃ f hf)
      fun f hf => ?_
    rw [hm₃, ← hfr₁]
    exact update_of_ne hf _ _
  have hlen : w.free.length = w₃.free.length + 1 := by
    rw [hl₃, hfree]
    change l.length + 1 = w₁.free.length + 1
    rw [hl₁]
  obtain ⟨b, w₄, hrun₄, hb⟩ := hw₃.kmapLoop hp₃ haligned k.kmap_disjoint fun e _ u _ => hlook₃ u
  have hrun : (Paging.setupkvm k).run w.machine = (if b = true then pure (some p)
      else do Paging.freevm k p; pure none : MemOp _).run w₄.machine := by
    rw [← hrun₄, hm₃, Paging.setupkvm, StateT.run_bind, hk]
    rfl
  have henough := hb.enough
  rw [hmissing] at henough
  have hp₄ : w₄.owner p = .dir := by
    rw [← hp₃]
    exact hb.keeps.owner p (Set.notMem_empty p) (by simp [hp₃])
  cases b with
  | true =>
    have hall : Keeps w w₄ {p} ∅ .univ := hk₃.trans
      ((hb.keeps.mono (Set.empty_subset _) le_rfl (Set.subset_univ _)).drop fun x hx => hx.1)
    have hfree₄ := hb.free rfl
    rw [hmissing] at hfree₄
    refine ⟨some p, w₄, hrun, .inl ⟨?_, p, rfl, hb.sound, hpfree, fun f => ?_, ?_, ⟨hb.lookup rfl,
      fun u _ hu hno => (hb.other rfl u hu hno).trans (hlook₃ u)⟩, fun v hv => ?_,
      fun i hi hhas => ?_, ?_⟩⟩
    · have := henough.1 rfl
      omega
    · rcases eq_or_ne f p with rfl | hfp
      · exact iff_of_true hp₄ (.inr rfl)
      · rw [or_iff_left hfp, ← howner₃ f hfp]
        refine ⟨fun hd => ?_, fun hd => ?_⟩
        · by_contra hne
          obtain ⟨i, hi⟩ := hb.keeps.fresh f fun he => hne (he ▸ hd)
          rw [hd] at hi
          cases hi
        · rw [← hd]
          exact hb.keeps.owner f (Set.notMem_empty f) (by simp [hd])
    · refine (hall.of_free fun f hf _ => by rw [Set.mem_singleton_iff.1 hf, hpfree]).narrow
        fun f hf => ?_
      rcases eq_or_ne f p with rfl | hfp
      · exact .inl hp₄
      · exact .inr (hb.keeps.fresh f (by rwa [howner₃ f hfp]))
    · refine (hb.other rfl v (by omega) fun e he hu => ?_).trans (hlook₃ v)
      have := (haligned e he).first_le.1
      have := hu.1
      omega
    · rcases (hb.hasTable rfl p i).1 hhas with h | ⟨-, h⟩
      · exact hno₃ i h
      · have := k.kmapTables_le h
        omega
    · omega
  | false =>
    obtain ⟨w', hrun', hw', hk', hfree', hlost'⟩ := hb.sound.abort hp₃ hb.keeps (fun x hx => hx.1)
      fun x hx => .inl (.inl hx)
    have hspace {f : ℕ} (hf : f ∈ w₃.space p) : f = p := by
      rcases hf with rfl | ⟨i, hi⟩ | ⟨v, hv⟩
      · rfl
      · exact absurd ⟨f, hi⟩ (hno₃ i)
      · obtain ⟨fl, hfl, hl⟩ := hw₃.lookup_page hv
        rw [hlook₃] at hl
        have := hfl.2
        omega
    have hall : Keeps w w' {p} ∅ .univ :=
      hk₃.trans (hk'.mono (fun f hf => hspace hf) le_rfl (Set.subset_univ _))
    refine ⟨none, w', ?_, .inr ⟨?_, rfl, hw', (hall.of_free fun f hf _ => by
      rw [Set.mem_singleton_iff.1 hf, hpfree]).narrow fun f hf => absurd ?_ hf⟩⟩
    · exact hrun.trans (bind_eq_ok.2 ⟨_, _, hrun', rfl⟩)
    · have : ¬(kmapTables k.kmap).card ≤ w₃.free.length := fun h => Bool.false_ne_true (henough.2 h)
      omega
    · rcases eq_or_ne f p with rfl | hfp
      · rw [hfree' f (.inl rfl), hpfree]
      by_contra hne
      rw [← howner₃ f hfp] at hne
      -- A frame that is free or lost in the end was so before.
      rcases hk'.fresh f hne with hfr | hlo
      · rw [hfr] at hne
        exact hne (hfr.symm.trans (hk'.owner f (fun hm => hfp (hspace hm)) (Ne.symm hne)))
      · have h₄ := (hlost' f).1 hlo
        have h₃ : w₄.owner f ≠ w₃.owner f := fun he => hne (hlo.trans (h₄.symm.trans he))
        obtain ⟨i, hi⟩ := hb.keeps.fresh f h₃
        rw [h₄] at hi
        cases hi

end Paging
