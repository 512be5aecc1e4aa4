import CourseProjects.Paging.Frames

/-!
# Pages are mapped

* `Sound.mappages`: a frame becomes a page of an address space, if there is a frame for its page
  table.
* `Sound.mapKernel`: pages of the kernel are mapped one after the other, as long as there are
  frames for their page tables.
-/

namespace Paging

open Function Tx Words Xv6

variable {k : Kernel} {w w' : World} {f p q i t u v n fl perm last pa x : ℕ}

/-! ### Pages and addresses -/

theorem PDX_mul (hv : v < 2 ^ 20) : PDX (PGSIZE * v) = v / 1024 := by
  simp only [PDX, PGSIZE]
  omega

theorem PTX_mul (v : ℕ) : PTX (PGSIZE * v) = v % 1024 := by
  simp only [PTX, PGSIZE]
  omega

theorem PGROUNDDOWN_mul (v : ℕ) : PGROUNDDOWN (PGSIZE * v) = PGSIZE * v := by
  simp only [PGROUNDDOWN, PGSIZE]
  omega

theorem perm_or_lt (h : perm < PGSIZE) : Flags (perm ||| PTE_P) := by
  refine ⟨Nat.or_lt_two_pow (n := 12) h (by decide), ?_⟩
  rw [PTE_P, Nat.mod_two_eq_one_iff_testBit_zero, Nat.testBit_or]
  simp

theorem entry_or (h : perm < PGSIZE) :
    PGSIZE * f ||| perm ||| PTE_P = PGSIZE * f + (perm ||| PTE_P) := by
  rw [Nat.or_assoc]
  exact (Nat.two_pow_add_eq_or_of_lt (i := 12) (perm_or_lt h).1 f).symm

/-! ### An entry is written -/

/-- A frame becomes a user page. -/
theorem Sound.setPage (hw : Sound k w) (ht : w.owner t = .table p (v / 1024)) (hv : v < 2 ^ 19)
    (hlook : lookup w.machine.frame p v = 0) (hf : w.owner f = .held) (hfl : Flags fl) :
    ∃ w' : World, w'.machine = w.machine.setWord t (v % 1024) (PGSIZE * f + fl) ∧ Sound k w' ∧
      w'.owner = update w.owner f (.page p v) ∧ w'.free = w.free ∧
      lookup w'.machine.frame p v = PGSIZE * f + fl ∧
      w'.machine.frame f = w.machine.frame f ∧ Keeps w w' {f} {(p, v)} {.page p v} := by
  have hpage : 1024 * (v / 1024) + v % 1024 = v := Nat.div_add_mod v 1024
  have hfk : w.owner f ≠ .kernel := by simp [hf]
  have hlt := entry_lt (hw.usable f hfk) hfl.1
  have hword : word (w.machine.frame t) (v % 1024) = 0 :=
    (lookup_of_table hw.toTables ht).symm.trans hlook
  have htables := hw.toTables.setPage ht (by omega) (Nat.mod_lt v (by decide)) hword
    (by rw [hf]; trivial) hfl hlt
  rw [hpage] at htables
  have hne {g : ℕ} {y : Owner} (hg : w.owner g = y) (hy : y ≠ .held) : g ≠ f := by
    rintro rfl
    exact hy (hg.symm.trans hf)
  have hlookup {q u : ℕ} (hq : w.owner q = .dir) (hu : u < 2 ^ 20) :
      lookup (setEntry w.machine.frame t (v % 1024) (PGSIZE * f + fl)) q u =
        if q = p ∧ u = v then PGSIZE * f + fl else lookup w.machine.frame q u := by
    have h := lookup_setEntry hw.toTables ht (Nat.mod_lt v (by decide)) hlt hq hu htables
      fun g a b hg => by rwa [update_of_ne (hne hg (by simp))]
    rwa [hpage] at h
  have htf : f ≠ t := (hne ht (by simp)).symm
  refine ⟨⟨⟨setEntry w.machine.frame t (v % 1024) (PGSIZE * f + fl), w.machine.freelist⟩,
    update w.owner f (.page p v), w.free⟩, rfl, .of_parts htables (usable_update hw hfk)
      (hw.chain.congr fun g hg => setEntry_of_ne ?_) hw.nodup fun g => ?_, rfl, rfl, ?_,
      setEntry_of_ne htf, fun g hg _ => update_of_ne hg _ _, fun g hg => ?_, fun g hg hk => ?_,
      fun q hq hd u hu hr => ?_⟩
  · rintro rfl
    rw [(hw.mem_free g).1 hg] at ht
    cases ht
  · rcases eq_or_ne g f with rfl | hgf
    · rw [update_self, hw.mem_free, hf]
      exact iff_of_false (by simp) (by simp)
    · rw [update_of_ne hgf, hw.mem_free]
  · rw [hlookup (hw.table t p _ ht).1 (by omega), if_pos ⟨rfl, rfl⟩]
  · rcases eq_or_ne g f with rfl | hgf
    · exact update_self ..
    · exact absurd (update_of_ne hgf _ _) hg
  · refine setEntry_of_ne ?_
    rintro rfl
    rw [ht] at hk
    exact hk
  · rw [hlookup hd hu, if_neg]
    rintro ⟨rfl, rfl⟩
    exact hr rfl

/-- A page of the kernel is mapped. -/
theorem Sound.setKernel (hw : Sound k w) (ht : w.owner t = .table p (v / 1024))
    (hv : 2 ^ 19 ≤ v) (hv' : v < 2 ^ 20) (hx : x < 2 ^ 32) :
    ∃ w' : World, w'.machine = w.machine.setWord t (v % 1024) x ∧ Sound k w' ∧
      w'.owner = w.owner ∧ w'.free = w.free ∧ lookup w'.machine.frame p v = x ∧
      Keeps w w' ∅ {(p, v)} ∅ := by
  have hpage : 1024 * (v / 1024) + v % 1024 = v := Nat.div_add_mod v 1024
  have htables := hw.toTables.setKernel (j := v % 1024) ht (by omega) x
  have hlookup {q u : ℕ} (hq : w.owner q = .dir) (hu : u < 2 ^ 20) :
      lookup (setEntry w.machine.frame t (v % 1024) x) q u =
        if q = p ∧ u = v then x else lookup w.machine.frame q u := by
    have h := lookup_setEntry hw.toTables ht (Nat.mod_lt v (by decide)) hx hq hu htables
      fun g a b hg => hg
    rwa [hpage] at h
  refine ⟨⟨⟨setEntry w.machine.frame t (v % 1024) x, w.machine.freelist⟩, w.owner, w.free⟩, rfl,
    .of_parts htables hw.usable (hw.chain.congr fun g hg => setEntry_of_ne ?_) hw.nodup hw.mem_free,
    rfl, rfl, ?_, fun g _ _ => rfl, fun g hg => absurd rfl hg, fun g _ hk => setEntry_of_ne ?_,
    fun q hq hd u hu hr => ?_⟩
  · rintro rfl
    rw [(hw.mem_free g).1 hg] at ht
    cases ht
  · rw [hlookup (hw.table t p _ ht).1 hv', if_pos ⟨rfl, rfl⟩]
  · rintro rfl
    rw [ht] at hk
    exact hk
  · rw [hlookup hd hu, if_neg]
    rintro ⟨rfl, rfl⟩
    exact hr rfl

/-! ### `mappages` -/

/-- A turn of the loop of `mappages`: there is no frame for a page table, the page is mapped
    already, or it gets mapped. -/
theorem Sound.mapLoop (hw : Sound k w) (hp : w.owner p = .dir) (hv : v < 2 ^ 20) :
    (w.free = [] ∧ ¬w.HasTable p (v / 1024) ∧
      (mapLoop p perm last (n + 1) (PGSIZE * v) pa).run w.machine = .ok (false, w.machine)) ∨
    ∃ t w', Walked k w p (v / 1024) t w' ∧
      ((lookup w.machine.frame p v &&& PTE_P ≠ 0 ∧
        (mapLoop p perm last (n + 1) (PGSIZE * v) pa).run w.machine = .error "remap") ∨
      (lookup w.machine.frame p v &&& PTE_P = 0 ∧
        (mapLoop p perm last (n + 1) (PGSIZE * v) pa).run w.machine =
          (if PGSIZE * v = last then pure true
          else mapLoop p perm last n ((PGSIZE * v + PGSIZE) % 2 ^ 32)
            ((pa + PGSIZE) % 2 ^ 32)).run
            (w'.machine.setWord t (v % 1024) (pa ||| perm ||| PTE_P)))) := by
  have hPDX := PDX_mul hv
  have hPTX := PTX_mul v
  rcases hw.walk hp with ⟨hfree, hno, hrun⟩ | ⟨t, w', hrun, hwalk⟩
  · rw [hPDX] at hno
    refine .inl ⟨hfree, hno, ?_⟩
    rw [Paging.mapLoop]
    exact bind_eq_ok.2 ⟨_, _, hrun, rfl⟩
  rw [hPDX] at hwalk
  rw [hPTX] at hrun
  have hword : word (w'.machine.frame t) (v % 1024) = lookup w.machine.frame p v := by
    rw [← lookup_of_table hwalk.sound.toTables hwalk.table]
    exact hwalk.keeps.lookup p (Set.notMem_empty p) hp v hv (Set.notMem_empty _)
  have hbind {α : Type} (f : Option (ℕ × ℕ) → MemOp α) :
      (walkpgdir p (PGSIZE * v) true >>= f).run w.machine =
        (f (some (t, v % 1024))).run w'.machine := by
    rw [StateT.run_bind, hrun]
    rfl
  refine .inr ⟨t, w', hwalk, ?_⟩
  rw [Paging.mapLoop, hbind, get_bind, hword]
  by_cases hlook : lookup w.machine.frame p v &&& PTE_P = 0
  · refine .inr ⟨hlook, ?_⟩
    rw [failIf, if_neg (not_not.2 hlook)]
    rfl
  · refine .inl ⟨hlook, ?_⟩
    rw [failIf, if_pos hlook]
    rfl

/-- The frame `f` has become the page `v`. -/
structure Mapped (k : Kernel) (w : World) (p v f fl : ℕ) (w' : World) : Prop where
  sound : Sound k w'
  owner : w'.owner f = .page p v
  lookup : lookup w'.machine.frame p v = PGSIZE * f + fl
  frame : w'.machine.frame f = w.machine.frame f
  keeps : Keeps w w' {f} {(p, v)} {.table p (v / 1024), .page p v}
  free : w'.free.length + w.missing p {v / 1024} = w.free.length
  hasTable : ∀ q j, w'.HasTable q j ↔
    w.HasTable q j ∨ (q = p ∧ j ∈ ({v / 1024} : Finset ℕ))

theorem mappages_page (hv : v < 2 ^ 20) : mappages p (PGSIZE * v) PGSIZE pa perm =
    mapLoop p perm (PGSIZE * v) (1048575 + 1) (PGSIZE * v) pa := by
  have hlast : PGROUNDDOWN ((PGSIZE * v + PGSIZE + (2 ^ 32 - 1)) % 2 ^ 32) = PGSIZE * v := by
    simp only [PGROUNDDOWN, PGSIZE]
    omega
  rw [mappages, hlast, PGROUNDDOWN_mul]
  rfl

/-- A frame is mapped where there is no page. -/
theorem Sound.mappages (hw : Sound k w) (hp : w.owner p = .dir) (hv : v < 2 ^ 19)
    (hlook : lookup w.machine.frame p v = 0) (hf : w.owner f = .held) (hperm : perm < PGSIZE) :
    (w.free = [] ∧ ¬w.HasTable p (v / 1024) ∧
      (mappages p (PGSIZE * v) PGSIZE (PGSIZE * f) perm).run w.machine =
        .ok (false, w.machine)) ∨
    ∃ w', (mappages p (PGSIZE * v) PGSIZE (PGSIZE * f) perm).run w.machine =
      .ok (true, w'.machine) ∧ Mapped k w p v f (perm ||| PTE_P) w' := by
  rw [mappages_page (by omega)]
  rcases hw.mapLoop (v := v) hp (by omega) with h | ⟨t, w₁, hwalk, ⟨hno, -⟩ | ⟨-, hrun⟩⟩
  · exact .inl h
  · rw [hlook] at hno
    exact absurd rfl hno
  have hf₁ : w₁.owner f = .held := by
    rw [← hf]
    exact hwalk.keeps.owner f (Set.notMem_empty f) (by simp [hf])
  have hlook₁ : Paging.lookup w₁.machine.frame p v = 0 := by
    rw [← hlook]
    exact hwalk.keeps.lookup p (Set.notMem_empty p) hp v (by omega) (Set.notMem_empty _)
  obtain ⟨w', hm, hw', ho', hfree', hl', hfr', hk'⟩ :=
    hwalk.sound.setPage hwalk.table hv hlook₁ hf₁ (perm_or_lt hperm)
  refine .inr ⟨w', ?_, hw', by rw [ho', update_self], hl', ?_, ?_, ?_, fun q j => ?_⟩
  · rw [hrun, if_pos rfl, entry_or hperm, ← hm]
    rfl
  · rw [hfr']
    exact hwalk.keeps.frame f (Set.notMem_empty f) (by rw [hf]; trivial)
  · exact (hwalk.keeps.mono (Set.empty_subset _) (Set.empty_subset _) (by simp)).trans
      (hk'.mono le_rfl le_rfl (by simp))
  · rw [hfree']
    exact hwalk.free
  · rw [← hwalk.hasTable, World.HasTable, World.HasTable, ho']
    refine exists_congr fun g => ?_
    rcases eq_or_ne g f with rfl | hgf
    · rw [update_self, hf₁]
      exact iff_of_false (by simp) (by simp)
    · rw [update_of_ne hgf]

/-! ### The pages of the kernel -/

/-- The pages from `v` to `v + n` of the kernel, if there are frames for their tables. -/
structure KernelMapped (k : Kernel) (w : World) (p v n : ℕ) (pte : ℕ → ℕ) (b : Bool) (w' : World) :
    Prop where
  sound : Sound k w'
  keeps : Keeps w w' ∅ {x | x.1 = p ∧ v ≤ x.2 ∧ x.2 ≤ v + n} {x | ∃ i, x = .table p i}
  lookup : b = true → ∀ u, v ≤ u → u ≤ v + n → lookup w'.machine.frame p u = pte u
  enough : b = true ↔ w.missing p (Finset.Icc (v / 1024) ((v + n) / 1024)) ≤ w.free.length
  free : b = true → w'.free.length + w.missing p (Finset.Icc (v / 1024) ((v + n) / 1024)) =
    w.free.length
  hasTable : b = true → ∀ q j, w'.HasTable q j ↔
    w.HasTable q j ∨ (q = p ∧ j ∈ Finset.Icc (v / 1024) ((v + n) / 1024))

/-- A page of the kernel is mapped, and the loop goes on after it. -/
theorem Sound.mapKernelPage (hw : Sound k w) (hp : w.owner p = .dir) (last fuel : ℕ)
    (hv : 2 ^ 19 ≤ v) (hv' : v < 2 ^ 20) (hf : f < 2 ^ 20) (hperm : perm < PGSIZE)
    (hzero : lookup w.machine.frame p v = 0) :
    (w.free = [] ∧ ¬w.HasTable p (v / 1024) ∧
      (Paging.mapLoop p perm last (fuel + 1) (PGSIZE * v) (PGSIZE * f)).run w.machine =
        .ok (false, w.machine)) ∨
    ∃ w', (Paging.mapLoop p perm last (fuel + 1) (PGSIZE * v) (PGSIZE * f)).run w.machine =
      (if PGSIZE * v = last then pure true
        else Paging.mapLoop p perm last fuel ((PGSIZE * v + PGSIZE) % 2 ^ 32)
          ((PGSIZE * f + PGSIZE) % 2 ^ 32)).run w'.machine ∧
      KernelMapped k w p v 0 (fun u => PGSIZE * (f + (u - v)) + (perm ||| PTE_P)) true w' := by
  rcases hw.mapLoop (v := v) hp hv' with h | ⟨t, w₁, hwalk, ⟨hno, -⟩ | ⟨-, hrun⟩⟩
  · exact .inl h
  · rw [hzero] at hno
    exact absurd rfl hno
  have hlt : PGSIZE * f + (perm ||| PTE_P) < 2 ^ 32 := by
    have := (perm_or_lt hperm).1
    simp only [PGSIZE] at *
    omega
  obtain ⟨w', hm, hw', ho', hfree', hl', hk'⟩ := hwalk.sound.setKernel hwalk.table hv hv' hlt
  have hone : Finset.Icc (v / 1024) ((v + 0) / 1024) = {v / 1024} := by simp
  have hcount := hwalk.free
  refine .inr ⟨w', ?_, hw', ?_, fun _ u hu hu' => ?_, iff_of_true rfl ?_, fun _ => ?_,
    fun _ q j => ?_⟩
  · rw [hrun, entry_or hperm, ← hm]
  · refine ((hwalk.keeps.mono le_rfl (Set.empty_subset _) ?_).trans
      (hk'.mono le_rfl ?_ (Set.empty_subset _)))
    · exact fun x hx => ⟨_, hx⟩
    · rintro x rfl
      exact ⟨rfl, le_rfl, le_rfl⟩
  · obtain rfl : u = v := le_antisymm hu' hu
    rw [hl', Nat.sub_self, Nat.add_zero]
  · rw [hone]
    omega
  · rw [hone, hfree']
    omega
  · rw [World.HasTable, ho', hone]
    exact hwalk.hasTable q j

/-- A page, and the others after it. -/
theorem KernelMapped.cons {w₁ : World} {pte : ℕ → ℕ} {b : Bool} (hp : w₁.owner p = .dir)
    (hv : v < 2 ^ 20) (h : KernelMapped k w p v 0 pte true w₁)
    (h' : KernelMapped k w₁ p (v + 1) n pte b w') : KernelMapped k w p v (n + 1) pte b w' := by
  have hone : Finset.Icc (v / 1024) ((v + 0) / 1024) = {v / 1024} := by simp
  have hI : Finset.Icc (v / 1024) ((v + (n + 1)) / 1024) =
      {v / 1024} ∪ Finset.Icc ((v + 1) / 1024) ((v + 1 + n) / 1024) := by
    ext j
    simp only [Finset.mem_Icc, Finset.mem_union, Finset.mem_singleton]
    omega
  have hfree := h.free rfl
  have hhas := h.hasTable rfl
  simp only [hone] at hfree hhas
  have hcount := missing_union (J := Finset.Icc ((v + 1) / 1024) ((v + 1 + n) / 1024)) hhas
  refine ⟨h'.sound, ?_, fun hb u hu hu' => ?_, ?_, fun hb => ?_, fun hb q j => ?_⟩
  · refine (h.keeps.mono le_rfl ?_ le_rfl).trans (h'.keeps.mono le_rfl ?_ le_rfl)
    · exact fun x hx => ⟨hx.1, hx.2.1, by have := hx.2.2; omega⟩
    · exact fun x hx => ⟨hx.1, by have := hx.2.1; omega, by have := hx.2.2; omega⟩
  · rcases Nat.eq_or_lt_of_le hu with rfl | hlt
    · rw [← h.lookup rfl v le_rfl le_rfl]
      exact h'.keeps.lookup p (Set.notMem_empty p) hp v hv fun hm => absurd hm.2.1 (by simp)
    · exact h'.lookup hb u hlt (by omega)
  · rw [h'.enough, hI]
    omega
  · have := h'.free hb
    rw [hI]
    omega
  · rw [h'.hasTable hb, hhas, hI, Finset.mem_union, or_assoc, ← and_or_left]

theorem KernelMapped.congr {pte pte' : ℕ → ℕ} {b : Bool} (h : KernelMapped k w p v n pte b w')
    (heq : ∀ u, v ≤ u → pte u = pte' u) : KernelMapped k w p v n pte' b w' :=
  ⟨h.sound, h.keeps, fun hb u hu hu' => (h.lookup hb u hu hu').trans (heq u hu), h.enough, h.free,
    h.hasTable⟩

/-- There is no frame for the first page table. -/
theorem KernelMapped.short {pte : ℕ → ℕ} (hw : Sound k w) (hfree : w.free = [])
    (hno : ¬w.HasTable p (v / 1024)) : KernelMapped k w p v n pte false w := by
  refine ⟨hw, .rfl, (by simp), iff_of_false (by simp) ?_, (by simp), (by simp)⟩
  rw [hfree, List.length_nil, Nat.le_zero, World.missing, Finset.card_eq_zero,
    Finset.filter_eq_empty_iff]
  exact fun h => h (Finset.mem_Icc.2 ⟨le_rfl, Nat.div_le_div_right (Nat.le_add_right v n)⟩) hno

/-- The loop of `mappages` on the pages of the kernel. -/
theorem Sound.mapKernel (hw : Sound k w) (hp : w.owner p = .dir) {fuel : ℕ} (hv : 2 ^ 19 ≤ v)
    (hvn : v + n < 2 ^ 20) (hf : f + n < 2 ^ 20) (hperm : perm < PGSIZE) (hfuel : n < fuel)
    (hzero : ∀ u, v ≤ u → u ≤ v + n → lookup w.machine.frame p u = 0) :
    ∃ b w', (Paging.mapLoop p perm (PGSIZE * (v + n)) fuel (PGSIZE * v) (PGSIZE * f)).run
        w.machine = .ok (b, w'.machine) ∧
      KernelMapped k w p v n (fun u => PGSIZE * (f + (u - v)) + (perm ||| PTE_P)) b w' := by
  induction n generalizing w v f fuel with
  | zero =>
    obtain ⟨fuel, rfl⟩ : ∃ m, fuel = m + 1 := ⟨fuel - 1, by omega⟩
    rcases hw.mapKernelPage hp (PGSIZE * (v + 0)) fuel hv hvn hf hperm
      (hzero v le_rfl (Nat.le_add_right v _)) with ⟨hfree, hno, hrun⟩ | ⟨w', hrun, hmap⟩
    · exact ⟨false, w, hrun, .short hw hfree hno⟩
    · rw [if_pos (by rw [Nat.add_zero])] at hrun
      exact ⟨true, w', hrun, hmap⟩
  | succ n ih =>
    obtain ⟨fuel, rfl⟩ : ∃ m, fuel = m + 1 := ⟨fuel - 1, by omega⟩
    rcases hw.mapKernelPage hp (PGSIZE * (v + (n + 1))) fuel hv (by omega)
      (show f < 2 ^ 20 by omega) hperm (hzero v le_rfl (Nat.le_add_right v _))
      with ⟨hfree, hno, hrun⟩ | ⟨w₁, hrun, hmap⟩
    · exact ⟨false, w, hrun, .short hw hfree hno⟩
    have hne : PGSIZE * v ≠ PGSIZE * (v + (n + 1)) := by
      simp only [PGSIZE]
      omega
    have hnext (x : ℕ) (hx : x + 1 < 2 ^ 20) :
        (PGSIZE * x + PGSIZE) % 2 ^ 32 = PGSIZE * (x + 1) := by
      simp only [PGSIZE]
      omega
    have hp₁ : w₁.owner p = .dir := by
      rw [← hp]
      exact hmap.keeps.owner p (Set.notMem_empty p) (by simp [hp])
    have hzero₁ (u : ℕ) (hu : v + 1 ≤ u) (hu' : u ≤ v + 1 + n) :
        lookup w₁.machine.frame p u = 0 := by
      rw [← hzero u (by omega) (by omega)]
      refine hmap.keeps.lookup p (Set.notMem_empty p) hp u (by omega) fun hm => ?_
      have := hm.2.2
      omega
    have hf₁ : f + 1 + n < 2 ^ 20 := by omega
    obtain ⟨b, w', hrun', hmap'⟩ := ih hmap.sound hp₁ (by omega) (by omega) hf₁
      (Nat.lt_of_succ_lt_succ hfuel) hzero₁
    refine ⟨b, w', ?_, hmap.cons hp₁ (by omega) (hmap'.congr fun u hu => ?_)⟩
    · rw [hrun, if_neg hne, hnext v (by omega), hnext f (by omega)]
      have hlast : v + (n + 1) = v + 1 + n := by omega
      rw [hlast]
      exact hrun'
    · congr 2
      omega

end Paging
