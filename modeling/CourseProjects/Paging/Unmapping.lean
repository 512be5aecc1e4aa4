import CourseProjects.Paging.Mapping

/-!
# Pages are unmapped

* `Sound.deallocuvm`: the pages of a range are given back, whatever is mapped there.
* `Sound.freevm`: an address space is given back as a whole.
-/

namespace Paging

open Function Tx Words Xv6

variable {k : Kernel} {w w' w₁ : World} {f g p q i j t u v n oldsz newsz : ℕ}

/-! ### A page -/

theorem Kernel.Usable.pos (h : k.Usable f) : 0 < PGSIZE * f := by
  have h₁ := h.1
  have h₂ := k.data_le
  have h₃ := k.kernlink_lt
  simp only [P2V, KERNLINK, EXTMEM] at *
  omega

theorem setEntry_update {frame : ℕ → Page} {page : Page} {x : ℕ} (ht : t ≠ f) (hg : g ≠ f) :
    setEntry (update frame f page) t j x g = setEntry frame t j x g := by
  rw [setEntry, setEntry, update_of_ne ht]
  rcases eq_or_ne g t with rfl | hgt
  · rw [update_self, update_self]
  · rw [update_of_ne hgt, update_of_ne hgt, update_of_ne hg]

/-- A page is freed, and then taken out of its page table. -/
theorem Sound.unmap (hw : Sound k w) (hf : w.owner f = .page p v)
    (ht : w.owner t = .table p (v / 1024)) :
    ∃ w' m, (Paging.kfree k f).run w.machine = .ok (⟨⟩, m) ∧ w'.machine = m.setWord t (v % 1024) 0 ∧
      Sound k w' ∧ w'.owner = update w.owner f .free ∧ lookup w'.machine.frame p v = 0 ∧
      Keeps w w' {f} {(p, v)} {.free} := by
  have hpage : 1024 * (v / 1024) + v % 1024 = v := Nat.div_add_mod v 1024
  have hfk : w.owner f ≠ .kernel := by simp [hf]
  have hlt : 0 < 2 ^ 32 := by decide
  have htf : t ≠ f := by
    rintro rfl
    rw [hf] at ht
    cases ht
  have hnot : f ∉ w.free := by
    rw [hw.mem_free, hf]
    simp
  have htables := hw.toTables.clearPage hf ht (x := .free) trivial
  -- The junk that `kfree` fills the frame with is in no table.
  have hcongr (g : ℕ) (hg : (update w.owner f .free g).Tabular) :
      setEntry (update w.machine.frame f (setWord (fun _ => 1) 0 w.machine.freelist)) t (v % 1024)
        0 g = setEntry w.machine.frame t (v % 1024) 0 g := by
    refine setEntry_update htf ?_
    rintro rfl
    rw [update_self] at hg
    exact hg
  have hdir {q : ℕ} (hq : w.owner q = .dir) : update w.owner f .free q = .dir := by
    rw [update_of_ne, hq]
    rintro rfl
    rw [hf] at hq
    cases hq
  have hlookup {q u : ℕ} (hq : w.owner q = .dir) (hu : u < 2 ^ 20) :
      lookup (setEntry (update w.machine.frame f (setWord (fun _ => 1) 0 w.machine.freelist)) t
        (v % 1024) 0) q u = if q = p ∧ u = v then 0 else lookup w.machine.frame q u := by
    rw [htables.lookup_congr (hdir hq) hu hcongr, lookup_setEntry hw.toTables ht
      (Nat.mod_lt v (by decide)) hlt hq hu htables fun g a b hg => ?_, hpage]
    rw [update_of_ne, hg]
    rintro rfl
    rw [hf] at hg
    cases hg
  have hp := (hw.table t p _ ht).1
  have hv := (hw.page f p v hf).1
  refine ⟨⟨⟨setEntry (update w.machine.frame f (setWord (fun _ => 1) 0 w.machine.freelist)) t
      (v % 1024) 0, P2V (PGSIZE * f)⟩, update w.owner f .free, f :: w.free⟩, _,
    kfree_run (hw.usable f hfk) _, rfl, .of_parts (htables.congr hcongr) (usable_update hw hfk)
      ⟨rfl, ?_⟩ (List.nodup_cons.2 ⟨hnot, hw.nodup⟩) fun g => ?_, rfl, ?_,
      fun g hg _ => update_of_ne hg _ _, fun g hg => ?_, fun g hg hk => ?_,
      fun q _ hq u hu hr => ?_⟩
  · rw [setEntry_of_ne htf.symm, update_self, word_setWord_self,
      Nat.mod_eq_of_lt (hw.chain.lt fun g hg => hw.usable_free hg)]
    refine hw.chain.congr fun g hg => ?_
    have hgf : g ≠ f := by
      rintro rfl
      exact hnot hg
    rw [setEntry_of_ne, update_of_ne hgf]
    rintro rfl
    rw [(hw.mem_free g).1 hg] at ht
    cases ht
  · rcases eq_or_ne g f with rfl | hgf
    · rw [update_self]
      exact iff_of_true List.mem_cons_self rfl
    · rw [update_of_ne hgf, ← hw.mem_free g, List.mem_cons, or_iff_right hgf]
  · exact (hlookup hp (by omega)).trans (if_pos ⟨rfl, rfl⟩)
  · rcases eq_or_ne g f with rfl | hgf
    · exact update_self ..
    · exact absurd (update_of_ne hgf _ _) hg
  · refine (setEntry_of_ne ?_).trans (update_of_ne hg _ _)
    rintro rfl
    rw [ht] at hk
    exact hk
  · refine (hlookup hq hu).trans (if_neg ?_)
    rintro ⟨rfl, rfl⟩
    exact hr rfl

/-! ### `deallocuvm` -/

/-- The pages from `v` on that start below `oldsz` are given back. -/
structure Dealloc (k : Kernel) (w : World) (p v oldsz : ℕ) (w' : World) : Prop where
  sound : Sound k w'
  keeps : Keeps w w' {f | ∃ u, v ≤ u ∧ PGSIZE * u < oldsz ∧ w.owner f = .page p u}
    {x | x.1 = p ∧ v ≤ x.2 ∧ PGSIZE * x.2 < oldsz} {.free}
  gone : ∀ u, v ≤ u → PGSIZE * u < oldsz → lookup w'.machine.frame p u = 0

/-- Where there are no pages, there is nothing to give back. -/
theorem Dealloc.skip (hp : w.owner p = .dir) (hk : oldsz ≤ KERNBASE) (hle : v ≤ n)
    (hno : ∀ u, v ≤ u → u < n → PGSIZE * u < oldsz → lookup w.machine.frame p u = 0)
    (h : Dealloc k w p n oldsz w') : Dealloc k w p v oldsz w' := by
  refine ⟨h.sound, h.keeps.mono ?_ ?_ le_rfl, fun u hu hlt => ?_⟩
  · rintro f ⟨u, hu, hlt, hf⟩
    exact ⟨u, hle.trans hu, hlt, hf⟩
  · rintro x ⟨hx, hu, hlt⟩
    exact ⟨hx, hle.trans hu, hlt⟩
  · rcases Nat.lt_or_ge u n with hn | hn
    · rw [← hno u hu hn hlt]
      refine h.keeps.lookup p ?_ hp u ?_ fun hm => absurd hm.2.1 (not_le.2 hn)
      · rintro ⟨u', -, -, hf⟩
        rw [hp] at hf
        cases hf
      · simp only [PGSIZE, KERNBASE] at hlt hk
        omega
    · exact h.gone u hn hlt

/-- A page is given back, and then the others. -/
theorem Dealloc.cons (hp : w₁.owner p = .dir) (hk : oldsz ≤ KERNBASE)
    (ho : w₁.owner = update w.owner f .free) (hf : w.owner f = .page p v)
    (hv : PGSIZE * v < oldsz) (hgone : lookup w₁.machine.frame p v = 0)
    (hkeep : Keeps w w₁ {f} {(p, v)} {.free}) (h : Dealloc k w₁ p (v + 1) oldsz w') :
    Dealloc k w p v oldsz w' := by
  have hskip := h.skip hp hk (Nat.le_succ v) fun u hu hu' _ => by
    obtain rfl : u = v := by omega
    exact hgone
  refine ⟨h.sound, (hkeep.mono ?_ ?_ le_rfl).trans (hskip.keeps.mono ?_ le_rfl le_rfl),
    hskip.gone⟩
  · rintro g rfl
    exact ⟨v, le_rfl, hv, hf⟩
  · rintro x rfl
    exact ⟨rfl, le_rfl, hv⟩
  · rintro g ⟨u, hu, hlt, hg⟩
    refine ⟨u, hu, hlt, ?_⟩
    rw [ho] at hg
    rcases eq_or_ne g f with rfl | hgf
    · rw [update_self] at hg
      cases hg
    · rwa [update_of_ne hgf] at hg

/-- The loop of `deallocuvm`, below the kernel and with enough fuel. -/
theorem Sound.deallocLoop (hw : Sound k w) (hp : w.owner p = .dir) (hk : oldsz ≤ KERNBASE)
    (hfuel : 2 ^ 19 ≤ v + n) :
    ∃ w', (deallocLoop k p oldsz n (PGSIZE * v)).run w.machine = .ok (⟨⟩, w'.machine) ∧
      Dealloc k w p v oldsz w' := by
  induction n generalizing w v with
  | zero =>
    refine ⟨w, rfl, hw, .rfl, fun u hu hlt => absurd hlt ?_⟩
    simp only [PGSIZE, KERNBASE] at hk ⊢
    omega
  | succ n ih =>
    rw [Paging.deallocLoop]
    by_cases hlt : PGSIZE * v < oldsz
    swap
    · rw [if_neg hlt]
      refine ⟨w, rfl, hw, .rfl, fun u hu hlt' => absurd hlt' (fun h => hlt ?_)⟩
      exact (Nat.mul_le_mul_left _ hu).trans_lt h
    have hv : v < 2 ^ 19 := by
      simp only [PGSIZE, KERNBASE] at hlt hk
      omega
    have hPDX := PDX_mul (v := v) (by omega)
    have hPTX := PTX_mul v
    have hnext : (PGSIZE * v + PGSIZE) % 2 ^ 32 = PGSIZE * (v + 1) := by
      simp only [PGSIZE]
      omega
    rw [if_pos hlt]
    rcases hw.table_cases (v := v) hp (by omega) with ⟨hz, hno⟩ | ⟨t, ht, hlook⟩
    · have hjump : (PDX (PGSIZE * v) + 1) * 2 ^ 22 % 2 ^ 32 = PGSIZE * (1024 * (v / 1024 + 1)) := by
        rw [hPDX]
        simp only [PGSIZE]
        omega
      have hwalk : (walkpgdir p (PGSIZE * v) false).run w.machine = .ok (none, w.machine) :=
        walkpgdir_none (by rwa [hPDX])
      obtain ⟨w', hrun, hd⟩ := ih (v := 1024 * (v / 1024 + 1)) hw hp (by omega)
      refine ⟨w', bind_eq_ok.2 ⟨_, _, hwalk, ?_⟩, hd.skip hp hk (by omega) fun u hu hu' _ => ?_⟩
      · rw [← hrun, ← hjump]
      · refine lookup_of_zero ?_
        have hdiv : u / 1024 = v / 1024 := by omega
        rwa [hdiv]
    have hwalk : (walkpgdir p (PGSIZE * v) false).run w.machine =
        .ok (some (t, v % 1024), w.machine) := by
      rw [← hPTX]
      exact walkpgdir_table hw (by rw [hPDX]; exact ht)
    rcases hw.lookup_cases hp hv with ⟨hz, -⟩ | ⟨f, fl, hf, hfl, hl⟩
    · obtain ⟨w', hrun, hd⟩ := ih (v := v + 1) hw hp (by omega)
      refine ⟨w', bind_eq_ok.2 ⟨_, _, hwalk, ?_⟩,
        hd.skip hp hk (Nat.le_succ v) fun u hu hu' _ => ?_⟩
      · rw [get_bind, ← hlook, hz, if_neg (by decide), hnext]
        exact hrun
      · obtain rfl : u = v := by omega
        exact hz
    · obtain ⟨w₁, m, hkfree, hm, hw₁, ho₁, hgone, hkeep⟩ := hw.unmap hf ht
      have hp₁ : w₁.owner p = .dir := by
        rw [ho₁, update_of_ne, hp]
        rintro rfl
        rw [hf] at hp
        cases hp
      obtain ⟨w', hrun, hd⟩ := ih (v := v + 1) hw₁ hp₁ (by omega)
      refine ⟨w', bind_eq_ok.2 ⟨_, _, hwalk, ?_⟩, hd.cons hp₁ hk ho₁ hf hlt hgone hkeep⟩
      have hne : ¬PTE_ADDR (PGSIZE * f + fl) = 0 := by
        have hpos := (hw.usable f (by simp [hf])).pos
        have := hfl.1
        simp only [PTE_ADDR, PGSIZE] at *
        omega
      rw [get_bind, ← hlook, hl, if_pos hfl.present, hnext, PTE_ADDR_div hfl.1]
      refine failIf_bind_eq_ok.2 ⟨hne, bind_eq_ok.2 ⟨_, _, hkfree, ?_⟩⟩
      rw [← hrun, hm]
      rfl

/-- `deallocuvm`, below the kernel. -/
theorem Sound.deallocuvm (hw : Sound k w) (hp : w.owner p = .dir) (hk : oldsz ≤ KERNBASE)
    (newsz : ℕ) :
    ∃ w', (deallocuvm k p oldsz newsz).run w.machine = .ok (min oldsz newsz, w'.machine) ∧
      Sound k w' ∧
      Keeps w w' {f | ∃ u, Vm.InRange newsz oldsz (PGSIZE * u) ∧ w.owner f = .page p u}
        {x | x.1 = p ∧ Vm.InRange newsz oldsz (PGSIZE * x.2)} {.free} ∧
      ∀ u, Vm.InRange newsz oldsz (PGSIZE * u) → lookup w'.machine.frame p u = 0 := by
  rw [Paging.deallocuvm]
  split
  · rename_i hle
    refine ⟨w, by rw [min_eq_left hle]; rfl, hw, .rfl, fun u hu => ?_⟩
    have := hu.2.1
    have := hu.2.2
    omega
  rename_i hlt
  have hn : newsz + PGSIZE ≤ 2 ^ 32 := by
    simp only [PGSIZE, KERNBASE] at *
    omega
  obtain ⟨v, hv⟩ := Vm.dvd_pgroundup newsz
  have hrange (u : ℕ) : v ≤ u ∧ PGSIZE * u < oldsz ↔ Vm.InRange newsz oldsz (PGSIZE * u) := by
    have hiff := Vm.pgroundup_le_iff hn (Dvd.intro u rfl)
    rw [hv, Nat.mul_le_mul_left_iff (by decide)] at hiff
    rw [Vm.InRange, ← hiff, and_iff_right (Dvd.intro u rfl)]
  obtain ⟨w', hrun, hd⟩ := hw.deallocLoop (n := 2 ^ 20) (v := v) hp hk
    (le_add_left (Nat.pow_le_pow_right (by decide) (by decide)))
  refine ⟨w', ?_, hd.sound, hd.keeps.mono ?_ ?_ le_rfl, fun u hu => ?_⟩
  · rw [hv, min_eq_right (not_le.1 hlt).le]
    exact bind_eq_ok.2 ⟨_, _, hrun, rfl⟩
  · rintro f ⟨u, hu, hlt', hf⟩
    exact ⟨u, (hrange u).1 ⟨hu, hlt'⟩, hf⟩
  · rintro x ⟨hx, hu⟩
    exact ⟨hx, (hrange x.2).1 hu⟩
  · obtain ⟨hu, hlt'⟩ := (hrange u).2 hu
    exact hd.gone u hu hlt'

/-! ### `freevm` -/

/-- The frames of an address space. -/
def World.space (w : World) (p : ℕ) : Set ℕ :=
  {f | f = p ∨ (∃ i, w.owner f = .table p i) ∨ ∃ v, w.owner f = .page p v}

/-- Only the frames of the directory and of its own tables matter. -/
theorem Tables.lookup_congr_own {frame frame' : ℕ → Page} {owner : ℕ → Owner}
    (h : Tables frame owner) (hp : owner p = .dir) (hv : v < 2 ^ 20) (hdir : frame' p = frame p)
    (heq : ∀ t i, owner t = .table p i → frame' t = frame t) :
    lookup frame' p v = lookup frame p v := by
  rcases h.table_cases hp hv with ⟨hz, -⟩ | ⟨t, ht, -⟩
  · rw [lookup_of_zero hz, lookup_of_zero (by rwa [hdir])]
  · have hword := (h.table t p _ ht).2.2
    rw [lookup_of_table h ht, lookup, hdir, hword, if_neg flags_seven.present,
      PTE_ADDR_div flags_seven.1, heq t _ ht]

/-- The tables below `i` have been given back, the others and the directory have not. -/
structure Freeing (k : Kernel) (w : World) (p i : ℕ) (w' : World) : Prop where
  sound : Sound k w'
  free : ∀ f j, j < i → w.owner f = .table p j → w'.owner f = .free
  owner : ∀ f, (∀ j < i, w.owner f ≠ .table p j) → w'.owner f = dismantle w.owner p f
  frame : ∀ f, (∀ j < i, w.owner f ≠ .table p j) → w'.machine.frame f = w.machine.frame f

theorem Sound.dismantle (hw : Sound k w) (hp : w.owner p = .dir)
    (hno : ∀ f v, w.owner f ≠ .page p v) :
    Freeing k w p 0 ⟨w.machine, dismantle w.owner p, w.free⟩ := by
  refine ⟨.of_parts (hw.toTables.dismantle hp hno) (fun f hf => hw.usable f fun he => hf ?_)
    hw.chain hw.nodup fun f => ?_, fun f j hj => absurd hj (Nat.not_lt_zero j), fun _ _ => rfl,
    fun _ _ => rfl⟩
  · rw [dismantle_eq_iff hp .kernel (by simp)]
    refine ⟨he, ?_, fun i hi => ?_⟩
    · rintro rfl
      rw [hp] at he
      cases he
    · rw [he] at hi
      cases hi
  · rw [dismantle_eq_iff hp .free (by simp), hw.mem_free]
    refine (and_iff_left_of_imp fun he => ⟨?_, fun i hi => ?_⟩).symm
    · rintro rfl
      rw [hp] at he
      cases he
    · rw [he] at hi
      cases hi

/-- A turn of the loop of `freevm`. -/
theorem Freeing.step (hw : Sound k w) (hp : w.owner p = .dir) (hi : i < 1024)
    (h : Freeing k w p i w₁) :
    ∃ w', (freeTable k p i).run w₁.machine = .ok (⟨⟩, w'.machine) ∧ Freeing k w p (i + 1) w' := by
  have hnot (j : ℕ) : w.owner p ≠ .table p j := by
    rw [hp]
    simp
  have hframe := h.frame p fun j _ => hnot j
  rcases hw.dir p hp i hi with hz | ⟨t, ht, hword⟩
  · -- There is no such table.
    have hno (f : ℕ) : w.owner f ≠ .table p i := fun hf => by
      have := (hw.table f p i hf).2.2
      omega
    refine ⟨w₁, ?_, h.sound, fun f j hj hf => ?_, fun f hf => ?_, fun f hf => ?_⟩
    · rw [freeTable, get_bind, hframe, hz, if_neg (by decide)]
      rfl
    · rcases Nat.lt_succ_iff_lt_or_eq.1 hj with hj | rfl
      · exact h.free f j hj hf
      · exact absurd hf (hno f)
    · exact h.owner f fun j hj => hf j (hj.trans (Nat.lt_succ_self i))
    · exact h.frame f fun j hj => hf j (hj.trans (Nat.lt_succ_self i))
  · have hheld : w₁.owner t = .held := by
      rw [h.owner t fun j hj he => ?_, Paging.dismantle, if_neg ?_, ht]
      · exact if_pos rfl
      · rintro rfl
        exact hnot i ht
      · cases ht.symm.trans he
        exact lt_irrefl _ hj
    obtain ⟨w', hrun, hw', ho', -, hfr'⟩ := h.sound.kfree hheld
    have hnext (f : ℕ) (hf : ∀ j < i + 1, w.owner f ≠ .table p j) :
        f ≠ t ∧ ∀ j < i, w.owner f ≠ .table p j := by
      refine ⟨?_, fun j hj => hf j (hj.trans (Nat.lt_succ_self i))⟩
      rintro rfl
      exact hf i (Nat.lt_succ_self i) ht
    refine ⟨w', ?_, hw', fun f j hj hf => ?_, fun f hf => ?_, fun f hf => ?_⟩
    · rw [freeTable, get_bind, hframe, hword, if_pos flags_seven.present,
        PTE_ADDR_div flags_seven.1]
      exact hrun
    · rw [ho']
      rcases eq_or_ne f t with rfl | hft
      · exact update_self ..
      · rw [update_of_ne hft]
        refine h.free f j (lt_of_le_of_ne (Nat.lt_succ_iff.1 hj) ?_) hf
        rintro rfl
        exact hft (hw.table_inj hf ht)
    · obtain ⟨hft, hf⟩ := hnext f hf
      rw [ho', update_of_ne hft, h.owner f hf]
    · obtain ⟨hft, hf⟩ := hnext f hf
      rw [hfr' f hft, h.frame f hf]

/-- The frames of an address space are given back, all of them. -/
theorem Sound.freevm (hw : Sound k w) (hp : w.owner p = .dir) :
    ∃ w', (freevm k p).run w.machine = .ok (⟨⟩, w'.machine) ∧ Sound k w' ∧
      Keeps w w' (w.space p) ∅ {.free} ∧ ∀ f ∈ w.space p, w'.owner f = .free := by
  obtain ⟨w₁, hrun₁, hw₁, hk₁, hgone⟩ := hw.deallocuvm hp (le_refl KERNBASE) 0
  have hp₁ : w₁.owner p = .dir := by
    rw [← hp]
    refine hk₁.owner p ?_ (by simp [hp])
    rintro ⟨u, -, hf⟩
    rw [hp] at hf
    cases hf
  -- No page is left to the address space, so that only its tables and the directory remain.
  have hno (f v : ℕ) : w₁.owner f ≠ .page p v := by
    intro hf
    obtain ⟨fl, hfl, hl⟩ := hw₁.lookup_page hf
    have hv := (hw₁.page f p v hf).1
    rw [hgone v ⟨Dvd.intro v rfl, Nat.zero_le _, ?_⟩] at hl
    · have := hfl.2
      omega
    · simp only [PGSIZE, KERNBASE]
      omega
  -- The loop gives the tables back; the directory is held until the last call.
  have hloop := forM_range (f := freeTable k p) (n := 1024) (s := w₁.machine)
    (I := fun i m => ∃ w', w'.machine = m ∧ Freeing k w₁ p i w')
    (by
      rintro i hi m ⟨w', hm, h⟩
      obtain ⟨w'', hrun, h'⟩ := h.step hw₁ hp₁ hi
      exact ⟨w''.machine, hm ▸ hrun, w'', rfl, h'⟩)
    ⟨⟨w₁.machine, Paging.dismantle w₁.owner p, w₁.free⟩, rfl, hw₁.dismantle hp₁ hno⟩
  obtain ⟨m, hrun₂, w₂, rfl, h₂⟩ := hloop
  have hdirp (j : ℕ) : w₁.owner p ≠ .table p j := by
    rw [hp₁]
    simp
  have hheld : w₂.owner p = .held := by
    rw [h₂.owner p fun j _ => hdirp j]
    exact if_pos rfl
  obtain ⟨w', hrun', hw', ho', -, hfr'⟩ := h₂.sound.kfree hheld
  have htable (f j : ℕ) (hf : w₁.owner f = .table p j) : w'.owner f = .free := by
    have hfp : f ≠ p := by
      rintro rfl
      exact hdirp j hf
    rw [ho', update_of_ne hfp]
    exact h₂.free f j (hw₁.table f p j hf).2.1 hf
  have hother (f : ℕ) (hfp : f ≠ p) (hf : ∀ j, w₁.owner f ≠ .table p j) :
      w'.owner f = w₁.owner f ∧ w'.machine.frame f = w₁.machine.frame f := by
    rw [ho', update_of_ne hfp, h₂.owner f fun j _ => hf j, hfr' f hfp, h₂.frame f fun j _ => hf j]
    refine ⟨?_, rfl⟩
    rw [Paging.dismantle, if_neg hfp]
    split
    · rename_i q j he
      rw [he, if_neg]
      rintro rfl
      exact hf j he
    · rfl
  have hk₂ : Keeps w₁ w' (w₁.space p) ∅ {.free} := by
    have hout {f : ℕ} (hf : f ∉ w₁.space p) : f ≠ p ∧ ∀ j, w₁.owner f ≠ .table p j :=
      ⟨fun he => hf (.inl he), fun j he => hf (.inr (.inl ⟨j, he⟩))⟩
    refine ⟨fun f hf _ => ?_, fun f hf => ?_, fun f hf _ => ?_, fun q hq hd v hv _ => ?_⟩
    · exact (hother f (hout hf).1 (hout hf).2).1
    · rcases eq_or_ne f p with rfl | hfp
      · rw [ho', update_self]
        rfl
      · by_cases hf' : ∃ j, w₁.owner f = .table p j
        · obtain ⟨j, hj⟩ := hf'
          exact htable f j hj
        · exact absurd (hother f hfp fun j he => hf' ⟨j, he⟩).1 hf
    · exact (hother f (hout hf).1 (hout hf).2).2
    · refine hw₁.lookup_congr_own hd hv (hother q (hout hq).1 (hout hq).2).2 fun t i ht => ?_
      refine (hother t ?_ fun j he => ?_).2
      · rintro rfl
        rw [hp₁] at ht
        cases ht
      · cases ht.symm.trans he
        exact hq (.inl rfl)
  -- The frames of the address space that were no pages are still its own after the first loop.
  have hsame (f : ℕ) (hf : ∀ v, w.owner f ≠ .page p v) (hfree : w.owner f ≠ .free) :
      w₁.owner f = w.owner f := by
    refine hk₁.owner f ?_ hfree
    rintro ⟨u, -, hu⟩
    exact hf u hu
  have hsub {f : ℕ} (hf : f ∈ w₁.space p) : f ∈ w.space p := by
    rcases hf with rfl | ⟨i, hi⟩ | ⟨v, hv⟩
    · exact .inl rfl
    · by_cases he : w₁.owner f = w.owner f
      · exact .inr (.inl ⟨i, he ▸ hi⟩)
      · have := hk₁.fresh f he
        rw [hi] at this
        cases this
    · exact absurd hv (hno f v)
  have hk : Keeps w w₁ (w.space p) ∅ {.free} := by
    refine (hk₁.mono ?_ le_rfl le_rfl).drop fun x hx => .inl hx.1
    rintro f ⟨u, -, hf⟩
    exact .inr (.inr ⟨u, hf⟩)
  refine ⟨w', ?_, hw', hk.trans (hk₂.mono (fun f => hsub) le_rfl le_rfl), ?_⟩
  · rw [min_eq_right (Nat.zero_le _)] at hrun₁
    exact bind_eq_ok.2 ⟨_, _, hrun₁, bind_eq_ok.2 ⟨_, _, hrun₂, hrun'⟩⟩
  · rintro f (rfl | ⟨i, hi⟩ | ⟨v, hv⟩)
    · rw [ho', update_self]
    · refine htable f i ?_
      rw [← hi]
      exact hsame f (by simp [hi]) (by simp [hi])
    · have hfree : w₁.owner f = .free := by
        by_cases he : w₁.owner f = w.owner f
        · exact absurd (he.trans hv) (hno f v)
        · exact hk₁.fresh f he
      rw [(hother f ?_ ?_).1, hfree]
      · rintro rfl
        rw [hp] at hv
        cases hv
      · rw [hfree]
        simp

end Paging
