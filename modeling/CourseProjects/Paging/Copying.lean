import CourseProjects.Paging.Growing

/-!
# Address spaces are copied

* `Sound.copyuvm`: the copy has the pages of the original, with their flags. When there are too few
  frames there is no copy, and all frames that it took are given back but one, if it is the last
  one and there is none for its page table (`losesFrame`).
-/

namespace Paging

open Function Tx Words Xv6

variable {k : Kernel} {w w' w₁ w₂ : World} {d f g p q i j t u v n fl sz : ℕ} {vs : List ℕ}

/-! ### What the copy takes -/

/-- The pages that are mapped. -/
def present (frame : ℕ → Page) (p : ℕ) (vs : List ℕ) : List ℕ :=
  vs.filter fun v => (view frame p v).isSome

/-- With `n` frames, and page tables at the places `T`, the last frame is for a page that has no
    page table yet. -/
def losesFrame (n : ℕ) (T : Finset ℕ) : List ℕ → Bool
  | [] => false
  | v :: vs =>
    if v / 1024 ∈ T then 1 ≤ n && losesFrame (n - 1) T vs
    else n = 1 || (2 ≤ n && losesFrame (n - 2) (insert (v / 1024) T) vs)

theorem or_PTE_P (h : fl % 2 = 1) : fl ||| PTE_P = fl := by
  refine Nat.eq_of_testBit_eq fun i => ?_
  rw [Nat.testBit_or, PTE_P]
  cases i with
  | zero => rw [Nat.testBit_zero, h]; rfl
  | succ i => simp [Nat.testBit_succ]

/-- The pages have been copied. -/
structure Copied (k : Kernel) (w : World) (p d : ℕ) (vs : List ℕ) (w' : World) : Prop where
  sound : Sound k w'
  keeps : Keeps w w' ∅ {x | x.1 = d ∧ x.2 ∈ vs} {x | x.Within d}
  view : ∀ v ∈ vs, view w'.machine.frame d v = view w.machine.frame p v
  free : w'.free.length + ((present w.machine.frame p vs).length +
    w.missing d (tablesOf (present w.machine.frame p vs))) = w.free.length

/-- The copy is given up, with or without the loss of a frame. -/
structure Stopped (k : Kernel) (w : World) (d : ℕ) (b : Bool) (w' : World) : Prop where
  sound : Sound k w'
  keeps : Keeps w w' ∅ {x | x.1 = d} {x | x.Within d ∨ x = .lost}
  lost : (b = false ∧ ∀ g, w'.owner g = .lost ↔ w.owner g = .lost) ∨
    (b = true ∧ ∃ f, w.owner f = .free ∧ ∀ g, w'.owner g = .lost ↔ w.owner g = .lost ∨ g = f)

/-- A page has been copied, and then the others. -/
theorem NewPage.copied {x : UserPage} (h : NewPage k w d v x w₁)
    (hx : Paging.view w.machine.frame p v = some x) (hd : w.owner d = .dir) (hv : v < 2 ^ 19)
    (hnot : v ∉ vs)
    (hsame : ∀ u ∈ vs, Paging.view w₁.machine.frame p u = Paging.view w.machine.frame p u)
    (h' : Copied k w₁ p d vs w') : Copied k w p d (v :: vs) w' := by
  have hd₁ : w₁.owner d = .dir := by
    rw [← hd]
    exact h.keeps.owner d (Set.notMem_empty d) (by simp [hd])
  have hpresent : present w₁.machine.frame p vs = present w.machine.frame p vs :=
    List.filter_congr fun u hu => by rw [hsame u hu]
  have hcons : present w.machine.frame p (v :: vs) = v :: present w.machine.frame p vs :=
    List.filter_cons_of_pos (by rw [hx]; rfl)
  refine ⟨h'.sound, (h.keeps.mono le_rfl ?_ le_rfl).trans (h'.keeps.mono le_rfl ?_ le_rfl),
    fun u hu => ?_, ?_⟩
  · rintro y rfl
    exact ⟨rfl, List.mem_cons_self⟩
  · exact fun y hy => ⟨hy.1, List.mem_cons_of_mem _ hy.2⟩
  · rcases List.mem_cons.1 hu with rfl | hu
    · rw [hx, ← h.view]
      exact h'.keeps.view h.sound.toTables hd₁ (Set.notMem_empty d) hv (fun hm => hnot hm.2)
        fun f hf => absurd hf (Set.notMem_empty f)
    · rw [h'.view u hu, hsame u hu]
  · have h₁ := h.free
    have h₂ := h'.free
    rw [hpresent] at h₂
    rw [hcons, tablesOf_cons, missing_union h.hasTable, List.length_cons]
    omega

/-- A page has been copied, and then the copy is given up. -/
theorem NewPage.stopped {x : UserPage} {b : Bool} (h : NewPage k w d v x w₁)
    (h' : Stopped k w₁ d b w') : Stopped k w d b w' := by
  have hlost (g : ℕ) : w₁.owner g = .lost ↔ w.owner g = .lost := by
    constructor
    · intro hg
      by_contra hne
      have := h.keeps.fresh g fun he => hne (he ▸ hg)
      rw [hg] at this
      rcases this with ⟨i, hi⟩ | ⟨u, hu⟩
      · cases hi
      · cases hu
    · intro hg
      rw [← hg]
      exact h.keeps.owner g (Set.notMem_empty g) (by simp [hg])
  refine ⟨h'.sound, (h.keeps.mono le_rfl ?_ fun y hy => .inl hy).trans h'.keeps, ?_⟩
  · rintro y rfl
    rfl
  · refine h'.lost.imp (fun hl => ⟨hl.1, fun g => (hl.2 g).trans (hlost g)⟩) ?_
    rintro ⟨hb, f, hf, hl⟩
    refine ⟨hb, f, ?_, fun g => (hl g).trans (or_congr_left (hlost g))⟩
    by_contra hne
    have hsame := h.keeps.owner f (Set.notMem_empty f) hne
    exact hne (hsame.symm.trans hf)

/-- A frame is lost. -/
theorem Sound.lose (hw : Sound k w₁) (hf : w.owner f = .free)
    (ho : w₁.owner = update w.owner f .held) (hk : Keeps w w₁ ∅ ∅ {.held}) :
    ∃ w' : World, w'.machine = w₁.machine ∧ Stopped k w d true w' := by
  have hheld : w₁.owner f = .held := by rw [ho, update_self]
  have hw' : Sound k ⟨w₁.machine, update w₁.owner f .lost, w₁.free⟩ := by
    refine .of_parts (hw.toTables.update_plain (by rw [hheld]; trivial) trivial)
      (usable_update hw (by simp [hheld])) hw.chain hw.nodup fun g => ?_
    rcases eq_or_ne g f with rfl | hgf
    · rw [update_self, hw.mem_free, hheld]
      exact iff_of_false (by simp) (by simp)
    · rw [update_of_ne hgf, hw.mem_free]
  have hk' : Keeps w₁ ⟨w₁.machine, update w₁.owner f .lost, w₁.free⟩ {f} ∅ .univ :=
    .of_plain hw.toTables (by rw [hheld]; trivial) rfl trivial (fun g hg => update_of_ne hg _ _)
      fun _ _ => rfl
  have hall := (hk.mono (Set.empty_subset {f}) le_rfl (Set.subset_univ _)).trans hk'
  refine ⟨⟨w₁.machine, update w₁.owner f .lost, w₁.free⟩, rfl, hw', ((hall.of_free fun g hg _ => by
    rw [Set.mem_singleton_iff.1 hg, hf]).mono le_rfl (Set.empty_subset _) le_rfl).narrow
      fun g hg => ?_, .inr ⟨rfl, f, hf, fun g => ?_⟩⟩
  · rcases eq_or_ne g f with rfl | hgf
    · exact .inr (update_self ..)
    · refine absurd ?_ hg
      change update w₁.owner f _ g = _
      rw [update_of_ne hgf, ho, update_of_ne hgf]
  · change update w₁.owner f _ g = _ ↔ _
    rcases eq_or_ne g f with rfl | hgf
    · rw [update_self]
      exact iff_of_true rfl (.inr rfl)
    · rw [update_of_ne hgf, ho, update_of_ne hgf, or_iff_left hgf]

/-! ### The loop of `copyuvm` -/

/-- What `copyLoop` needs: the pages have page tables, and the copy has none of the pages. -/
structure Copies (w : World) (p d : ℕ) (T : Finset ℕ) (vs : List ℕ) : Prop where
  dir : w.owner p = .dir
  dir' : w.owner d = .dir
  ne : p ≠ d
  nodup : vs.Nodup
  lt : ∀ v ∈ vs, v < 2 ^ 19
  table : ∀ v ∈ vs, w.HasTable p (v / 1024)
  zero : ∀ v ∈ vs, lookup w.machine.frame d v = 0
  made : ∀ v ∈ vs, v / 1024 ∈ T ↔ w.HasTable d (v / 1024)

theorem Copies.tail {T : Finset ℕ} (h : Copies w p d T (v :: vs)) : Copies w p d T vs where
  dir := h.dir
  dir' := h.dir'
  ne := h.ne
  nodup := (List.nodup_cons.1 h.nodup).2
  lt u hu := h.lt u (List.mem_cons_of_mem _ hu)
  table u hu := h.table u (List.mem_cons_of_mem _ hu)
  zero u hu := h.zero u (List.mem_cons_of_mem _ hu)
  made u hu := h.made u (List.mem_cons_of_mem _ hu)

/-- After a page has been copied. -/
theorem Copies.next {T : Finset ℕ} {x : UserPage} (hw : Sound k w) (h : Copies w p d T (v :: vs))
    (hnew : NewPage k w d v x w₁) : Copies w₁ p d (insert (v / 1024) T) vs ∧
      ∀ u ∈ vs, view w₁.machine.frame p u = view w.machine.frame p u := by
  obtain ⟨hnot, -⟩ := List.nodup_cons.1 h.nodup
  have hsame (f : ℕ) (hf : w.owner f ≠ .free) : w₁.owner f = w.owner f :=
    hnew.keeps.owner f (Set.notMem_empty f) hf
  refine ⟨⟨(hsame p (by simp [h.dir])).trans h.dir,
    (hsame d (by simp [h.dir'])).trans h.dir', h.ne, h.tail.nodup, h.tail.lt, fun u hu => ?_,
    fun u hu => ?_, fun u hu => ?_⟩, fun u hu => ?_⟩
  · obtain ⟨t, ht⟩ := h.tail.table u hu
    exact ⟨t, (hsame t (by simp [ht])).trans ht⟩
  · have := h.tail.lt u hu
    rw [← h.tail.zero u hu]
    refine hnew.keeps.lookup d (Set.notMem_empty d) h.dir' u (by omega) fun he => ?_
    cases he
    exact hnot hu
  · rw [hnew.hasTable, Finset.mem_insert, Finset.mem_singleton, ← h.tail.made u hu, or_comm]
    refine or_congr_right ?_
    rw [and_iff_right rfl]
  · refine hnew.keeps.view hw.toTables h.dir (Set.notMem_empty p) (h.tail.lt u hu) (fun he => ?_)
      fun f hf => absurd hf (Set.notMem_empty f)
    exact h.ne (congrArg Prod.fst he)

/-- The frames that the pages take. -/
noncomputable def World.need (w : World) (p d : ℕ) (vs : List ℕ) : ℕ :=
  (present w.machine.frame p vs).length + w.missing d (tablesOf (present w.machine.frame p vs))

/-- A page that is not there is not copied. -/
theorem Copied.skip {T : Finset ℕ} (h : Copies w p d T (v :: vs))
    (hv : Paging.view w.machine.frame p v = none) (hc : Copied k w p d vs w') :
    Copied k w p d (v :: vs) w' := by
  have hpresent : present w.machine.frame p (v :: vs) = present w.machine.frame p vs :=
    List.filter_cons_of_neg (by simp [hv])
  refine ⟨hc.sound, hc.keeps.mono le_rfl (fun x hx => ⟨hx.1, List.mem_cons_of_mem _ hx.2⟩) le_rfl,
    fun u hu => ?_, by rw [hpresent]; exact hc.free⟩
  rcases List.mem_cons.1 hu with rfl | hu
  · have := h.lt u List.mem_cons_self
    rw [hv]
    have hsame := hc.keeps.lookup d (Set.notMem_empty d) h.dir' u (by omega) fun hm =>
      (List.nodup_cons.1 h.nodup).1 hm.2
    exact view_of_zero (hsame.trans (h.zero u List.mem_cons_self))
  · exact hc.view u hu

/-- After a page has been copied, the frames that are left are for the pages that are left. -/
theorem losesFrame_cons {T : Finset ℕ} (hT : v / 1024 ∈ T ↔ w.HasTable d (v / 1024))
    (hfree : n + (1 + w.missing d {v / 1024}) = w.free.length) :
    losesFrame w.free.length T (v :: vs) = losesFrame n (insert (v / 1024) T) vs := by
  rw [losesFrame]
  by_cases hmem : v / 1024 ∈ T
  · rw [missing_singleton_of_has (hT.1 hmem)] at hfree
    rw [if_pos hmem, Finset.insert_eq_of_mem hmem, ← hfree, Nat.add_sub_cancel,
      decide_eq_true (Nat.le_add_left 1 n), Bool.true_and]
  · rw [missing_singleton_of_not (hT.not.1 hmem)] at hfree
    have hone : ¬w.free.length = 1 := by omega
    have htwo : 2 ≤ w.free.length := by omega
    rw [if_neg hmem, decide_eq_false hone, decide_eq_true htwo, Bool.false_or, Bool.true_and,
      ← hfree, Nat.add_sub_cancel]

/-- The loop of `copyuvm`, up to where it gives up. -/
theorem Sound.copyLoop (hw : Sound k w) {T : Finset ℕ} (h : Copies w p d T vs) :
    ∃ b w', (Paging.copyLoop k p d (vs.map (PGSIZE * ·))).run w.machine =
        (if b = true then pure (some d) else do Paging.freevm k d; pure none :
          MemOp _).run w'.machine ∧
      ((b = true ∧ w.need p d vs ≤ w.free.length ∧ Copied k w p d vs w') ∨
        (b = false ∧ w.free.length < w.need p d vs ∧
          Stopped k w d (losesFrame w.free.length T (present w.machine.frame p vs)) w')) := by
  induction vs generalizing w T with
  | nil =>
    refine ⟨true, w, rfl, .inl ⟨rfl, Nat.zero_le _, hw, .rfl, fun v hv => ?_, rfl⟩⟩
    cases hv
  | cons v vs ih =>
    have hv := h.lt v List.mem_cons_self
    obtain ⟨t, ht⟩ := h.table v List.mem_cons_self
    have hPDX := PDX_mul (v := v) (by omega)
    have hPTX := PTX_mul v
    have hwalk : (walkpgdir p (PGSIZE * v) false).run w.machine =
        .ok (some (t, v % 1024), w.machine) := by
      rw [← hPTX]
      exact walkpgdir_table hw (by rw [hPDX]; exact ht)
    have hlook := lookup_of_table hw.toTables ht
    rcases hw.lookup_cases h.dir hv with ⟨hz, -⟩ | ⟨f, fl, hf, hfl, hl⟩
    · -- The page is not there.
      have hpresent : present w.machine.frame p (v :: vs) = present w.machine.frame p vs :=
        List.filter_cons_of_neg (by simp [view_of_zero hz])
      have hneed : w.need p d (v :: vs) = w.need p d vs := by rw [World.need, World.need, hpresent]
      obtain ⟨b, w', hrun, hcases⟩ := ih hw h.tail
      refine ⟨b, w', ?_, ?_⟩
      · rw [List.map_cons, Paging.copyLoop, ← hrun, run_bind_of_ok hwalk, get_bind, ← hlook, hz,
          if_pos (by decide)]
      · rw [hneed, hpresent]
        exact hcases.imp_left fun hc => ⟨hc.1, hc.2.1, hc.2.2.skip h (view_of_zero hz)⟩
    · -- The page is in the frame `f`.
      have hview := view_of_lookup hl hfl
      have hpresent : present w.machine.frame p (v :: vs) = v :: present w.machine.frame p vs :=
        List.filter_cons_of_pos (by rw [hview]; rfl)
      have hnone (m : Machine) (hk : (Paging.kalloc.run w.machine : Except _ _) = .ok (none, m)) :
          (Paging.copyLoop k p d (PGSIZE * v :: vs.map (PGSIZE * ·))).run w.machine =
            (do Paging.freevm k d; pure none : MemOp _).run m := by
        rw [Paging.copyLoop, run_bind_of_ok hwalk, get_bind, ← hlook, hl, if_neg hfl.present,
          run_bind_of_ok hk]
      have hsome (g : ℕ) (m m' : Machine) (b : Bool)
          (hk : (Paging.kalloc.run w.machine : Except _ _) = .ok (some g, m))
          (hrun : (Paging.mappages d (PGSIZE * v) PGSIZE (PGSIZE * g) fl).run
            (m.fill g (m.frame f)) = .ok (b, m')) :
          (Paging.copyLoop k p d (PGSIZE * v :: vs.map (PGSIZE * ·))).run w.machine =
            (if b = true then Paging.copyLoop k p d (vs.map (PGSIZE * ·))
              else do Paging.freevm k d; pure none : MemOp _).run m' := by
        rw [Paging.copyLoop, run_bind_of_ok hwalk, get_bind, ← hlook, hl, if_neg hfl.present,
          PTE_ADDR_div hfl.1, PTE_FLAGS_add hfl.1, run_bind_of_ok hk]
        exact (run_bind_of_ok rfl).trans (run_bind_of_ok hrun)
      rw [List.map_cons, World.need, hpresent]
      rcases hw.newPage h.dir' hv (h.zero v List.mem_cons_self) hfl.1 (w.machine.frame f)
        with ⟨hfree, hk⟩ |
          ⟨g, m, hk, hm, ⟨w₁, hm₁, hfree, hno, hw₁, ho₁, hk₁, hrun⟩ | ⟨w₁, hrun, hnew⟩⟩
      · refine ⟨false, w, hnone _ hk, .inr ⟨rfl, ?_, hw, .rfl, .inl ⟨?_, fun _ => .rfl⟩⟩⟩
        · rw [hfree, List.length_nil, List.length_cons]
          omega
        · rw [hfree, losesFrame]
          split
          · rfl
          · rfl
      · -- There is no frame for the page table. The frame `g` stays taken.
        have hg : w.owner g = .free := (hw.mem_free g).1 (by rw [hfree]; exact List.mem_cons_self)
        obtain ⟨w', hw', hstop⟩ := hw₁.lose (d := d) hg ho₁ hk₁
        have hT : v / 1024 ∉ T := (h.made v List.mem_cons_self).not.2 hno
        refine ⟨false, w', ?_, .inr ⟨rfl, ?_, ?_⟩⟩
        · rw [hw', hm₁]
          exact hsome g m _ false hk (by rw [hm]; exact hrun)
        · have hmiss : 0 < w.missing d (tablesOf (v :: present w.machine.frame p vs)) := by
            refine missing_pos ?_ hno
            rw [tablesOf_cons]
            exact Finset.mem_union_left _ (Finset.mem_singleton_self _)
          rw [hfree, List.length_singleton, List.length_cons]
          omega
        · rw [losesFrame, if_neg hT, hfree]
          exact hstop
      · -- The page has been copied.
        rw [or_PTE_P hfl.2] at hnew
        obtain ⟨hnext, hsame⟩ := h.next hw hnew
        obtain ⟨b, w', hrun', hcases⟩ := ih hnew.sound hnext
        have hrest : present w₁.machine.frame p vs = present w.machine.frame p vs :=
          List.filter_congr fun u hu => by rw [hsame u hu]
        have hneed := missing_union (J := tablesOf (present w.machine.frame p vs)) hnew.hasTable
        have hfree := hnew.free
        rw [World.need, hrest] at hcases
        rw [tablesOf_cons, hneed, List.length_cons,
          losesFrame_cons (h.made v List.mem_cons_self) hfree]
        refine ⟨b, w', ?_, hcases.imp ?_ ?_⟩
        · rw [← hrun']
          exact hsome g m _ true hk (by rw [hm]; exact hrun)
        · rintro ⟨hb, hle, hcopied⟩
          refine ⟨hb, by omega, hnew.copied hview h.dir' hv ?_ hsame hcopied⟩
          exact (List.nodup_cons.1 h.nodup).1
        · rintro ⟨hb, hlt, hstop⟩
          exact ⟨hb, by omega, hnew.stopped hstop⟩

/-! ### `copyuvm` -/

/-- The pages that `copyuvm` goes through. -/
def pagesBelow (sz : ℕ) : List ℕ := List.range ((sz + (PGSIZE - 1)) / PGSIZE)

theorem mem_pagesBelow : v ∈ pagesBelow sz ↔ PGSIZE * v < sz := by
  rw [pagesBelow, List.mem_range]
  simp only [PGSIZE]
  omega

/-- The frames that a copy takes. -/
def copyNeed (frame : ℕ → Page) (p sz : ℕ) : ℕ :=
  kernelFrames + ((present frame p (pagesBelow sz)).length +
    (tablesOf (present frame p (pagesBelow sz))).card)

/-- With `n` frames, the copy stops at its last one. -/
def copyLoses (n : ℕ) (frame : ℕ → Page) (p sz : ℕ) : Bool :=
  kernelFrames ≤ n && losesFrame (n - kernelFrames) ∅ (present frame p (pagesBelow sz))

/-- An address space that has been copied. -/
structure Copy (k : Kernel) (w : World) (p d sz : ℕ) (w' : World) : Prop where
  sound : Sound k w'
  owner : w.owner d = .free
  dir : ∀ f, w'.owner f = .dir ↔ w.owner f = .dir ∨ f = d
  keeps : Keeps w w' ∅ ∅ {x | x = .dir ∨ x.Within d}
  view : ∀ v < 2 ^ 19, view w'.machine.frame d v =
    if PGSIZE * v < sz then Paging.view w.machine.frame p v else none

/-- A copy that has been given up, with or without the loss of a frame. -/
structure NoCopy (k : Kernel) (w : World) (b : Bool) (w' : World) : Prop where
  sound : Sound k w'
  keeps : Keeps w w' ∅ ∅ {.free, .lost}
  lost : (b = false ∧ ∀ g, w'.owner g = .lost ↔ w.owner g = .lost) ∨
    (b = true ∧ ∃ f, w.owner f = .free ∧ ∀ g, w'.owner g = .lost ↔ w.owner g = .lost ∨ g = f)

/-- What the new address space has for the loop. -/
theorem NewSpace.copies (h : NewSpace k w d w₁) (hp : w.owner p = .dir) (hsz : sz ≤ KERNBASE)
    (htab : ∀ v, PGSIZE * v < sz → w.HasTable p (v / 1024)) :
    Copies w₁ p d ∅ (pagesBelow sz) := by
  have hsame (f : ℕ) (hf : w.owner f ≠ .free) : w₁.owner f = w.owner f :=
    h.keeps.owner f (Set.notMem_empty f) hf
  have hlt (v : ℕ) (hv : v ∈ pagesBelow sz) : v < 2 ^ 19 := by
    have := mem_pagesBelow.1 hv
    simp only [PGSIZE, KERNBASE] at *
    omega
  refine ⟨(hsame p (by simp [hp])).trans hp, (h.dir d).2 (.inr rfl), ?_, List.nodup_range, hlt,
    fun v hv => ?_, fun v hv => h.empty v (hlt v hv), fun v hv => ?_⟩
  · rintro rfl
    rw [h.owner] at hp
    cases hp
  · obtain ⟨t, ht⟩ := htab v (mem_pagesBelow.1 hv)
    exact ⟨t, (hsame t (by simp [ht])).trans ht⟩
  · have := hlt v hv
    exact iff_of_false (Finset.notMem_empty _) (h.table (v / 1024) (by omega))

/-- The new address space has none of the page tables yet. -/
theorem NewSpace.need (h : NewSpace k w d w₁) (hw : Sound k w) (hp : w.owner p = .dir)
    (hsz : sz ≤ KERNBASE) :
    present w₁.machine.frame p (pagesBelow sz) = present w.machine.frame p (pagesBelow sz) ∧
      kernelFrames + w₁.need p d (pagesBelow sz) = copyNeed w.machine.frame p sz := by
  have hlt (v : ℕ) (hv : v ∈ pagesBelow sz) : v < 2 ^ 19 := by
    have := mem_pagesBelow.1 hv
    simp only [PGSIZE, KERNBASE] at *
    omega
  have hpresent : present w₁.machine.frame p (pagesBelow sz) =
      present w.machine.frame p (pagesBelow sz) := by
    refine List.filter_congr fun v hv => ?_
    rw [h.keeps.view hw.toTables hp (Set.notMem_empty p) (hlt v hv) (Set.notMem_empty _)
      fun f hf => absurd hf (Set.notMem_empty f)]
  refine ⟨hpresent, ?_⟩
  rw [World.need, hpresent, copyNeed, World.missing, Finset.filter_true_of_mem fun i hi => ?_]
  rw [tablesOf, List.mem_toFinset, List.mem_map] at hi
  obtain ⟨v, hv, rfl⟩ := hi
  have := hlt v (List.mem_filter.1 hv).1
  exact h.table (v / 1024) (by omega)

/-- The loop has gone through all pages. -/
theorem NewSpace.copy (hw : Sound k w) (h : NewSpace k w d w₁) (hp : w.owner p = .dir)
    (hc : Copied k w₁ p d (pagesBelow sz) w') : Copy k w p d sz w' where
  sound := hc.sound
  owner := h.owner
  dir f := by
    rw [← h.dir f]
    refine hc.keeps.owner_iff (by decide) (fun g hg => absurd hg (Set.notMem_empty g)) ?_ f
    rintro (⟨i, hi⟩ | ⟨v, hv⟩)
    · cases hi
    · cases hv
  keeps := by
    have h₁ : Keeps w w₁ ∅ {x | x.1 = d} {x | x = .dir ∨ x.Within d} :=
      h.keeps.mono le_rfl (Set.empty_subset _) fun x hx => hx.imp_right .inl
    have h₂ : Keeps w₁ w' ∅ {x | x.1 = d} {x | x = .dir ∨ x.Within d} :=
      hc.keeps.mono le_rfl (fun x hx => hx.1) fun x hx => .inr hx
    -- What is in the frame `d` before does not matter, for it is free.
    have hall := ((h₁.trans h₂).mono (Set.empty_subset {d}) le_rfl le_rfl).drop fun x hx => hx
    exact hall.of_free fun f hf _ => by rw [Set.mem_singleton_iff.1 hf, h.owner]
  view v hv := by
    by_cases hlt : PGSIZE * v < sz
    · rw [if_pos hlt, hc.view v (mem_pagesBelow.2 hlt)]
      exact h.keeps.view hw.toTables hp (Set.notMem_empty p) hv (Set.notMem_empty _)
        fun f hf => absurd hf (Set.notMem_empty f)
    · rw [if_neg hlt]
      refine view_of_zero ((hc.keeps.lookup d (Set.notMem_empty d) ((h.dir d).2 (.inr rfl)) v
        (by omega) fun hm => hlt (mem_pagesBelow.1 hm.2)).trans (h.empty v hv))

/-- The loop has stopped, and the new address space is given back. -/
theorem NewSpace.noCopy {b : Bool} (hw : Sound k w) (h : NewSpace k w d w₁)
    (hs : Stopped k w₁ d b w₂) :
    ∃ w', (Paging.freevm k d).run w₂.machine = .ok (⟨⟩, w'.machine) ∧ NoCopy k w b w' := by
  obtain ⟨w', hrun, hw', hk', hfree, hlost⟩ :=
    hs.sound.abort ((h.dir d).2 (.inr rfl)) hs.keeps (fun x hx => hx) fun x hx => hx
  have hnodir : w.owner d ≠ .dir := by
    rw [h.owner]
    simp
  have hspace (f : ℕ) (hf : f ∈ w₁.space d) : w.owner f = .free := by
    by_contra hne
    have hsame := h.keeps.owner f (Set.notMem_empty f) hne
    rcases hf with rfl | ⟨i, hi⟩ | ⟨v, hv⟩
    · exact hne h.owner
    · exact hnodir (hw.table f d i (hsame.symm.trans hi)).1
    · obtain ⟨-, t, fl, ht, -⟩ := hw.page f d v (hsame.symm.trans hv)
      exact hnodir (hw.table t d _ ht).1
  have hnew (f : ℕ) (hf : w₁.owner f ≠ w.owner f) : f ∈ w₁.space d := by
    rcases h.keeps.fresh f hf with hdir | ⟨i, hi⟩
    · rcases (h.dir f).1 hdir with ho | rfl
      · exact absurd (hdir.trans ho.symm) hf
      · exact .inl rfl
    · exact .inr (.inl ⟨i, hi⟩)
  have hlost₁ (g : ℕ) : w₁.owner g = .lost ↔ w.owner g = .lost := by
    refine h.keeps.owner_iff (by decide) (fun f hf => absurd hf (Set.notMem_empty f)) ?_ g
    rintro (hd | ⟨i, hi⟩)
    · cases hd
    · cases hi
  refine ⟨w', hrun, hw', ?_, ?_⟩
  · have hall : Keeps w w' (w₁.space d) ∅ .univ :=
      (h.keeps.mono (Set.empty_subset _) le_rfl (Set.subset_univ _)).trans
        (hk'.mono le_rfl le_rfl (Set.subset_univ _))
    refine (hall.of_free fun f hf _ => hspace f hf).narrow fun f hf => ?_
    by_cases hf' : f ∈ w₁.space d
    · exact .inl (hfree f hf')
    · have hsame : w₁.owner f = w.owner f := by
        by_contra hne
        exact hf' (hnew f hne)
      exact hk'.fresh f (by rwa [hsame])
  · refine hs.lost.imp (fun hl => ⟨hl.1, fun g => (hlost g).trans ((hl.2 g).trans (hlost₁ g))⟩) ?_
    rintro ⟨hb, f, hf, hl⟩
    refine ⟨hb, f, ?_, fun g => (hlost g).trans ((hl g).trans (or_congr_left (hlost₁ g)))⟩
    by_contra hne
    exact hne ((h.keeps.owner f (Set.notMem_empty f) hne).symm.trans hf)

/-- `copyuvm` of an address space that has page tables for all pages. -/
theorem Sound.copyuvm (hw : Sound k w) (hp : w.owner p = .dir) (hsz : sz ≤ KERNBASE)
    (htab : ∀ v, PGSIZE * v < sz → w.HasTable p (v / 1024)) :
    ∃ r w', (copyuvm k p sz).run w.machine = .ok (r, w'.machine) ∧
      ((copyNeed w.machine.frame p sz ≤ w.free.length ∧ ∃ d, r = some d ∧ Copy k w p d sz w') ∨
        (w.free.length < copyNeed w.machine.frame p sz ∧ r = none ∧
          NoCopy k w (copyLoses w.free.length w.machine.frame p sz) w')) := by
  obtain ⟨r, w₁, hrun, ⟨hle, d, rfl, hnew⟩ | ⟨hlt, rfl, hw₁, hk⟩⟩ := hw.setupkvm
  · obtain ⟨hpresent, hneed⟩ := hnew.need hw hp hsz
    have hfree := hnew.free
    have hloses : copyLoses w.free.length w.machine.frame p sz =
        losesFrame w₁.free.length ∅ (present w₁.machine.frame p (pagesBelow sz)) := by
      rw [copyLoses, decide_eq_true hle, Bool.true_and, hpresent, ← hfree, Nat.add_sub_cancel]
    obtain ⟨b, w₂, hloop, ⟨rfl, hn, hc⟩ | ⟨rfl, hn, hs⟩⟩ :=
      hnew.sound.copyLoop (hnew.copies hp hsz htab)
    · refine ⟨some d, w₂, ?_, .inl ⟨by omega, d, rfl, hnew.copy hw hp hc⟩⟩
      exact (run_bind_of_ok hrun).trans hloop
    · obtain ⟨w', hfreevm, hno⟩ := hnew.noCopy hw hs
      refine ⟨none, w', ?_, .inr ⟨by omega, rfl, hloses ▸ hno⟩⟩
      refine (run_bind_of_ok hrun).trans (hloop.trans ?_)
      exact bind_eq_ok.2 ⟨⟨⟩, w'.machine, hfreevm, rfl⟩
  · refine ⟨none, w₁, (run_bind_of_ok hrun).trans rfl, .inr ⟨?_, rfl, hw₁,
      hk.mono le_rfl le_rfl (Set.empty_subset _), .inl ⟨?_, fun g => ?_⟩⟩⟩
    · exact hlt.trans_le (Nat.le_add_right ..)
    · rw [copyLoses, decide_eq_false (not_le.2 hlt), Bool.false_and]
    · exact hk.owner_iff (by decide) (fun f hf => absurd hf (Set.notMem_empty f))
        (Set.notMem_empty _) g

end Paging
