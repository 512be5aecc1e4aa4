import CourseProjects.Paging.Setup

/-!
# Address spaces grow

* `Sound.newPage`: a free frame is filled and mapped.
* `Sound.allocuvm`: the pages of a range are mapped when there are frames for them and for the page
  tables that are missing, and otherwise none is.
-/

namespace Paging

open Function Tx Words Xv6

variable {k : Kernel} {w w' w₁ : World} {f g p q i j t u v n fl perm oldsz newsz : ℕ} {page : Page}

/-! ### A page -/

/-- A page that has been mapped, in a frame that was free. -/
structure NewPage (k : Kernel) (w : World) (p v : ℕ) (x : UserPage) (w' : World) : Prop where
  sound : Sound k w'
  keeps : Keeps w w' ∅ {(p, v)} {x | x.Within p}
  view : view w'.machine.frame p v = some x
  free : w'.free.length + (1 + w.missing p {v / 1024}) = w.free.length
  hasTable : ∀ q j, w'.HasTable q j ↔
    w.HasTable q j ∨ (q = p ∧ j ∈ ({v / 1024} : Finset ℕ))

/-- A frame is taken and filled, and a page is made of it if there is a frame for its page table. -/
theorem Sound.newPage (hw : Sound k w) (hp : w.owner p = .dir) (hv : v < 2 ^ 19)
    (hlook : lookup w.machine.frame p v = 0) (hperm : perm < PGSIZE) (page : Page) :
    (w.free = [] ∧ (Paging.kalloc.run w.machine : Except _ _) = .ok (none, w.machine)) ∨
    ∃ f m, Paging.kalloc.run w.machine = .ok (some f, m) ∧ m.frame = w.machine.frame ∧
      ((∃ w', w'.machine = m.fill f page ∧ w.free = [f] ∧ ¬w.HasTable p (v / 1024) ∧ Sound k w' ∧
          w'.owner = update w.owner f .held ∧ Keeps w w' ∅ ∅ {.held} ∧
          (Paging.mappages p (PGSIZE * v) PGSIZE (PGSIZE * f) perm).run (m.fill f page) =
            .ok (false, m.fill f page)) ∨
        ∃ w', (Paging.mappages p (PGSIZE * v) PGSIZE (PGSIZE * f) perm).run (m.fill f page) =
            .ok (true, w'.machine) ∧ NewPage k w p v ⟨page, perm ||| PTE_P⟩ w') := by
  rcases hw.kalloc with h | ⟨f, l, w₁, hfree, hk, hw₁, hfr₁, ho₁, hl₁⟩
  · exact .inl h
  have hffree : w.owner f = .free := (hw.mem_free f).1 (hfree ▸ List.mem_cons_self)
  have hfp : p ≠ f := by
    rintro rfl
    rw [hp] at hffree
    cases hffree
  have hheld : w₁.owner f = .held := by rw [ho₁, update_self]
  generalize hw₂' : ({ w₁ with machine := w₁.machine.fill f page } : World) = w₂
  have hw₂ : Sound k w₂ := hw₂' ▸ hw₁.fill (f := f) (by rw [hheld]; trivial) page
  have hm₂ : w₂.machine = w₁.machine.fill f page := by rw [← hw₂']
  have ho₂ : w₂.owner = update w.owner f .held := by rw [← hw₂', ← ho₁]
  have hl₂ : w₂.free = l := by rw [← hw₂', ← hl₁]
  have hk₂ : Keeps w w₂ {f} ∅ {.held} := by
    refine .of_plain hw.toTables (by rw [hffree]; trivial) rfl ?_ (fun g hg => ?_) fun g hg => ?_
    · rw [ho₂, update_self]
      rfl
    · rw [ho₂, update_of_ne hg]
    · rw [hm₂, ← hfr₁]
      exact update_of_ne hg _ _
  have hfE : ∀ g ∈ ({f} : Set ℕ), g ∉ (∅ : Set ℕ) → w.owner g = .free := by
    rintro g rfl -
    exact hffree
  have hhas (q j : ℕ) : w₂.HasTable q j ↔ w.HasTable q j := by
    rw [World.HasTable, World.HasTable, ho₂]
    refine exists_congr fun g => ?_
    rcases eq_or_ne g f with rfl | hgf
    · rw [update_self, hffree]
      exact iff_of_false (by simp) (by simp)
    · rw [update_of_ne hgf]
  have hp₂ : w₂.owner p = .dir := by rw [ho₂, update_of_ne hfp, hp]
  have hlook₂ : lookup w₂.machine.frame p v = 0 := by
    rw [hk₂.lookup p hfp hp v (by omega) (Set.notMem_empty _), hlook]
  refine .inr ⟨f, w₁.machine, hk, hfr₁, ?_⟩
  rcases hw₂.mappages hp₂ hv hlook₂ (f := f) (by rw [ho₂, update_self]) hperm
    with ⟨hnil, hno, hrun⟩ | ⟨w', hrun, hmap⟩
  · refine .inl ⟨w₂, hm₂, ?_, fun h => hno ((hhas _ _).2 h), hw₂, ho₂, hk₂.of_free hfE, ?_⟩
    · rw [hfree, ← hl₂, hnil]
    · rw [← hm₂, hrun]
  · have hall : Keeps w w' {f} {(p, v)} .univ := (hk₂.mono le_rfl (Set.empty_subset _)
      (Set.subset_univ _)).trans (hmap.keeps.mono le_rfl le_rfl (Set.subset_univ _))
    refine .inr ⟨w', by rw [← hm₂, hrun], hmap.sound, (hall.of_free hfE).narrow fun g hg => ?_, ?_,
      ?_, fun q j => ?_⟩
    · rcases eq_or_ne g f with rfl | hgf
      · exact .inr ⟨v, hmap.owner⟩
      · have h := hmap.keeps.fresh g (by rwa [ho₂, update_of_ne hgf])
        rcases h with h | h
        · exact .inl ⟨_, h⟩
        · exact .inr ⟨_, h⟩
    · rw [view_of_lookup hmap.lookup (perm_or_lt hperm), hmap.frame, hm₂]
      exact congrArg (fun x => some (⟨x, _⟩ : UserPage)) (update_self ..)
    · have := hmap.free
      rw [missing_congr fun j _ => hhas p j] at this
      rw [hfree, ← hl₂, List.length_cons]
      omega
    · rw [hmap.hasTable, hhas]

/-! ### `allocuvm` -/

/-- The places of the page tables of these pages. -/
def tablesOf (vs : List ℕ) : Finset ℕ := (vs.map (· / 1024)).toFinset

theorem tablesOf_cons (v : ℕ) (vs : List ℕ) : tablesOf (v :: vs) = {v / 1024} ∪ tablesOf vs := by
  rw [tablesOf, List.map_cons, List.toFinset_cons, Finset.insert_eq]
  rfl

/-- Zeros, that the program may write over. -/
def zeroPage : UserPage := ⟨0, PTE_W ||| PTE_U ||| PTE_P⟩

/-- The pages have been mapped. -/
structure Grown (k : Kernel) (w : World) (p : ℕ) (vs : List ℕ) (w' : World) : Prop where
  sound : Sound k w'
  keeps : Keeps w w' ∅ {x | x.1 = p ∧ x.2 ∈ vs} {x | x.Within p}
  view : ∀ v ∈ vs, view w'.machine.frame p v = some zeroPage
  free : w'.free.length + (vs.length + w.missing p (tablesOf vs)) = w.free.length

/-- The pages of the range have been given back. -/
structure Undone (k : Kernel) (w : World) (p oldsz newsz : ℕ) (w' : World) : Prop where
  sound : Sound k w'
  keeps : Keeps w w' {f | ∃ u, Vm.InRange oldsz newsz (PGSIZE * u) ∧ w.owner f = .page p u}
    {x | x.1 = p ∧ Vm.InRange oldsz newsz (PGSIZE * x.2)} {x | x = .free ∨ x.Within p}
  gone : ∀ u, Vm.InRange oldsz newsz (PGSIZE * u) → lookup w'.machine.frame p u = 0

/-- A page has been mapped, and then the others. -/
theorem NewPage.grown {vs : List ℕ} (h : NewPage k w p v zeroPage w₁) (hp : w.owner p = .dir)
    (hv : v < 2 ^ 19) (hnot : v ∉ vs) (h' : Grown k w₁ p vs w') : Grown k w p (v :: vs) w' := by
  have hp₁ : w₁.owner p = .dir := by
    rw [← hp]
    exact h.keeps.owner p (Set.notMem_empty p) (by simp [hp])
  refine ⟨h'.sound, (h.keeps.mono le_rfl ?_ le_rfl).trans (h'.keeps.mono le_rfl ?_ le_rfl),
    fun u hu => ?_, ?_⟩
  · rintro x rfl
    exact ⟨rfl, List.mem_cons_self⟩
  · exact fun x hx => ⟨hx.1, List.mem_cons_of_mem _ hx.2⟩
  · rcases List.mem_cons.1 hu with rfl | hu
    · rw [← h.view]
      exact h'.keeps.view h.sound.toTables hp₁ (Set.notMem_empty p) hv (fun hm => hnot hm.2)
        fun f hf => absurd hf (Set.notMem_empty f)
    · exact h'.view u hu
  · have h₁ := h.free
    have h₂ := h'.free
    rw [tablesOf_cons, missing_union h.hasTable, List.length_cons]
    omega

/-- A page has been mapped, and then given back with the others. -/
theorem NewPage.undone {x : UserPage} (h : NewPage k w p v x w₁)
    (hv : Vm.InRange oldsz newsz (PGSIZE * v)) (h' : Undone k w₁ p oldsz newsz w') :
    Undone k w p oldsz newsz w' := by
  set E : Set ℕ := {f | ∃ u, Vm.InRange oldsz newsz (PGSIZE * u) ∧ w₁.owner f = .page p u}
  have hall : Keeps w w' E {x | x.1 = p ∧ Vm.InRange oldsz newsz (PGSIZE * x.2)}
      {x | x = .free ∨ x.Within p} := by
    refine (h.keeps.mono (Set.empty_subset _) ?_ fun x hx => .inr hx).trans h'.keeps
    rintro y rfl
    exact ⟨rfl, hv⟩
  refine ⟨h'.sound, hall.of_free fun f hf hno => ?_, h'.gone⟩
  by_contra hne
  obtain ⟨u, hu, hf⟩ := hf
  exact hno ⟨u, hu, (h.keeps.owner f (Set.notMem_empty f) hne).symm.trans hf⟩

/-- The pages of the range are given back when there are no more frames. -/
theorem Sound.undo (hw : Sound k w) (hp : w.owner p = .dir) (hn : newsz ≤ KERNBASE)
    (oldsz : ℕ) :
    ∃ r w', (Paging.deallocuvm k p newsz oldsz).run w.machine = .ok (r, w'.machine) ∧
      Undone k w p oldsz newsz w' ∧ ∀ f, w.owner f = .held → w'.owner f = .held := by
  obtain ⟨w', hrun, hw', hk', hgone⟩ := hw.deallocuvm hp hn oldsz
  refine ⟨_, w', hrun, ⟨hw', hk'.mono le_rfl le_rfl fun x hx => .inl hx, hgone⟩, fun f hf => ?_⟩
  rw [← hf]
  refine hk'.owner f ?_ (by simp [hf])
  rintro ⟨u, -, hu⟩
  rw [hf] at hu
  cases hu

/-- The frame that could not be mapped is given back as well. -/
theorem Undone.kfree (hp : w.owner p = .dir) (hf : w.owner f = .free)
    (ho : w₁.owner = update w.owner f .held) (hk : Keeps w w₁ ∅ ∅ {.held}) {w₂ : World}
    (h : Undone k w₁ p oldsz newsz w₂) (hheld : w₂.owner f = .held) (hn : newsz ≤ KERNBASE) :
    ∃ w', (Paging.kfree k f).run w₂.machine = .ok (⟨⟩, w'.machine) ∧
      Undone k w p oldsz newsz w' := by
  have hpf : p ≠ f := by
    rintro rfl
    rw [hp] at hf
    cases hf
  have hp₁ : w₁.owner p = .dir := by rw [ho, update_of_ne hpf, hp]
  obtain ⟨w', hrun, hw', ho', -, hfr'⟩ := h.sound.kfree hheld
  have hk' : Keeps w₂ w' {f} ∅ .univ :=
    .of_plain h.sound.toTables (by rw [hheld]; trivial) rfl trivial
      (fun g hg => by rw [ho', update_of_ne hg]) hfr'
  set E : Set ℕ := {f | ∃ u, Vm.InRange oldsz newsz (PGSIZE * u) ∧ w.owner f = .page p u}
  have hE : {f | ∃ u, Vm.InRange oldsz newsz (PGSIZE * u) ∧ w₁.owner f = .page p u} ⊆ E := by
    rintro g ⟨u, hu, hg⟩
    refine ⟨u, hu, ?_⟩
    rw [ho] at hg
    rcases eq_or_ne g f with rfl | hgf
    · rw [update_self] at hg
      cases hg
    · rwa [update_of_ne hgf] at hg
  have hall : Keeps w w' (E ∪ {f}) {x | x.1 = p ∧ Vm.InRange oldsz newsz (PGSIZE * x.2)} .univ :=
    ((hk.mono (Set.empty_subset _) (Set.empty_subset _) (Set.subset_univ _)).trans
      (h.keeps.mono (hE.trans Set.subset_union_left) le_rfl (Set.subset_univ _))).trans
      (hk'.mono Set.subset_union_right (Set.empty_subset _) le_rfl)
  refine ⟨w', hrun, hw', (hall.of_free fun g hg hno => ?_).narrow fun g hg => ?_, fun u hu => ?_⟩
  · rw [hg.resolve_left hno, hf]
  · rcases eq_or_ne g f with rfl | hgf
    · rw [ho', update_self]
      exact .inl rfl
    · rw [ho', update_of_ne hgf] at hg ⊢
      exact h.keeps.fresh g (by rwa [ho, update_of_ne hgf])
  · rw [← h.gone u hu]
    have hp₂ : w₂.owner p = .dir := by
      rw [← hp₁]
      refine h.keeps.owner p ?_ (by simp [hp₁])
      rintro ⟨u, -, he⟩
      rw [hp₁] at he
      cases he
    have hlt := hu.2.2
    refine hk'.lookup p hpf hp₂ u ?_ (Set.notMem_empty _)
    simp only [PGSIZE, KERNBASE] at hlt hn
    omega

/-- The loop of `allocuvm`. -/
theorem Sound.allocLoop (hw : Sound k w) (hp : w.owner p = .dir) (hn : newsz ≤ KERNBASE)
    {vs : List ℕ} (hnodup : vs.Nodup) (hrange : ∀ v ∈ vs, Vm.InRange oldsz newsz (PGSIZE * v))
    (hzero : ∀ v ∈ vs, lookup w.machine.frame p v = 0) :
    ∃ r w', (allocLoop k p oldsz newsz (vs.map (PGSIZE * ·))).run w.machine =
        .ok (r, w'.machine) ∧
      ((vs.length + w.missing p (tablesOf vs) ≤ w.free.length ∧ r = newsz ∧ Grown k w p vs w') ∨
        (w.free.length < vs.length + w.missing p (tablesOf vs) ∧ r = 0 ∧
          Undone k w p oldsz newsz w')) := by
  induction vs generalizing w with
  | nil =>
    refine ⟨newsz, w, rfl, .inl ⟨Nat.zero_le _, rfl, hw, .rfl, fun v hv => ?_, rfl⟩⟩
    cases hv
  | cons v vs ih =>
    obtain ⟨hnot, hnodup⟩ := List.nodup_cons.1 hnodup
    have hv := hrange v List.mem_cons_self
    have hv' : v < 2 ^ 19 := by
      have := hv.2.2
      simp only [PGSIZE, KERNBASE] at this hn
      omega
    rw [List.map_cons, Paging.allocLoop]
    rcases hw.newPage hp hv' (hzero v List.mem_cons_self)
      (show PTE_W ||| PTE_U < PGSIZE by decide) 0
      with ⟨hfree, hk⟩ |
        ⟨f, m, hk, -, ⟨w₁, hm₁, hfree, hno, hw₁, ho₁, hk₁, hrun⟩ | ⟨w₁, hrun, hnew⟩⟩
    · obtain ⟨r, w', hundo, hund, -⟩ := hw.undo hp hn oldsz
      refine ⟨0, w', bind_eq_ok.2 ⟨_, _, hk, bind_eq_ok.2 ⟨_, _, hundo, rfl⟩⟩, .inr ⟨?_, rfl, hund⟩⟩
      rw [hfree, List.length_nil, List.length_cons]
      omega
    · have hf : w.owner f = .free := (hw.mem_free f).1 (hfree ▸ List.mem_cons_self)
      have hp₁ : w₁.owner p = .dir := by
        rw [← hp]
        exact hk₁.owner p (Set.notMem_empty p) (by simp [hp])
      obtain ⟨r, w₂, hundo, hund, hheld⟩ := hw₁.undo hp₁ hn oldsz
      obtain ⟨w', hkfree, hund'⟩ := hund.kfree hp hf ho₁ hk₁
        (hheld f (by rw [ho₁, update_self])) hn
      refine ⟨0, w', bind_eq_ok.2 ⟨_, _, hk, bind_eq_ok.2 ⟨⟨⟩, _, rfl,
        bind_eq_ok.2 ⟨_, _, hrun, ?_⟩⟩⟩, .inr ⟨?_, rfl, hund'⟩⟩
      · rw [← hm₁]
        exact bind_eq_ok.2 ⟨_, _, hundo, bind_eq_ok.2 ⟨_, _, hkfree, rfl⟩⟩
      · have hpos : 0 < w.missing p (tablesOf (v :: vs)) :=
          missing_pos (by
            rw [tablesOf_cons]
            exact Finset.mem_union_left _ (Finset.mem_singleton_self _)) hno
        rw [hfree, List.length_cons, List.length_cons]
        simp only [List.length_nil]
        omega
    · have hp₁ : w₁.owner p = .dir := by
        rw [← hp]
        exact hnew.keeps.owner p (Set.notMem_empty p) (by simp [hp])
      have hzero₁ (u : ℕ) (hu : u ∈ vs) : lookup w₁.machine.frame p u = 0 := by
        have hlt := (hrange u (List.mem_cons_of_mem _ hu)).2.2
        rw [← hzero u (List.mem_cons_of_mem _ hu)]
        refine hnew.keeps.lookup p (Set.notMem_empty p) hp u ?_ fun he => ?_
        · simp only [PGSIZE, KERNBASE] at hlt hn
          omega
        · cases he
          exact hnot hu
      have hcount := missing_union (J := tablesOf vs) hnew.hasTable
      have hfree := hnew.free
      obtain ⟨r, w', hrun', h⟩ := ih hnew.sound hp₁ hnodup
        (fun u hu => hrange u (List.mem_cons_of_mem _ hu)) hzero₁
      refine ⟨r, w', bind_eq_ok.2 ⟨_, _, hk, bind_eq_ok.2 ⟨⟨⟩, _, rfl,
        bind_eq_ok.2 ⟨_, _, hrun, ?_⟩⟩⟩, ?_⟩
      · exact hrun'
      rw [tablesOf_cons, hcount, List.length_cons]
      rcases h with ⟨hle, rfl, hgrown⟩ | ⟨hlt, rfl, hund⟩
      · exact .inl ⟨by omega, rfl, hnew.grown hp hv' hnot hgrown⟩
      · exact .inr ⟨by omega, rfl, hnew.undone hv hund⟩

/-- The pages that `allocuvm` goes through. -/
def rangePages (oldsz newsz : ℕ) : List ℕ :=
  (List.range ((newsz - PGROUNDUP oldsz + (PGSIZE - 1)) / PGSIZE)).map
    (PGROUNDUP oldsz / PGSIZE + ·)

theorem map_rangePages : (rangePages oldsz newsz).map (PGSIZE * ·) = Vm.pageRange oldsz newsz := by
  rw [rangePages, Vm.pageRange, List.map_map]
  refine List.map_congr_left fun i _ => ?_
  change PGSIZE * (PGROUNDUP oldsz / PGSIZE + i) = _
  rw [Nat.mul_add, Nat.mul_div_cancel' (Vm.dvd_pgroundup oldsz)]

theorem mem_rangePages (h : oldsz + PGSIZE ≤ 2 ^ 32) :
    v ∈ rangePages oldsz newsz ↔ Vm.InRange oldsz newsz (PGSIZE * v) := by
  rw [← Vm.mem_pageRange h, ← map_rangePages, List.mem_map]
  constructor
  · exact fun hv => ⟨v, hv, rfl⟩
  · rintro ⟨u, hu, he⟩
    rwa [Nat.eq_of_mul_eq_mul_left (by decide) he] at hu

theorem rangePages_nodup : (rangePages oldsz newsz).Nodup :=
  List.nodup_range.map fun _ _ h => Nat.add_left_cancel h

/-- What is left when the pages of a range are given back that had none before. -/
theorem Undone.keeps_all (hw : Sound k w)
    (hzero : ∀ u, Vm.InRange oldsz newsz (PGSIZE * u) → lookup w.machine.frame p u = 0)
    (h : Undone k w p oldsz newsz w') : Keeps w w' ∅ ∅ {x | x = .free ∨ x.Within p} := by
  have hE : {f | ∃ u, Vm.InRange oldsz newsz (PGSIZE * u) ∧ w.owner f = .page p u} = ∅ := by
    refine Set.eq_empty_of_forall_notMem ?_
    rintro f ⟨u, hu, hf⟩
    obtain ⟨fl, hfl, hl⟩ := hw.lookup_page hf
    rw [hzero u hu] at hl
    have := hfl.2
    omega
  have hk := h.keeps
  rw [hE] at hk
  refine ⟨hk.owner, hk.fresh, hk.frame, fun q hq hd v hv _ => ?_⟩
  by_cases hr : (q, v) ∈ {x : ℕ × ℕ | x.1 = p ∧ Vm.InRange oldsz newsz (PGSIZE * x.2)}
  · obtain ⟨rfl, hu⟩ := hr
    rw [h.gone v hu, hzero v hu]
  · exact hk.lookup q hq hd v hv hr

/-- `allocuvm` where there are no pages yet: all pages of the range, or none. -/
theorem Sound.allocuvm (hw : Sound k w) (hp : w.owner p = .dir) (hle : oldsz ≤ newsz)
    (hn : newsz < KERNBASE)
    (hzero : ∀ u, Vm.InRange oldsz newsz (PGSIZE * u) → lookup w.machine.frame p u = 0) :
    ∃ r w', (allocuvm k p oldsz newsz).run w.machine = .ok (r, w'.machine) ∧
      (((rangePages oldsz newsz).length + w.missing p (tablesOf (rangePages oldsz newsz)) ≤
          w.free.length ∧ r = newsz ∧ Grown k w p (rangePages oldsz newsz) w') ∨
        (w.free.length <
            (rangePages oldsz newsz).length + w.missing p (tablesOf (rangePages oldsz newsz)) ∧
          r = 0 ∧ Sound k w' ∧ Keeps w w' ∅ ∅ {x | x = .free ∨ x.Within p})) := by
  have ho : oldsz + PGSIZE ≤ 2 ^ 32 := by
    simp only [PGSIZE, KERNBASE] at *
    omega
  obtain ⟨r, w', hrun, h⟩ := hw.allocLoop hp hn.le rangePages_nodup
    (fun v hv => (mem_rangePages ho).1 hv) fun v hv => hzero v ((mem_rangePages ho).1 hv)
  refine ⟨r, w', ?_, ?_⟩
  · rw [Paging.allocuvm, if_neg (not_le.2 hn), if_neg (not_lt.2 hle), ← map_rangePages]
    exact hrun
  · refine h.imp_right ?_
    rintro ⟨hlt, hr, hund⟩
    exact ⟨hlt, hr, hund.sound, hund.keeps_all hw hzero⟩

end Paging
