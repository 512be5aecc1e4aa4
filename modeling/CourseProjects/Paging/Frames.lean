import CourseProjects.Paging.Tables

/-!
# Frames, and what the tables map

The memory with the owners of its frames and the list of the free ones is a `World`. What an
address space consists of is found in it as the hardware does (`lookup`, `view`).

* `Sound.kalloc`, `Sound.kfree`: a frame is taken from the free ones, and given back.
* `Sound.walk`: `walkpgdir` finds the page table of an address, or makes it of a free frame.
* `Keeps.view`: what a function leaves alone.
-/

namespace Paging

open Function Tx Words Xv6

/-- A frame that `kfree` takes. -/
def Kernel.Usable (k : Kernel) (f : ℕ) : Prop := k.end_ ≤ P2V (PGSIZE * f) ∧ PGSIZE * f < PHYSTOP

/-- The free frames are linked, from a pointer on. -/
def Chain (frame : ℕ → Page) : ℕ → List ℕ → Prop
  | a, [] => a = 0
  | a, f :: l => a = P2V (PGSIZE * f) ∧ Chain frame (word (frame f) 0) l

/-- The memory, with the owners of the frames and the free ones. -/
structure World where
  machine : Machine
  owner : ℕ → Owner
  free : List ℕ

/-- The owners are as the memory says. -/
structure Sound (k : Kernel) (w : World) : Prop extends Tables w.machine.frame w.owner where
  usable : ∀ f, w.owner f ≠ .kernel → k.Usable f
  chain : Chain w.machine.frame w.machine.freelist w.free
  nodup : w.free.Nodup
  mem_free : ∀ f, f ∈ w.free ↔ w.owner f = .free

/-! ### What the tables map -/

/-- The page table entry of the page `v`, or zero if it has no page table. -/
def lookup (frame : ℕ → Page) (p v : ℕ) : ℕ :=
  if word (frame p) (v / 1024) &&& PTE_P = 0 then 0
  else word (frame (PTE_ADDR (word (frame p) (v / 1024)) / PGSIZE)) (v % 1024)

/-- The contents of a page, and its flags. -/
structure UserPage where
  page : Page
  flags : ℕ

/-- The page `v` of an address space. -/
def view (frame : ℕ → Page) (p v : ℕ) : Option UserPage :=
  if lookup frame p v &&& PTE_P = 0 then none
  else some ⟨frame (PTE_ADDR (lookup frame p v) / PGSIZE), PTE_FLAGS (lookup frame p v)⟩

/-- The directory has a table at the place `i`. -/
def World.HasTable (w : World) (p i : ℕ) : Prop := ∃ t, w.owner t = .table p i

variable {k : Kernel} {frame frame' : ℕ → Page} {owner : ℕ → Owner} {w w' w'' : World}
  {f g p q i j t v fl a : ℕ} {l : List ℕ}

theorem and_PTE_P (x : ℕ) : x &&& PTE_P = x % 2 := Nat.and_one_is_mod x

theorem PTE_ADDR_div (hfl : fl < PGSIZE) : PTE_ADDR (PGSIZE * f + fl) / PGSIZE = f := by
  simp only [PTE_ADDR, PGSIZE] at *
  omega

theorem PTE_FLAGS_add (hfl : fl < PGSIZE) : PTE_FLAGS (PGSIZE * f + fl) = fl := by
  simp only [PTE_FLAGS, PGSIZE] at *
  omega

theorem Flags.present (hfl : Flags fl) : PGSIZE * f + fl &&& PTE_P ≠ 0 := by
  have := hfl.2
  rw [and_PTE_P]
  simp only [PGSIZE]
  omega

theorem flags_seven : Flags 7 := ⟨by decide, rfl⟩

theorem lookup_of_table (h : Tables frame owner) (ht : owner t = .table p (v / 1024)) :
    lookup frame p v = word (frame t) (v % 1024) := by
  rw [lookup, (h.table t p _ ht).2.2, if_neg flags_seven.present, PTE_ADDR_div flags_seven.1]

theorem lookup_of_zero (h : word (frame p) (v / 1024) = 0) : lookup frame p v = 0 := by
  rw [lookup, h]
  rfl

/-- The page `v` has no page table, or one that says where it is. -/
theorem Tables.table_cases (h : Tables frame owner) (hp : owner p = .dir) (hv : v < 2 ^ 20) :
    (word (frame p) (v / 1024) = 0 ∧ ∀ t, owner t ≠ .table p (v / 1024)) ∨
      ∃ t, owner t = .table p (v / 1024) ∧ lookup frame p v = word (frame t) (v % 1024) := by
  rcases h.dir p hp (v / 1024) (by omega) with hz | ⟨t, ht, -⟩
  · refine .inl ⟨hz, fun t ht => ?_⟩
    have := (h.table t p _ ht).2.2
    omega
  · exact .inr ⟨t, ht, lookup_of_table h ht⟩

/-- A page below the kernel is not there, or in a frame that it owns. -/
theorem Tables.lookup_cases (h : Tables frame owner) (hp : owner p = .dir) (hv : v < 2 ^ 19) :
    (lookup frame p v = 0 ∧ ∀ f, owner f ≠ .page p v) ∨
      ∃ f fl, owner f = .page p v ∧ Flags fl ∧ lookup frame p v = PGSIZE * f + fl := by
  have hnot (hz : lookup frame p v = 0) (f : ℕ) : owner f ≠ .page p v := by
    intro hf
    obtain ⟨-, t, fl, ht, hfl, hw⟩ := h.page f p v hf
    rw [lookup_of_table h ht, hw] at hz
    have := hfl.2
    omega
  rcases h.table_cases (v := v) hp (by omega) with ⟨hz, -⟩ | ⟨t, ht, hlook⟩
  · exact .inl ⟨lookup_of_zero hz, hnot (lookup_of_zero hz)⟩
  · rcases h.user t p _ ht (by omega) (v % 1024) (by omega) with hz | ⟨f, fl, hf, hfl, hw⟩
    · exact .inl ⟨hlook.trans hz, hnot (hlook.trans hz)⟩
    · rw [Nat.div_add_mod] at hf
      exact .inr ⟨f, fl, hf, hfl, hlook.trans hw⟩

theorem Tables.lookup_page (h : Tables frame owner) (hf : owner f = .page p v) :
    ∃ fl, Flags fl ∧ lookup frame p v = PGSIZE * f + fl := by
  obtain ⟨-, t, fl, ht, hfl, hw⟩ := h.page f p v hf
  exact ⟨fl, hfl, (lookup_of_table h ht).trans hw⟩

theorem view_of_lookup (h : lookup frame p v = PGSIZE * f + fl) (hfl : Flags fl) :
    view frame p v = some ⟨frame f, fl⟩ := by
  rw [view, h, if_neg hfl.present, PTE_ADDR_div hfl.1, PTE_FLAGS_add hfl.1]

theorem view_of_zero (h : lookup frame p v = 0) : view frame p v = none := by
  rw [view, h]
  rfl

theorem Tables.view_eq_none_iff (h : Tables frame owner) (hp : owner p = .dir) (hv : v < 2 ^ 19) :
    view frame p v = none ↔ lookup frame p v = 0 := by
  rcases h.lookup_cases hp hv with ⟨hz, -⟩ | ⟨f, fl, -, hfl, hlook⟩
  · exact iff_of_true (view_of_zero hz) hz
  · rw [view_of_lookup hlook hfl, hlook]
    have := hfl.2
    exact iff_of_false (by simp) (by omega)

/-- Only the frames of directories and tables matter. -/
theorem Tables.lookup_congr (h : Tables frame owner) (hp : owner p = .dir) (hv : v < 2 ^ 20)
    (heq : ∀ g, (owner g).Tabular → frame' g = frame g) : lookup frame' p v = lookup frame p v := by
  have hdir : frame' p = frame p := heq p (by rw [hp]; trivial)
  rcases h.table_cases hp hv with ⟨hz, -⟩ | ⟨t, ht, -⟩
  · rw [lookup_of_zero hz, lookup_of_zero (by rwa [hdir])]
  · rw [lookup_of_table h ht, lookup_of_table (h.congr heq) ht, heq t (by rw [ht]; trivial)]

/-! ### What a function leaves alone -/

/-- The contents of the frame are not those of a table. -/
def Owner.Kept : Owner → Prop
  | held | lost | kernel | page _ _ => True
  | _ => False

/-- Nothing changes but the frames of `E`, the free ones, and the entries of `R`. Frames that change
    hands come to owners of `N`. -/
structure Keeps (w w' : World) (E : Set ℕ) (R : Set (ℕ × ℕ)) (N : Set Owner) : Prop where
  owner : ∀ f ∉ E, w.owner f ≠ .free → w'.owner f = w.owner f
  fresh : ∀ f, w'.owner f ≠ w.owner f → w'.owner f ∈ N
  frame : ∀ f ∉ E, (w.owner f).Kept → w'.machine.frame f = w.machine.frame f
  lookup : ∀ p ∉ E, w.owner p = .dir → ∀ v < 2 ^ 20, (p, v) ∉ R →
    lookup w'.machine.frame p v = lookup w.machine.frame p v

variable {E E' : Set ℕ} {R R' : Set (ℕ × ℕ)} {N N' : Set Owner}

theorem Keeps.rfl : Keeps w w E R N := ⟨fun _ _ _ => .refl _, fun _ h => absurd (.refl _) h,
  fun _ _ _ => .refl _, fun _ _ _ _ _ _ => .refl _⟩

theorem Keeps.mono (h : Keeps w w' E R N) (hE : E ⊆ E') (hR : R ⊆ R') (hN : N ⊆ N') :
    Keeps w w' E' R' N' where
  owner f hf := h.owner f fun hm => hf (hE hm)
  fresh f hf := hN (h.fresh f hf)
  frame f hf := h.frame f fun hm => hf (hE hm)
  lookup p hp hd v hv hr := h.lookup p (fun hm => hp (hE hm)) hd v hv fun hm => hr (hR hm)

theorem Keeps.trans (h : Keeps w w' E R N) (h' : Keeps w' w'' E R N) : Keeps w w'' E R N where
  owner f hf hfree := by
    have ho := h.owner f hf hfree
    exact (h'.owner f hf (ho ▸ hfree)).trans ho
  fresh f hf := by
    by_cases he : w''.owner f = w'.owner f
    · rw [he] at hf ⊢
      exact h.fresh f hf
    · exact h'.fresh f he
  frame f hf hk := by
    have ho := h.owner f hf (by rintro he; rw [he] at hk; exact hk)
    exact (h'.frame f hf (ho ▸ hk)).trans (h.frame f hf hk)
  lookup p hp hd v hv hr := by
    have ho := h.owner p hp (by simp [hd])
    exact (h'.lookup p hp (ho.trans hd) v hv hr).trans (h.lookup p hp hd v hv hr)

/-- The entries of an address space that is excepted need not be excepted again. -/
theorem Keeps.drop (h : Keeps w w' E R N) (hR : ∀ x ∈ R, x.1 ∈ E) : Keeps w w' E ∅ N :=
  ⟨h.owner, h.fresh, h.frame, fun p hp hd v hv _ => h.lookup p hp hd v hv fun hm => hp (hR _ hm)⟩

/-- No frame comes to an owner, or leaves it, that the function has nothing to do with. -/
theorem Keeps.owner_iff {x : Owner} (h : Keeps w w' E R N) (hx : x ≠ .free)
    (hE : ∀ f ∈ E, w.owner f ≠ x) (hN : x ∉ N) (f : ℕ) : w'.owner f = x ↔ w.owner f = x := by
  constructor
  · intro hf
    by_contra hne
    have hnew := h.fresh f fun he => hne (he ▸ hf)
    rw [hf] at hnew
    exact hN hnew
  · intro hf
    rw [← hf]
    exact h.owner f (fun hm => hE f hm hf) (by rwa [hf])

/-- The pages that are left alone. -/
theorem Keeps.view (h : Keeps w w' E R N) (hw : Tables w.machine.frame w.owner)
    (hp : w.owner p = .dir) (hpE : p ∉ E) (hv : v < 2 ^ 19) (hr : (p, v) ∉ R)
    (hE : ∀ f ∈ E, w.owner f ≠ .page p v) :
    view w'.machine.frame p v = Paging.view w.machine.frame p v := by
  have hlook := h.lookup p hpE hp v (by omega) hr
  rcases hw.lookup_cases hp hv with ⟨hz, -⟩ | ⟨f, fl, hf, hfl, hl⟩
  · rw [view_of_zero hz, view_of_zero (hlook.trans hz)]
  · rw [view_of_lookup hl hfl, view_of_lookup (hlook.trans hl) hfl,
      h.frame f (fun hm => hE f hm hf) (by rw [hf]; trivial)]

/-! ### `kalloc` and `kfree` -/

theorem V2P_P2V (a : ℕ) : V2P (P2V a) = a := Nat.add_sub_cancel ..

theorem P2V_lt (h : k.Usable f) : P2V (PGSIZE * f) < 2 ^ 32 := by
  have := h.2
  simp only [P2V, KERNBASE, PHYSTOP] at *
  omega

/-- An entry for the frame fits into a word. -/
theorem entry_lt (h : k.Usable f) (hfl : fl < PGSIZE) : PGSIZE * f + fl < 2 ^ 32 := by
  have := h.2
  simp only [PGSIZE, PHYSTOP] at *
  omega

theorem Chain.congr (h : Chain frame a l) (heq : ∀ f ∈ l, frame' f = frame f) :
    Chain frame' a l := by
  induction l generalizing a with
  | nil => exact h
  | cons f l ih =>
    refine ⟨h.1, ?_⟩
    rw [heq f List.mem_cons_self]
    exact ih h.2 fun g hg => heq g (List.mem_cons_of_mem _ hg)

theorem Chain.lt (h : Chain frame a l) (hl : ∀ f ∈ l, k.Usable f) : a < 2 ^ 32 := by
  cases l with
  | nil =>
    rw [show a = 0 from h]
    decide
  | cons f l =>
    rw [h.1]
    exact P2V_lt (hl f List.mem_cons_self)

theorem Sound.usable_free (hw : Sound k w) (hf : f ∈ w.free) : k.Usable f := by
  refine hw.usable f ?_
  rw [(hw.mem_free f).1 hf]
  simp

theorem Sound.of_parts (ht : Tables frame owner) (hu : ∀ f, owner f ≠ .kernel → k.Usable f)
    (hc : Chain frame a l) (hn : l.Nodup) (hm : ∀ f, f ∈ l ↔ owner f = .free) :
    Sound k ⟨⟨frame, a⟩, owner, l⟩ := ⟨ht, hu, hc, hn, hm⟩

/-- A frame changes hands between `kalloc` and its callers. -/
theorem usable_update (hw : Sound k w) (hf : w.owner f ≠ .kernel) {x : Owner} (g : ℕ)
    (hg : update w.owner f x g ≠ .kernel) : k.Usable g := by
  rcases eq_or_ne g f with rfl | hgf
  · exact hw.usable g hf
  · exact hw.usable g (by rwa [update_of_ne hgf] at hg)

/-- A free frame is taken. -/
theorem Sound.kalloc (hw : Sound k w) :
    (w.free = [] ∧ (kalloc.run w.machine : Except _ _) = .ok (none, w.machine)) ∨
      ∃ f l w', w.free = f :: l ∧ kalloc.run w.machine = .ok (some f, w'.machine) ∧ Sound k w' ∧
        w'.machine.frame = w.machine.frame ∧ w'.owner = update w.owner f .held ∧ w'.free = l := by
  have hrun : (Paging.kalloc.run w.machine : Except _ _) =
      if w.machine.freelist = 0 then .ok (none, w.machine)
      else .ok (some (V2P w.machine.freelist / PGSIZE),
        ⟨w.machine.frame, word (w.machine.frame (V2P w.machine.freelist / PGSIZE)) 0⟩) := by
    rw [Paging.kalloc, get_bind]
    split
    · rfl
    · rfl
  have hchain := hw.chain
  have hnodup := hw.nodup
  have hmem := hw.mem_free
  cases hfree : w.free with
  | nil =>
    rw [hfree] at hchain
    exact .inl ⟨rfl, hrun.trans (if_pos hchain)⟩
  | cons f l =>
    rw [hfree] at hchain hnodup hmem
    obtain ⟨hptr, hchain⟩ := hchain
    obtain ⟨hfl, hl⟩ := List.nodup_cons.1 hnodup
    have hf : w.owner f = .free := (hmem f).1 List.mem_cons_self
    have hne : w.machine.freelist ≠ 0 := by
      rw [hptr]
      exact Nat.succ_ne_zero _
    have hr : V2P w.machine.freelist / PGSIZE = f := by
      rw [hptr, V2P_P2V, Nat.mul_div_cancel_left f (by decide)]
    rw [if_neg hne, hr] at hrun
    have htables := hw.toTables.update_plain (f := f) (by rw [hf]; trivial) (x := .held) trivial
    refine .inr ⟨f, l, _, rfl, hrun, .of_parts htables
      (usable_update hw (by simp [hf])) hchain hl fun g => ?_, rfl, rfl, rfl⟩
    rcases eq_or_ne g f with rfl | hgf
    · rw [update_self]
      exact iff_of_false hfl (by simp)
    · rw [update_of_ne hgf, ← hmem g, List.mem_cons, or_iff_right hgf]

theorem kfree_run (h : k.Usable f) (m : Machine) : (kfree k f).run m =
    .ok (⟨⟩, ⟨update m.frame f (setWord (fun _ => 1) 0 m.freelist), P2V (PGSIZE * f)⟩) := by
  have hno : ¬(P2V (PGSIZE * f) < k.end_ ∨ PHYSTOP ≤ PGSIZE * f) :=
    not_or.2 ⟨not_lt.2 h.1, not_le.2 h.2⟩
  exact failIf_bind_eq_ok.2 ⟨hno, rfl⟩

/-- A frame is given back. -/
theorem Sound.kfree (hw : Sound k w) (hf : w.owner f = .held) :
    ∃ w', (kfree k f).run w.machine = .ok (⟨⟩, w'.machine) ∧ Sound k w' ∧
      w'.owner = update w.owner f .free ∧ w'.free = f :: w.free ∧
      ∀ g ≠ f, w'.machine.frame g = w.machine.frame g := by
  have hnk : w.owner f ≠ .kernel := by
    rw [hf]
    simp
  have hnot : f ∉ w.free := by
    rw [hw.mem_free f, hf]
    simp
  have htables := hw.toTables.update_plain (f := f) (by rw [hf]; trivial) (x := .free) trivial
  refine ⟨⟨⟨_, _⟩, update w.owner f .free, f :: w.free⟩, kfree_run (hw.usable f hnk) _, .of_parts
    (htables.congr fun g hg => update_of_ne ?_ _ _) (usable_update hw hnk) ⟨rfl, ?_⟩
    (List.nodup_cons.2 ⟨hnot, hw.nodup⟩) fun g => ?_, rfl, rfl, fun g hg => update_of_ne hg _ _⟩
  · rintro rfl
    rw [update_self] at hg
    exact hg
  · rw [update_self, word_setWord_self,
      Nat.mod_eq_of_lt (hw.chain.lt fun g hg => hw.usable_free hg)]
    refine hw.chain.congr fun g hg => update_of_ne ?_ _ _
    rintro rfl
    exact hnot hg
  · rcases eq_or_ne g f with rfl | hgf
    · rw [update_self]
      exact iff_of_true List.mem_cons_self rfl
    · rw [update_of_ne hgf, ← hw.mem_free g, List.mem_cons, or_iff_right hgf]

/-! ### The page tables that are missing -/

noncomputable instance (w : World) (p : ℕ) : DecidablePred (w.HasTable p) := Classical.decPred _

/-- How many of these places in the directory have no table. -/
noncomputable def World.missing (w : World) (p : ℕ) (I : Finset ℕ) : ℕ :=
  (I.filter fun i => ¬w.HasTable p i).card

variable {I : Finset ℕ}

theorem missing_congr (h : ∀ i ∈ I, w'.HasTable p i ↔ w.HasTable p i) :
    w'.missing p I = w.missing p I :=
  congrArg Finset.card (Finset.filter_congr fun i hi => not_congr (h i hi))

theorem missing_singleton_of_has (hi : w.HasTable p i) : w.missing p {i} = 0 := by
  rw [World.missing, Finset.filter_singleton, if_neg (not_not.2 hi), Finset.card_empty]

theorem missing_singleton_of_not (hi : ¬w.HasTable p i) : w.missing p {i} = 1 := by
  rw [World.missing, Finset.filter_singleton, if_pos hi, Finset.card_singleton]

/-- When the tables at the places `I` have been made, the other missing ones are still to come. -/
theorem missing_union {J : Finset ℕ}
    (h : ∀ q j, w'.HasTable q j ↔ w.HasTable q j ∨ (q = p ∧ j ∈ I)) :
    w.missing p (I ∪ J) = w.missing p I + w'.missing p J := by
  have heq : (I ∪ J).filter (fun j => ¬w.HasTable p j) =
      I.filter (fun j => ¬w.HasTable p j) ∪ J.filter fun j => ¬w'.HasTable p j := by
    ext j
    simp only [Finset.mem_filter, Finset.mem_union, h, true_and]
    by_cases hj : j ∈ I
    · simp [hj]
    · simp [hj]
  have hdisj : Disjoint (I.filter fun j => ¬w.HasTable p j)
      (J.filter fun j => ¬w'.HasTable p j) := by
    refine Finset.disjoint_left.2 fun j hj hj' => ?_
    exact (Finset.mem_filter.1 hj').2 ((h p j).2 (.inr ⟨rfl, (Finset.mem_filter.1 hj).1⟩))
  rw [World.missing, heq, Finset.card_union_of_disjoint hdisj]
  rfl

theorem missing_pos (hi : i ∈ I) (hno : ¬w.HasTable p i) : 0 < w.missing p I :=
  Finset.card_pos.2 ⟨i, Finset.mem_filter.2 ⟨hi, hno⟩⟩

/-! ### `walkpgdir` -/

/-- What happens to a frame that is no part of an address space. -/
theorem Keeps.of_plain (ht : Tables w.machine.frame w.owner) (hf : (w.owner f).Plain) (hE : f ∈ E)
    (hN : w'.owner f ∈ N) (ho : ∀ g ≠ f, w'.owner g = w.owner g)
    (hfr : ∀ g ≠ f, w'.machine.frame g = w.machine.frame g) : Keeps w w' E R N where
  owner g hg _ := ho g fun he => hg (he ▸ hE)
  fresh g hg := by
    rcases eq_or_ne g f with rfl | hgf
    · exact hN
    · exact absurd (ho g hgf) hg
  frame g hg _ := hfr g fun he => hg (he ▸ hE)
  lookup p _ hp v hv _ := ht.lookup_congr hp hv fun g hg => hfr g (by
    rintro rfl
    revert hf hg
    cases w.owner g <;> exact fun h h' => by first | exact h.elim | exact h'.elim)

/-- Frames that were free before need not be excepted. -/
theorem Keeps.of_free (h : Keeps w w' E R N) (hE : ∀ f ∈ E, f ∉ E' → w.owner f = .free) :
    Keeps w w' E' R N where
  owner f hf hne := by
    refine h.owner f (fun hm => hne (hE f hm hf)) hne
  fresh := h.fresh
  frame f hf hk := by
    refine h.frame f (fun hm => ?_) hk
    rw [hE f hm hf] at hk
    exact hk
  lookup p hp hd v hv hr := by
    refine h.lookup p (fun hm => ?_) hd v hv hr
    rw [hE p hm hp] at hd
    cases hd

/-- The owners that frames come to in the end. -/
theorem Keeps.narrow (h : Keeps w w' E R N) (hN : ∀ f, w'.owner f ≠ w.owner f → w'.owner f ∈ N') :
    Keeps w w' E R N' := ⟨h.owner, hN, h.frame, h.lookup⟩

/-- What is done to a frame that no table is in. -/
theorem Sound.fill (hw : Sound k w) (hf : (w.owner f).Kept) (page : Page) :
    Sound k { w with machine := w.machine.fill f page } where
  toTables := hw.toTables.congr fun g hg => update_of_ne (by
    rintro rfl
    revert hf hg
    cases w.owner g <;> exact fun h h' => by first | exact h.elim | exact h'.elim) _ _
  usable := hw.usable
  chain := hw.chain.congr fun g hg => update_of_ne (by
    rintro rfl
    rw [(hw.mem_free g).1 hg] at hf
    exact hf) _ _
  nodup := hw.nodup
  mem_free := hw.mem_free

theorem lookup_setEntry (h : Tables frame owner) (ht : owner t = .table p i) (hj : j < 1024)
    {x : ℕ} (hx : x < 2 ^ 32) (hq : owner q = .dir) (hv : v < 2 ^ 20)
    (h' : Tables (setEntry frame t j x) owner') (hsub : ∀ g a b, owner g = .table a b →
      owner' g = .table a b) :
    lookup (setEntry frame t j x) q v =
      if q = p ∧ v = 1024 * i + j then x else lookup frame q v := by
  have hqt : q ≠ t := by
    rintro rfl
    rw [hq] at ht
    cases ht
  rcases h.table_cases hq hv with ⟨hz, hno⟩ | ⟨g, hg, hlook⟩
  · rw [if_neg, lookup_of_zero hz, lookup_of_zero]
    · rwa [setEntry_of_ne hqt]
    · rintro ⟨rfl, rfl⟩
      refine hno t ?_
      rw [ht]
      congr 1
      omega
  · rw [lookup_of_table h' (hsub _ _ _ hg), word_setEntry hx, hlook]
    refine if_congr ⟨?_, ?_⟩ rfl rfl
    · rintro ⟨rfl, hmod⟩
      cases ht.symm.trans hg
      exact ⟨rfl, by omega⟩
    · rintro ⟨rfl, rfl⟩
      have hdiv : (1024 * i + j) / 1024 = i := by omega
      rw [hdiv] at hg
      exact ⟨h.table_inj hg ht, by omega⟩

/-- A new page table maps nothing. -/
theorem lookup_setTable (h : Tables frame owner) (hi : word (frame p) i = 0)
    (ht : (owner t).Plain) (hzero : frame t = 0) (hlt : PGSIZE * t + 7 < 2 ^ 32)
    (h' : Tables (setEntry frame p i (PGSIZE * t + 7)) (update owner t (.table p i)))
    (hp : owner p = .dir) (hq : owner q = .dir) (hv : v < 2 ^ 20) :
    lookup (setEntry frame p i (PGSIZE * t + 7)) q v = lookup frame q v := by
  have htp : t ≠ p := by
    rintro rfl
    rw [hp] at ht
    exact ht
  rcases h.table_cases hq hv with ⟨hz, hno⟩ | ⟨g, hg, hlook⟩
  · rw [lookup_of_zero hz]
    by_cases he : q = p ∧ v / 1024 = i
    · obtain ⟨rfl, rfl⟩ := he
      rw [lookup_of_table h' (update_self ..), setEntry_of_ne htp, hzero]
      rfl
    · refine lookup_of_zero ?_
      rw [word_setEntry hlt, if_neg he, hz]
  · have hgt : g ≠ t := by
      rintro rfl
      rw [hg] at ht
      exact ht
    have hgp : g ≠ p := by
      rintro rfl
      rw [hp] at hg
      cases hg
    rw [hlook, lookup_of_table h' (by rwa [update_of_ne hgt]), setEntry_of_ne hgp]

/-- `walkpgdir` has come to a page table, which it may have made. -/
structure Walked (k : Kernel) (w : World) (p i t : ℕ) (w' : World) : Prop where
  sound : Sound k w'
  table : w'.owner t = .table p i
  keeps : Keeps w w' ∅ ∅ {.table p i}
  free : w'.free.length + w.missing p {i} = w.free.length
  hasTable : ∀ q j, w'.HasTable q j ↔ w.HasTable q j ∨ (q = p ∧ j ∈ ({i} : Finset ℕ))

theorem walkpgdir_table (hw : Sound k w) {va : ℕ} {alloc : Bool}
    (ht : w.owner t = .table p (PDX va)) :
    (walkpgdir p va alloc).run w.machine = .ok (some (t, PTX va), w.machine) := by
  have hword := (hw.table t p _ ht).2.2
  rw [walkpgdir, get_bind, hword, if_pos flags_seven.present, PTE_ADDR_div flags_seven.1]
  rfl

theorem walkpgdir_none {va : ℕ} (hz : word (w.machine.frame p) (PDX va) = 0) :
    (walkpgdir p va false).run w.machine = .ok (none, w.machine) := by
  rw [walkpgdir, get_bind, hz, if_neg (by decide)]
  rfl

theorem PTE_flags (t : ℕ) : PGSIZE * t ||| PTE_P ||| PTE_W ||| PTE_U = PGSIZE * t + 7 := by
  have h := Nat.two_pow_add_eq_or_of_lt (i := 12) (b := 7) (by decide) t
  rw [Nat.or_assoc, Nat.or_assoc]
  exact h.symm

/-- `walkpgdir` with a free frame at hand. -/
theorem Sound.walk (hw : Sound k w) (hp : w.owner p = .dir) {va : ℕ} :
    (w.free = [] ∧ ¬w.HasTable p (PDX va) ∧
      (walkpgdir p va true).run w.machine = .ok (none, w.machine)) ∨
    ∃ t w', (walkpgdir p va true).run w.machine = .ok (some (t, PTX va), w'.machine) ∧
      Walked k w p (PDX va) t w' := by
  have hi : PDX va < 1024 := Nat.mod_lt _ (by decide)
  by_cases hhas : w.HasTable p (PDX va)
  · obtain ⟨t, ht⟩ := hhas
    have hcount : w.free.length + w.missing p {PDX va} = w.free.length := by
      rw [missing_singleton_of_has ⟨t, ht⟩, Nat.add_zero]
    refine .inr ⟨t, w, walkpgdir_table hw ht, hw, ht, .rfl, hcount, fun q j => ?_⟩
    rw [Finset.mem_singleton]
    refine (or_iff_left_of_imp ?_).symm
    rintro ⟨rfl, rfl⟩
    exact ⟨t, ht⟩
  have hz : word (w.machine.frame p) (PDX va) = 0 := by
    refine (hw.dir p hp _ hi).resolve_right ?_
    rintro ⟨t, ht, -⟩
    exact hhas ⟨t, ht⟩
  rcases hw.kalloc with ⟨hfree, hk⟩ | ⟨t, l, w₁, hfree, hk, hw₁, hfr₁, ho₁, hl₁⟩
  · refine .inl ⟨hfree, hhas, ?_⟩
    rw [walkpgdir, get_bind, hz, if_neg (by decide)]
    exact bind_eq_ok.2 ⟨_, _, hk, rfl⟩
  have htfree : w.owner t = .free := (hw.mem_free t).1 (hfree ▸ List.mem_cons_self)
  have hpt : p ≠ t := by
    rintro rfl
    rw [hp] at htfree
    cases htfree
  have hheld : w₁.owner t = .held := by rw [ho₁, update_self]
  have hp₁ : w₁.owner p = .dir := by rw [ho₁, update_of_ne hpt, hp]
  have hlt := entry_lt (hw.usable_free (f := t) (hfree ▸ List.mem_cons_self)) flags_seven.1
  -- The table is filled with zeros before the directory gets to know of it.
  have hw₂ := hw₁.fill (f := t) (by rw [hheld]; trivial) 0
  have hz₂ : word ((w₁.machine.fill t 0).frame p) (PDX va) = 0 := by
    change word (update w₁.machine.frame t 0 p) _ = 0
    rw [update_of_ne hpt, hfr₁, hz]
  have hplain : (w₁.owner t).Plain := by rw [hheld]; trivial
  -- The entry of the directory makes the filled frame a table.
  have hset := hw₂.toTables.setTable hp₁ hi hz₂ hplain (update_self ..) hlt
  have husable : ∀ f, update w₁.owner t (.table p (PDX va)) f ≠ .kernel → k.Usable f :=
    usable_update hw₁ (by simp [hheld])
  have hmem (f : ℕ) : f ∈ w₁.free ↔ update w₁.owner t (.table p (PDX va)) f = .free := by
    rcases eq_or_ne f t with rfl | hft
    · rw [update_self, hw₁.mem_free, hheld]
      exact iff_of_false (by simp) (by simp)
    · rw [update_of_ne hft, hw₁.mem_free]
  have hchain : Chain (setEntry (w₁.machine.fill t 0).frame p (PDX va) (PGSIZE * t + 7))
      w₁.machine.freelist w₁.free := by
    refine hw₂.chain.congr fun f hf => setEntry_of_ne ?_
    rintro rfl
    rw [show w₁.owner f = .free from (hw₁.mem_free f).1 hf] at hp₁
    cases hp₁
  refine .inr ⟨t, ⟨⟨_, _⟩, update w₁.owner t (.table p (PDX va)), w₁.free⟩, ?_,
    .of_parts hset husable hchain hw₁.nodup hmem, update_self .., ?_, ?_, fun q j => ?_⟩
  · rw [walkpgdir, get_bind, hz, if_neg (by decide), ← PTE_flags]
    exact bind_eq_ok.2 ⟨_, _, hk, rfl⟩
  · have h₁ : Keeps w w₁ {t} ∅ .univ := .of_plain hw.toTables (by rw [htfree]; trivial) rfl
      trivial (fun g hg => by rw [ho₁, update_of_ne hg]) fun g _ => by rw [hfr₁]
    have h₂ : Keeps w₁ { w₁ with machine := w₁.machine.fill t 0 } {t} ∅ .univ :=
      .of_plain hw₁.toTables hplain rfl trivial (fun _ _ => rfl) fun g hg => update_of_ne hg _ _
    refine (((h₁.trans h₂).trans ⟨fun f hf _ => update_of_ne hf _ _, fun _ _ => trivial,
      fun f hf hkept => ?_, fun q hq hd v hv _ => ?_⟩).of_free fun f hf _ => ?_).narrow
      fun f hf => ?_
    · refine setEntry_of_ne ?_
      rintro rfl
      rw [show w₁.owner f = .dir from hp₁] at hkept
      exact hkept
    · exact lookup_setTable hw₂.toTables hz₂ hplain (update_self ..) hlt hset hp₁ hd hv
    · rw [Set.mem_singleton_iff.1 hf, htfree]
    · rcases eq_or_ne f t with rfl | hft
      · exact update_self ..
      · refine absurd ?_ hf
        change update w₁.owner t _ f = _
        rw [update_of_ne hft, ho₁, update_of_ne hft]
  · rw [missing_singleton_of_not hhas, hfree, hl₁, List.length_cons]
  · change (∃ g, update w₁.owner t (.table p (PDX va)) g = _) ↔ _
    rw [Finset.mem_singleton]
    constructor
    · rintro ⟨g, hg⟩
      rcases eq_or_ne g t with rfl | hgt
      · rw [update_self] at hg
        cases hg
        exact .inr ⟨rfl, rfl⟩
      · rw [update_of_ne hgt, ho₁, update_of_ne hgt] at hg
        exact .inl ⟨g, hg⟩
    · rintro (⟨g, hg⟩ | ⟨rfl, rfl⟩)
      · have hgt : g ≠ t := by
          rintro rfl
          rw [htfree] at hg
          cases hg
        exact ⟨g, by rw [update_of_ne hgt, ho₁, update_of_ne hgt, hg]⟩
      · exact ⟨t, update_self ..⟩

end Paging
