import CourseProjects.Lib.Simulation
import CourseProjects.Paging.Copying

/-!
# Address spaces

What the page tables are for: a page directory stands for an address space, which is a map from
page numbers to pages and has nothing in common with the others. The functions of `vm.c` are called
in any order, on address spaces that are there, so that no page is mapped twice and every page of
an address space that is copied has a page table.

* `paging_refines`: no call panics, and the page tables are address spaces after every call.
* `paging_separate`: no frame is used twice.
* `frames_kept_iff`: every frame is used or free, unless a copy has stopped at its last frame.
-/

namespace Paging

open Function Tx Words Xv6

/-! ### Address spaces without frames -/

/-- The address spaces by their names, with the pages that they have. -/
abbrev Spaces := ℕ → Option (ℕ → Option UserPage)

/-- What happens to the address spaces. -/
inductive SpaceEvent
  | new (p : ℕ)
  | map (p oldsz newsz : ℕ)
  | unmap (p oldsz newsz : ℕ)
  | copy (p d sz : ℕ)
  | drop (p : ℕ)

/-- An address space gets a name that none has. -/
def Spaces.add (S : Spaces) (p : ℕ) (pages : ℕ → Option UserPage) : Option Spaces :=
  match S p with
  | none => some (update S p (some pages))
  | some _ => none

def Spaces.step (S : Spaces) : SpaceEvent → Option Spaces
  | .new p => S.add p fun _ => none
  | .map p oldsz newsz => (S p).map fun pages => update S p (some fun v =>
      if Vm.InRange oldsz newsz (PGSIZE * v) then some zeroPage else pages v)
  | .unmap p oldsz newsz => (S p).map fun pages => update S p (some fun v =>
      if Vm.InRange newsz oldsz (PGSIZE * v) then none else pages v)
  | .copy p d sz => (S p).bind fun pages => S.add d fun v =>
      if PGSIZE * v < sz then pages v else none
  | .drop p => (S p).map fun _ => update S p none

/-! ### The calls -/

/-- The memory, the frames that the allocator has been given, and the page directories. -/
structure State where
  machine : Machine
  frames : Finset ℕ
  dirs : Finset ℕ

inductive Event
  | freerange (vstart vend : ℕ)
  | setupkvm
  | allocuvm (pgdir oldsz newsz : ℕ)
  | deallocuvm (pgdir oldsz newsz : ℕ)
  | copyuvm (pgdir sz : ℕ)
  | freevm (pgdir : ℕ)

namespace State

variable {α : Type} (s : State)

/-- The state after a function has returned. There is none after a panic. -/
def call (x : MemOp α) (f : α → State → State) : Option State :=
  match x.run s.machine with
  | .ok (a, m) => some (f a { s with machine := m })
  | .error _ => none

/-- What a function returns. -/
def result (x : MemOp α) : Option α := (x.run s.machine).toOption.map Prod.fst

/-- A page directory, unless there is none. -/
def addDir : Option ℕ → State
  | none => s
  | some p => { s with dirs := insert p s.dirs }

/-- The address spaces of the page directories. -/
def spaces : Spaces := fun p =>
  if p ∈ s.dirs then some fun v => if v < 2 ^ 19 then view s.machine.frame p v else none else none

end State

def step (k : Kernel) (s : State) : Event → Option State
  | .freerange vstart vend => s.call (freerange k vstart vend) fun _ s =>
      { s with frames := s.frames ∪ (freerangeFrames vstart vend).toFinset }
  | .setupkvm => s.call (setupkvm k) fun r s => s.addDir r
  | .allocuvm p oldsz newsz => s.call (allocuvm k p oldsz newsz) fun _ s => s
  | .deallocuvm p oldsz newsz => s.call (deallocuvm k p oldsz newsz) fun _ s => s
  | .copyuvm p sz => s.call (copyuvm k p sz) fun r s => s.addDir r
  | .freevm p => s.call (freevm k p) fun _ s => { s with dirs := s.dirs.erase p }

/-- What the callers see to. The allocator is given frames beside the kernel, and each one once.
    Pages are mapped where there are none, and an address space that is copied has page tables. -/
def Proper (k : Kernel) (s : State) : Event → Prop
  | .freerange vstart vend => ∀ f ∈ freerangeFrames vstart vend, k.Usable f ∧ f ∉ s.frames
  | .setupkvm => True
  | .allocuvm p oldsz newsz => p ∈ s.dirs ∧ oldsz ≤ newsz ∧ (newsz < KERNBASE →
      ∀ v, Vm.InRange oldsz newsz (PGSIZE * v) → view s.machine.frame p v = none)
  | .deallocuvm p oldsz _ => p ∈ s.dirs ∧ oldsz ≤ KERNBASE
  | .copyuvm p sz => p ∈ s.dirs ∧ sz ≤ KERNBASE ∧
      ∀ v, PGSIZE * v < sz → word (s.machine.frame p) (v / 1024) ≠ 0
  | .freevm p => p ∈ s.dirs

/-- What a call does to the address spaces. -/
def label (k : Kernel) (s : State) : Event → List SpaceEvent
  | .freerange _ _ => []
  | .setupkvm => ((s.result (setupkvm k)).join.map .new).toList
  | .allocuvm p oldsz newsz =>
    if s.result (allocuvm k p oldsz newsz) = some newsz then [.map p oldsz newsz] else []
  | .deallocuvm p oldsz newsz => [.unmap p oldsz newsz]
  | .copyuvm p sz => ((s.result (copyuvm k p sz)).join.map fun d => .copy p d sz).toList
  | .freevm p => [.drop p]

variable {k : Kernel} {s s' : State} {w w' : World} {f p q v : ℕ} {E : Set ℕ} {R : Set (ℕ × ℕ)}
  {N : Set Owner} {α : Type} {x : MemOp α} {a : α} {m : Machine}

theorem State.call_of_ok (h : x.run s.machine = .ok (a, m)) (f : α → State → State) :
    s.call x f = some (f a { s with machine := m }) := by
  rw [State.call, h]

theorem State.result_of_ok (h : x.run s.machine = .ok (a, m)) : s.result x = some a := by
  rw [State.result, h]
  rfl

/-! ### The owners of the frames -/

/-- The owners say which frames the allocator has been given, and which are page directories. -/
structure Tracks (k : Kernel) (s : State) (w : World) : Prop where
  machine : w.machine = s.machine
  sound : Sound k w
  kernel : ∀ f, w.owner f = .kernel ↔ f ∉ s.frames
  held : ∀ f, w.owner f ≠ .held
  dirs : ∀ p, w.owner p = .dir ↔ p ∈ s.dirs

/-- A function that has given back the frames that it held. -/
theorem Tracks.next (h : Tracks k s w) (hw : Sound k w') (hk : Keeps w w' E R N) {D : Finset ℕ}
    (hE : ∀ f ∈ E, w.owner f ≠ .kernel) (hN : .kernel ∉ N ∧ .held ∉ N)
    (hD : ∀ p, w'.owner p = .dir ↔ p ∈ D) : Tracks k ⟨w'.machine, s.frames, D⟩ w' where
  machine := rfl
  sound := hw
  kernel f := (hk.owner_iff (by decide) hE hN.1 f).trans (h.kernel f)
  held f hf := by
    have hnew := hk.fresh f fun he => h.held f (he ▸ hf)
    rw [hf] at hnew
    exact hN.2 hnew
  dirs := hD

/-- A function that makes no page directory and frees none. -/
theorem Tracks.dirs_of_keeps (h : Tracks k s w) (hk : Keeps w w' E R N)
    (hE : ∀ f ∈ E, w.owner f ≠ .dir) (hN : .dir ∉ N) (p : ℕ) : w'.owner p = .dir ↔ p ∈ s.dirs :=
  (hk.owner_iff (by decide) hE hN p).trans (h.dirs p)

/-- The pages of an address space that is left alone. -/
theorem Tracks.view_eq (h : Tracks k s w) (hk : Keeps w w' E R N) (hp : p ∈ s.dirs)
    (hv : v < 2 ^ 19) (hpE : p ∉ E) (hR : (p, v) ∉ R) (hE : ∀ f ∈ E, w.owner f ≠ .page p v) :
    view w'.machine.frame p v = view s.machine.frame p v := by
  rw [← h.machine]
  exact hk.view h.sound.toTables ((h.dirs p).2 hp) hpE hv hR hE

/-- Nothing happens to the address spaces. -/
theorem State.spaces_congr (hdirs : s'.dirs = s.dirs) (hview : ∀ p ∈ s.dirs, ∀ v < 2 ^ 19,
    view s'.machine.frame p v = view s.machine.frame p v) : s'.spaces = s.spaces := by
  funext p
  rw [State.spaces, State.spaces, hdirs]
  by_cases hp : p ∈ s.dirs
  · rw [if_pos hp, if_pos hp]
    refine congrArg some (funext fun v => ?_)
    by_cases hv : v < 2 ^ 19
    · rw [if_pos hv, if_pos hv, hview p hp v hv]
    · rw [if_neg hv, if_neg hv]
  · rw [if_neg hp, if_neg hp]

/-- Something happens to the address space `p`, and nothing to the others. -/
theorem State.spaces_update {o : Option (ℕ → Option UserPage)} (hp : s'.spaces p = o)
    (hdirs : ∀ q ≠ p, q ∈ s'.dirs ↔ q ∈ s.dirs) (hview : ∀ q ≠ p, q ∈ s.dirs → ∀ v < 2 ^ 19,
      view s'.machine.frame q v = view s.machine.frame q v) : s'.spaces = update s.spaces p o := by
  funext q
  rcases eq_or_ne q p with rfl | hqp
  · rw [update_self, hp]
  · rw [update_of_ne hqp, State.spaces, State.spaces]
    by_cases hq : q ∈ s.dirs
    · rw [if_pos hq, if_pos ((hdirs q hqp).2 hq)]
      refine congrArg some (funext fun v => ?_)
      by_cases hv : v < 2 ^ 19
      · rw [if_pos hv, if_pos hv, hview q hqp hq v hv]
      · rw [if_neg hv, if_neg hv]
    · rw [if_neg hq, if_neg fun h => hq ((hdirs q hqp).1 h)]

theorem State.spaces_of_mem (hp : p ∈ s.dirs) : s.spaces p =
    some fun v => if v < 2 ^ 19 then view s.machine.frame p v else none := if_pos hp

theorem State.spaces_of_notMem (hp : p ∉ s.dirs) : s.spaces p = none := if_neg hp

/-- The pages of an address space, when those below `KERNBASE` are as it says. -/
theorem State.spaces_eq_some {pages : ℕ → Option UserPage} (hp : p ∈ s.dirs)
    (hlow : ∀ v < 2 ^ 19, view s.machine.frame p v = pages v)
    (hhigh : ∀ v, 2 ^ 19 ≤ v → pages v = none) : s.spaces p = some pages := by
  rw [State.spaces_of_mem hp]
  refine congrArg some (funext fun v => ?_)
  by_cases hv : v < 2 ^ 19
  · rw [if_pos hv, hlow v hv]
  · rw [if_neg hv, hhigh v (not_lt.1 hv)]

/-! ### The allocator is given frames -/

/-- A frame of the kernel comes into its hands. -/
theorem Sound.take (hw : Sound k w) (hf : w.owner f = .kernel) (hu : k.Usable f) :
    Sound k { w with owner := update w.owner f .held } where
  toTables := hw.toTables.update_plain (by rw [hf]; trivial) trivial
  usable g hg := by
    rcases eq_or_ne g f with rfl | hgf
    · exact hu
    · refine hw.usable g fun hk => hg ?_
      change update w.owner f _ g = _
      rw [update_of_ne hgf, hk]
  chain := hw.chain
  nodup := hw.nodup
  mem_free g := by
    change g ∈ w.free ↔ update w.owner f _ g = _
    rcases eq_or_ne g f with rfl | hgf
    · rw [update_self, hw.mem_free, hf]
      exact iff_of_false (by simp) (by simp)
    · rw [update_of_ne hgf, hw.mem_free]

/-- The loop of `freerange`. -/
theorem Sound.freeFrames {l : List ℕ} (hw : Sound k w) (hl : l.Nodup)
    (hkernel : ∀ f ∈ l, w.owner f = .kernel ∧ k.Usable f) :
    ∃ w', (l.forM (Paging.kfree k)).run w.machine = .ok (⟨⟩, w'.machine) ∧ Sound k w' ∧
      (∀ f, w'.owner f = if f ∈ l then .free else w.owner f) ∧
      ∀ f ∉ l, w'.machine.frame f = w.machine.frame f := by
  induction l generalizing w with
  | nil => exact ⟨w, rfl, hw, fun f => (if_neg List.not_mem_nil).symm, fun _ _ => rfl⟩
  | cons f l ih =>
    obtain ⟨hf, hu⟩ := hkernel f List.mem_cons_self
    obtain ⟨hnot, hl⟩ := List.nodup_cons.1 hl
    obtain ⟨w₁, hrun₁, hw₁, ho₁, -, hfr₁⟩ := (hw.take hf hu).kfree (update_self ..)
    have ho₁ (g : ℕ) (hg : g ≠ f) : w₁.owner g = w.owner g := by
      rw [ho₁, update_of_ne hg]
      exact update_of_ne hg _ _
    obtain ⟨w', hrun, hw', ho, hfr⟩ := ih hw₁ hl fun g hg => by
      rw [ho₁ g fun he => hnot (he ▸ hg)]
      exact hkernel g (List.mem_cons_of_mem _ hg)
    refine ⟨w', ?_, hw', fun g => ?_, fun g hg => ?_⟩
    · rw [List.forM_eq_forM, List.forM_cons]
      exact bind_eq_ok.2 ⟨⟨⟩, w₁.machine, hrun₁, hrun⟩
    · rw [ho]
      rcases eq_or_ne g f with rfl | hgf
      · rw [if_neg hnot, if_pos List.mem_cons_self, ‹w₁.owner = _›, update_self]
      · simp only [List.mem_cons, hgf, false_or, ho₁ g hgf]
    · rw [List.mem_cons, not_or] at hg
      exact (hfr g hg.2).trans (hfr₁ g hg.1)

theorem freerangeFrames_nodup (vstart vend : ℕ) : (freerangeFrames vstart vend).Nodup :=
  List.nodup_range.map fun _ _ h => Nat.add_left_cancel h

/-! ### The calls, one by one -/

/-- The frames that the copy needs are more than there are, and it stops at the last one. -/
def State.Loses (s : State) : Event → Prop
  | .copyuvm p sz => ∃ l, Chain s.machine.frame s.machine.freelist l ∧
      l.length < copyNeed s.machine.frame p sz ∧ copyLoses l.length s.machine.frame p sz = true
  | _ => False

/-- What a call does. -/
structure Steps (k : Kernel) (s : State) (w : World) (e : Event) (s' : State) (w' : World) :
    Prop where
  step : step k s e = some s'
  tracks : Tracks k s' w'
  spaces : Trace.run Spaces.step s.spaces (label k s e) = some s'.spaces
  lost_of : ∀ f, w.owner f = .lost → w'.owner f = .lost
  loses : (∃ f, w'.owner f = .lost ∧ w.owner f ≠ .lost) ↔ s.Loses e

theorem run_singleton (S : Spaces) (e : SpaceEvent) : Trace.run Spaces.step S [e] = S.step e := by
  rw [Trace.run_cons]
  cases S.step e with
  | none => rfl
  | some T => rfl

theorem Spaces.add_of_none {S : Spaces} (h : S p = none) (pages : ℕ → Option UserPage) :
    S.add p pages = some (update S p (some pages)) := by
  rw [Spaces.add, h]

/-- A call that loses no frame. -/
theorem Steps.of_not_loses {e : Event} (hstep : Paging.step k s e = some s')
    (htracks : Tracks k s' w')
    (hspaces : Trace.run Spaces.step s.spaces (label k s e) = some s'.spaces)
    (hlost : ∀ f, w'.owner f = .lost ↔ w.owner f = .lost) (hno : ¬s.Loses e) :
    Steps k s w e s' w' where
  step := hstep
  tracks := htracks
  spaces := hspaces
  lost_of f := (hlost f).2
  loses := iff_of_false (fun ⟨f, hf, hne⟩ => hne ((hlost f).1 hf)) hno

theorem Tracks.freerange (h : Tracks k s w) {vstart vend : ℕ}
    (hP : Proper k s (.freerange vstart vend)) :
    ∃ s' w', Steps k s w (.freerange vstart vend) s' w' := by
  have hkernel (f : ℕ) (hf : f ∈ freerangeFrames vstart vend) :
      w.owner f = .kernel ∧ k.Usable f := ⟨(h.kernel f).2 (hP f hf).2, (hP f hf).1⟩
  obtain ⟨w', hrun, hw', ho, hfr⟩ :=
    h.sound.freeFrames (freerangeFrames_nodup vstart vend) hkernel
  have howner {y : Owner} (hy : y ≠ .free) (hy' : y ≠ .kernel) (f : ℕ) :
      w'.owner f = y ↔ w.owner f = y := by
    rw [ho]
    by_cases hf : f ∈ freerangeFrames vstart vend
    · rw [if_pos hf, (hkernel f hf).1]
      exact iff_of_false hy.symm hy'.symm
    · rw [if_neg hf]
  have hk : Keeps w w' {f | f ∈ freerangeFrames vstart vend} ∅ {.free} := by
    refine ⟨fun f hf _ => (ho f).trans (if_neg hf), fun f hf => ?_, fun f hf _ => hfr f hf,
      fun p _ hd v hv _ => h.sound.toTables.lookup_congr hd hv fun g hg => hfr g fun hm => ?_⟩
    · by_cases hm : f ∈ freerangeFrames vstart vend
      · exact (ho f).trans (if_pos hm)
      · exact absurd ((ho f).trans (if_neg hm)) hf
    · rw [(hkernel g hm).1] at hg
      exact hg
  rw [h.machine] at hrun
  refine ⟨⟨w'.machine, s.frames ∪ (freerangeFrames vstart vend).toFinset, s.dirs⟩, w',
    .of_not_loses (State.call_of_ok hrun fun _ s =>
      { s with frames := s.frames ∪ (freerangeFrames vstart vend).toFinset })
    ⟨rfl, hw', fun f => ?_, fun f => ?_, fun p => ?_⟩ ?_
      (howner (by decide) (by decide)) not_false⟩
  · rw [ho, Finset.mem_union, List.mem_toFinset, not_or]
    by_cases hf : f ∈ freerangeFrames vstart vend
    · rw [if_pos hf]
      exact iff_of_false (by simp) fun hn => hn.2 hf
    · rw [if_neg hf, h.kernel]
      exact (and_iff_left hf).symm
  · exact (howner (by decide) (by decide) f).not.2 (h.held f)
  · exact (howner (by decide) (by decide) p).trans (h.dirs p)
  · refine congrArg some (Eq.symm ?_)
    refine State.spaces_congr rfl fun p hp v hv => ?_
    refine h.view_eq hk hp hv (fun hm => ?_) (Set.notMem_empty _) fun f hf => ?_
    · have hd := (h.dirs p).2 hp
      rw [(hkernel p hm).1] at hd
      cases hd
    · rw [(hkernel f hf).1]
      simp

theorem Tracks.setupkvm (h : Tracks k s w) : ∃ s' w', Steps k s w .setupkvm s' w' := by
  obtain ⟨r, w', hrun, hcases⟩ := h.sound.setupkvm
  rw [h.machine] at hrun
  rcases hcases with ⟨-, p, rfl, hnew⟩ | ⟨-, rfl, hw', hk⟩
  · have hp : p ∉ s.dirs := by
      rw [← h.dirs, hnew.owner]
      simp
    have hN {y : Owner} (hy : y.Plain) : y ∉ {y | y = .dir ∨ ∃ i, y = .table p i} := by
      rintro (rfl | ⟨i, rfl⟩)
      · exact hy
      · exact hy
    have hE {y : Owner} (f : ℕ) (hf : f ∈ (∅ : Set ℕ)) : w.owner f ≠ y :=
      absurd hf (Set.notMem_empty f)
    refine ⟨⟨w'.machine, s.frames, insert p s.dirs⟩, w',
      .of_not_loses (State.call_of_ok hrun fun r s => s.addDir r) (h.next hnew.sound hnew.keeps hE
        ⟨hN trivial, hN trivial⟩ fun q => ?_) ?_ (hnew.keeps.owner_iff (by decide) hE (hN trivial)) not_false⟩
    · rw [hnew.dir, h.dirs, Finset.mem_insert, or_comm]
    · rw [label, State.result_of_ok hrun]
      refine (run_singleton _ _).trans ((Spaces.add_of_none (State.spaces_of_notMem hp) _).trans ?_)
      refine congrArg some (Eq.symm ?_)
      refine State.spaces_update ?_ (fun q hq => ?_) fun q _ hmem v hv => ?_
      · exact State.spaces_eq_some (Finset.mem_insert_self ..)
          (fun v hv => view_of_zero (hnew.empty v hv)) fun _ _ => rfl
      · rw [Finset.mem_insert, or_iff_right hq]
      · exact h.view_eq hnew.keeps hmem hv (Set.notMem_empty q) (Set.notMem_empty _) fun f => hE f
  · have hE {y : Owner} (f : ℕ) (hf : f ∈ (∅ : Set ℕ)) : w.owner f ≠ y :=
      absurd hf (Set.notMem_empty f)
    refine ⟨⟨w'.machine, s.frames, s.dirs⟩, w',
      .of_not_loses (State.call_of_ok hrun fun r s => s.addDir r) (h.next hw' hk hE
        ⟨Set.notMem_empty _, Set.notMem_empty _⟩
        (h.dirs_of_keeps hk hE (Set.notMem_empty _))) ?_
      (hk.owner_iff (by decide) hE (Set.notMem_empty _)) not_false⟩
    rw [label, State.result_of_ok hrun]
    refine congrArg some (Eq.symm ?_)
    refine State.spaces_congr rfl fun p hp v hv => ?_
    exact h.view_eq hk hp hv (Set.notMem_empty p) (Set.notMem_empty _) fun f => hE f

theorem Owner.Plain.not_within {y : Owner} (hy : y.Plain) : ¬y.Within p := by
  rintro (⟨i, rfl⟩ | ⟨v, rfl⟩)
  · exact hy
  · exact hy

theorem not_within_dir : ¬Owner.dir.Within p := by
  rintro (⟨i, hi⟩ | ⟨v, hv⟩)
  · cases hi
  · cases hv

theorem Tracks.allocuvm (h : Tracks k s w) {oldsz newsz : ℕ}
    (hP : Proper k s (.allocuvm p oldsz newsz)) :
    ∃ s' w', Steps k s w (.allocuvm p oldsz newsz) s' w' := by
  obtain ⟨hp, hle, hno⟩ := hP
  have hdir := (h.dirs p).2 hp
  have hE {y : Owner} (f : ℕ) (hf : f ∈ (∅ : Set ℕ)) : w.owner f ≠ y :=
    absurd hf (Set.notMem_empty f)
  rcases lt_or_ge newsz KERNBASE with hn | hn
  · have hlt (v : ℕ) (hv : Vm.InRange oldsz newsz (PGSIZE * v)) : v < 2 ^ 19 := by
      have := hv.2.2
      simp only [PGSIZE, KERNBASE] at *
      omega
    have hsz : oldsz + PGSIZE ≤ 2 ^ 32 := by
      simp only [PGSIZE, KERNBASE] at *
      omega
    obtain ⟨r, w', hrun, hcases⟩ := h.sound.allocuvm hdir hle hn fun v hv => by
      refine (h.sound.toTables.view_eq_none_iff hdir (hlt v hv)).1 ?_
      rw [h.machine]
      exact hno hn v hv
    rw [h.machine] at hrun
    rcases hcases with ⟨-, hr, hg⟩ | ⟨hlack, rfl, hw', hk⟩
    · rw [hr] at hrun
      have hN {y : Owner} (hy : y.Plain) : y ∉ {y : Owner | y.Within p} := hy.not_within
      refine ⟨⟨w'.machine, s.frames, s.dirs⟩, w', .of_not_loses (State.call_of_ok hrun fun _ s => s)
        (h.next hg.sound hg.keeps hE ⟨hN trivial, hN trivial⟩
          (h.dirs_of_keeps hg.keeps hE not_within_dir)) ?_
        (hg.keeps.owner_iff (by decide) hE (hN trivial)) not_false⟩
      rw [label, State.result_of_ok hrun, if_pos rfl, run_singleton, Spaces.step,
        State.spaces_of_mem hp, Option.map_some]
      refine congrArg some (Eq.symm ?_)
      refine State.spaces_update (State.spaces_eq_some hp (fun v hv => ?_)
        fun v hv => ?_) (fun q _ => Iff.rfl) fun q hq hmem v hv => ?_
      · dsimp only
        by_cases hr : Vm.InRange oldsz newsz (PGSIZE * v)
        · rw [if_pos hr]
          exact hg.view v ((mem_rangePages hsz).2 hr)
        · rw [if_neg hr, if_pos hv]
          exact h.view_eq hg.keeps hp hv (Set.notMem_empty p)
            (fun hm => hr ((mem_rangePages hsz).1 hm.2)) fun f => hE f
      · dsimp only
        rw [if_neg fun hr => absurd (hlt v hr) (not_lt.2 hv), if_neg (not_lt.2 hv)]
      · exact h.view_eq hg.keeps hmem hv (Set.notMem_empty q) (fun hm => hq hm.1) fun f => hE f
    · have hN {y : Owner} (hy : y.Plain) (hy' : y ≠ .free) :
          y ∉ {y : Owner | y = .free ∨ y.Within p} := not_or.2 ⟨hy', hy.not_within⟩
      refine ⟨⟨w'.machine, s.frames, s.dirs⟩, w', .of_not_loses (State.call_of_ok hrun fun _ s => s)
        (h.next hw' hk hE ⟨hN trivial (by decide), hN trivial (by decide)⟩
          (h.dirs_of_keeps hk hE (not_or.2 ⟨(by simp), not_within_dir⟩))) ?_
        (hk.owner_iff (by decide) hE (hN trivial (by decide))) not_false⟩
      -- There are always enough frames for no pages.
      have hpos : newsz ≠ 0 := by
        rintro rfl
        have hnil : rangePages oldsz 0 = [] := List.eq_nil_iff_forall_not_mem.2 fun v hv =>
          Nat.not_lt_zero _ ((mem_rangePages hsz).1 hv).2.2
        rw [hnil] at hlack
        exact Nat.not_lt_zero _ hlack
      rw [label, State.result_of_ok hrun, if_neg fun he => hpos (Option.some.inj he).symm]
      refine congrArg some (Eq.symm ?_)
      refine State.spaces_congr rfl fun q hq v hv => ?_
      exact h.view_eq hk hq hv (Set.notMem_empty q) (Set.notMem_empty _) fun f => hE f
  · have hrun : (Paging.allocuvm k p oldsz newsz).run s.machine = .ok (0, s.machine) := by
      rw [Paging.allocuvm, if_pos hn]
      rfl
    refine ⟨s, w, .of_not_loses (State.call_of_ok hrun fun _ s => s) h ?_ (fun f => .rfl) not_false⟩
    rw [label, State.result_of_ok hrun, if_neg]
    · rfl
    · rintro he
      cases he
      exact absurd hn (by decide)

theorem Tracks.deallocuvm (h : Tracks k s w) {oldsz newsz : ℕ}
    (hP : Proper k s (.deallocuvm p oldsz newsz)) :
    ∃ s' w', Steps k s w (.deallocuvm p oldsz newsz) s' w' := by
  obtain ⟨hp, hle⟩ := hP
  have hdir := (h.dirs p).2 hp
  obtain ⟨w', hrun, hw', hk, hgone⟩ := h.sound.deallocuvm hdir hle newsz
  rw [h.machine] at hrun
  have hE {y : Owner} (hy : ∀ u, y ≠ .page p u) (f : ℕ)
      (hf : ∃ u, Vm.InRange newsz oldsz (PGSIZE * u) ∧ w.owner f = .page p u) : w.owner f ≠ y := by
    obtain ⟨u, -, hu⟩ := hf
    rw [hu]
    exact (hy u).symm
  have hN {y : Owner} (hy : y ≠ .free) : y ∉ ({.free} : Set Owner) := hy
  refine ⟨⟨w'.machine, s.frames, s.dirs⟩, w', .of_not_loses (State.call_of_ok hrun fun _ s => s)
    (h.next hw' hk (hE (by simp)) ⟨hN (by decide), hN (by decide)⟩
      (h.dirs_of_keeps hk (hE (by simp)) (hN (by decide)))) ?_
    (hk.owner_iff (by decide) (hE (by simp)) (hN (by decide))) not_false⟩
  rw [label, run_singleton, Spaces.step, State.spaces_of_mem hp, Option.map_some]
  refine congrArg some (Eq.symm ?_)
  refine State.spaces_update (State.spaces_eq_some hp (fun v hv => ?_)
    fun v hv => ?_) (fun q _ => Iff.rfl) fun q hq hmem v hv => ?_
  · dsimp only
    by_cases hr : Vm.InRange newsz oldsz (PGSIZE * v)
    · rw [if_pos hr]
      exact view_of_zero (hgone v hr)
    · rw [if_neg hr, if_pos hv]
      refine h.view_eq hk hp hv (fun hm => hE (by simp) p hm hdir) (fun hm => hr hm.2) ?_
      rintro f ⟨u, hu, hf⟩ he
      rw [hf] at he
      cases he
      exact hr hu
  · dsimp only
    rw [if_neg (not_lt.2 hv), ite_self]
  · refine h.view_eq hk hmem hv (fun hm => hE (by simp) q hm ((h.dirs q).2 hmem))
      (fun hm => hq hm.1) fun f hf => hE (fun u he => ?_) f hf
    cases he
    exact hq rfl

theorem Chain.unique {frame : ℕ → Page} {a : ℕ} {l l' : List ℕ} (h : Chain frame a l)
    (h' : Chain frame a l') : l = l' := by
  have hne (f : ℕ) : P2V (PGSIZE * f) ≠ 0 := by
    simp only [P2V, KERNBASE]
    omega
  induction l generalizing a l' with
  | nil =>
    cases l' with
    | nil => rfl
    | cons f l' => exact absurd (h'.1.symm.trans h) (hne f)
  | cons f l ih =>
    cases l' with
    | nil => exact absurd (h.1.symm.trans h') (hne f)
    | cons g l' =>
      obtain rfl : f = g := by
        have := h.1.symm.trans h'.1
        simp only [P2V, PGSIZE] at this
        omega
      rw [ih h.2 h'.2]

theorem Tracks.copyuvm (h : Tracks k s w) {sz : ℕ} (hP : Proper k s (.copyuvm p sz)) :
    ∃ s' w', Steps k s w (.copyuvm p sz) s' w' := by
  obtain ⟨hp, hsz, htab⟩ := hP
  have hdir := (h.dirs p).2 hp
  have hchain : Chain s.machine.frame s.machine.freelist w.free := by
    rw [← h.machine]
    exact h.sound.chain
  have hE {y : Owner} (f : ℕ) (hf : f ∈ (∅ : Set ℕ)) : w.owner f ≠ y :=
    absurd hf (Set.notMem_empty f)
  obtain ⟨r, w', hrun, hcases⟩ := h.sound.copyuvm hdir hsz fun v hv => by
    have hlt : v / 1024 < 1024 := by
      simp only [PGSIZE, KERNBASE] at *
      omega
    rcases h.sound.dir p hdir (v / 1024) hlt with hz | ⟨t, ht, -⟩
    · rw [h.machine] at hz
      exact absurd hz (htab v hv)
    · exact ⟨t, ht⟩
  rw [h.machine] at hrun hcases
  rcases hcases with ⟨hle, d, rfl, hc⟩ | ⟨hlt, rfl, hc⟩
  · have hd : d ∉ s.dirs := by
      rw [← h.dirs, hc.owner]
      simp
    have hN {y : Owner} (hy : y.Plain) : y ∉ {y : Owner | y = .dir ∨ y.Within d} := by
      rintro (rfl | hy')
      · exact hy
      · exact hy.not_within hy'
    refine ⟨⟨w'.machine, s.frames, insert d s.dirs⟩, w',
      .of_not_loses (State.call_of_ok hrun fun r s => s.addDir r) (h.next hc.sound hc.keeps hE
        ⟨hN trivial, hN trivial⟩ fun q => ?_) ?_
      (hc.keeps.owner_iff (by decide) hE (hN trivial)) ?_⟩
    · rw [hc.dir, h.dirs, Finset.mem_insert, or_comm]
    · rw [label, State.result_of_ok hrun]
      refine (run_singleton _ _).trans ?_
      rw [Spaces.step, State.spaces_of_mem hp, Option.bind_some,
        Spaces.add_of_none (State.spaces_of_notMem hd)]
      refine congrArg some (Eq.symm ?_)
      refine State.spaces_update (State.spaces_eq_some (Finset.mem_insert_self ..)
        (fun v hv => ?_) fun v hv => ?_) (fun q hq => ?_) fun q _ hmem v hv => ?_
      · dsimp only
        rw [hc.view v hv, if_pos hv, h.machine]
      · dsimp only
        rw [if_neg (not_lt.2 hv), ite_self]
      · rw [Finset.mem_insert, or_iff_right hq]
      · exact h.view_eq hc.keeps hmem hv (Set.notMem_empty q) (Set.notMem_empty _) fun f => hE f
    · rintro ⟨l, hl, hlt, -⟩
      rw [hl.unique hchain] at hlt
      exact absurd hle (not_le.2 hlt)
  · have hN {y : Owner} (hy : y ≠ .free) (hy' : y ≠ .lost) : y ∉ ({.free, .lost} : Set Owner) :=
      not_or.2 ⟨hy, hy'⟩
    have htracks : Tracks k ⟨w'.machine, s.frames, s.dirs⟩ w' :=
      h.next hc.sound hc.keeps hE ⟨hN (by decide) (by decide), hN (by decide) (by decide)⟩
        (h.dirs_of_keeps hc.keeps hE (hN (by decide) (by decide)))
    have hspaces : Trace.run Spaces.step s.spaces (label k s (.copyuvm p sz)) =
        some (State.spaces ⟨w'.machine, s.frames, s.dirs⟩) := by
      rw [label, State.result_of_ok hrun]
      refine congrArg some (Eq.symm ?_)
      refine State.spaces_congr rfl fun q hq v hv => ?_
      exact h.view_eq hc.keeps hq hv (Set.notMem_empty q) (Set.notMem_empty _) fun f => hE f
    refine ⟨⟨w'.machine, s.frames, s.dirs⟩, w', ?_⟩
    rcases hc.lost with ⟨hb, hl⟩ | ⟨hb, f, hf, hl⟩
    · refine .of_not_loses (State.call_of_ok hrun fun r s => s.addDir r) htracks hspaces hl ?_
      rintro ⟨l, hl, -, hb'⟩
      rw [hl.unique hchain, hb] at hb'
      cases hb'
    · exact ⟨State.call_of_ok hrun fun r s => s.addDir r, htracks, hspaces,
        fun g hg => (hl g).2 (.inl hg),
        iff_of_true ⟨f, (hl f).2 (.inr rfl), by simp [hf]⟩ ⟨w.free, hchain, hlt, hb⟩⟩

theorem Tracks.freevm (h : Tracks k s w) (hp : p ∈ s.dirs) :
    ∃ s' w', Steps k s w (.freevm p) s' w' := by
  have hdir := (h.dirs p).2 hp
  obtain ⟨w', hrun, hw', hk, hfree⟩ := h.sound.freevm hdir
  rw [h.machine] at hrun
  have hE {y : Owner} (hy : y ≠ .dir) (hy' : ¬y.Within p) (f : ℕ) (hf : f ∈ w.space p) :
      w.owner f ≠ y := by
    rintro rfl
    rcases hf with rfl | hf
    · exact hy hdir
    · exact hy' hf
  have hN {y : Owner} (hy : y ≠ .free) : y ∉ ({.free} : Set Owner) := hy
  have hother (q : ℕ) (hq : q ≠ p) (hmem : q ∈ s.dirs) : q ∉ w.space p := by
    have hd := (h.dirs q).2 hmem
    rintro (rfl | ⟨i, hi⟩ | ⟨v, hv⟩)
    · exact hq rfl
    · cases hd.symm.trans hi
    · cases hd.symm.trans hv
  have hplain {y : Owner} (hy : y.Plain) (f : ℕ) (hf : f ∈ w.space p) : w.owner f ≠ y := by
    refine hE ?_ hy.not_within f hf
    rintro rfl
    exact hy
  refine ⟨⟨w'.machine, s.frames, s.dirs.erase p⟩, w',
    .of_not_loses (State.call_of_ok hrun fun _ s => { s with dirs := s.dirs.erase p })
      (h.next hw' hk (hplain trivial) ⟨hN (by decide), hN (by decide)⟩ fun q => ?_) ?_
      (hk.owner_iff (by decide) (hplain trivial) (hN (by decide))) not_false⟩
  · rw [Finset.mem_erase]
    constructor
    · intro hq
      refine ⟨?_, (h.dirs q).1 ?_⟩
      · rintro rfl
        rw [hfree q (.inl rfl)] at hq
        cases hq
      · by_contra hne
        have hnew := hk.fresh q fun he => hne (he ▸ hq)
        rw [hq] at hnew
        cases hnew
    · rintro ⟨hqp, hq⟩
      have hd := (h.dirs q).2 hq
      rw [← hd]
      exact hk.owner q (hother q hqp hq) (by simp [hd])
  · rw [label, run_singleton, Spaces.step, State.spaces_of_mem hp, Option.map_some]
    refine congrArg some (Eq.symm ?_)
    refine State.spaces_update (State.spaces_of_notMem (Finset.notMem_erase p _))
      (fun q hq => ?_) fun q hq hmem v hv => ?_
    · rw [Finset.mem_erase, and_iff_right hq]
    · refine h.view_eq hk hmem hv (hother q hq hmem) (Set.notMem_empty _) ?_
      refine hE (by simp) ?_
      rintro (⟨i, hi⟩ | ⟨u, hu⟩)
      · cases hi
      · cases hu
        exact hq rfl

/-- No proper call panics. -/
theorem Tracks.steps (h : Tracks k s w) {e : Event} (hP : Proper k s e) :
    ∃ s' w', Steps k s w e s' w' := by
  cases e with
  | freerange vstart vend => exact h.freerange hP
  | setupkvm => exact h.setupkvm
  | allocuvm p oldsz newsz => exact h.allocuvm hP
  | deallocuvm p oldsz newsz => exact h.deallocuvm hP
  | copyuvm p sz => exact h.copyuvm hP
  | freevm p => exact h.freevm hP

/-! ### Runs -/

/-- Before the allocator is given any frames. -/
structure Fresh (s : State) : Prop where
  freelist : s.machine.freelist = 0
  frames : s.frames = ∅
  dirs : s.dirs = ∅

theorem Fresh.tracks (h : Fresh s) : Tracks k s ⟨s.machine, fun _ => .kernel, []⟩ where
  machine := rfl
  sound :=
    { dir := by simp
      table := by simp
      user := by simp
      page := by simp
      usable := fun _ hf => absurd rfl hf
      chain := h.freelist
      nodup := List.nodup_nil
      mem_free := fun _ => iff_of_false List.not_mem_nil (by simp) }
  kernel f := by
    rw [h.frames]
    exact iff_of_true rfl (Finset.notMem_empty f)
  held _ := by simp
  dirs p := by
    rw [h.dirs]
    exact iff_of_false (by simp) (Finset.notMem_empty p)

theorem Fresh.spaces (h : Fresh s) : s.spaces = fun _ => none :=
  funext fun p => State.spaces_of_notMem (by rw [h.dirs]; exact Finset.notMem_empty p)

/-- The calls of a run, and the frames that they lose. -/
theorem Tracks.run (h : Tracks k s w) {es : List Event}
    (hP : Trace.Along (step k) (Proper k) s es) :
    ∃ s' w', Trace.run (step k) s es = some s' ∧ Tracks k s' w' ∧
      (∀ f, w.owner f = .lost → w'.owner f = .lost) ∧
      ((∃ f, w'.owner f = .lost ∧ w.owner f ≠ .lost) ↔
        ¬Trace.Along (step k) (fun s e => ¬s.Loses e) s es) := by
  induction es generalizing s w with
  | nil => exact ⟨s, w, rfl, h, fun _ => id,
      iff_of_false (fun ⟨f, hf, hne⟩ => hne hf) fun hn => hn trivial⟩
  | cons e es ih =>
    obtain ⟨s₁, w₁, h₁⟩ := h.steps hP.1
    obtain ⟨s', w', hrun, ht, hlost, hiff⟩ := ih h₁.tracks (hP.2 s₁ h₁.step)
    have hrest : (∀ t, step k s e = some t →
        Trace.Along (step k) (fun s e => ¬s.Loses e) t es) ↔
          Trace.Along (step k) (fun s e => ¬s.Loses e) s₁ es := by
      refine ⟨fun hall => hall s₁ h₁.step, fun hal t ht => ?_⟩
      cases h₁.step.symm.trans ht
      exact hal
    refine ⟨s', w', ?_, ht, fun f hf => hlost f (h₁.lost_of f hf), ?_⟩
    · rw [Trace.run_cons, h₁.step]
      exact hrun
    · rw [Trace.Along, hrest, not_and_or, not_not, ← h₁.loses, ← hiff]
      constructor
      · rintro ⟨f, hf, hne⟩
        by_cases hf₁ : w₁.owner f = .lost
        · exact .inl ⟨f, hf₁, hne⟩
        · exact .inr ⟨f, hf, hf₁⟩
      · rintro (⟨f, hf, hne⟩ | ⟨f, hf, hne⟩)
        · exact ⟨f, hlost f hf, hne⟩
        · exact ⟨f, hf, fun he => hne (h₁.lost_of f he)⟩

/-! ### Where the frames are -/

/-- The frame `f` is the page directory, one of its page tables, or one of its pages. -/
def State.Uses (s : State) (p f : ℕ) : Prop :=
  f = p ∨ (∃ i < 1024, word (s.machine.frame p) i = PGSIZE * f + 7) ∨
    ∃ v < 2 ^ 19, ∃ fl, Flags fl ∧ lookup s.machine.frame p v = PGSIZE * f + fl

/-- The frame is one of the free ones. -/
def State.Free (s : State) (f : ℕ) : Prop :=
  ∃ l, Chain s.machine.frame s.machine.freelist l ∧ f ∈ l

/-- The allocator has been given the frame, but it is not free and nobody uses it. -/
def State.Lost (s : State) (f : ℕ) : Prop :=
  f ∈ s.frames ∧ ¬s.Free f ∧ ∀ p ∈ s.dirs, ¬s.Uses p f

theorem Tracks.uses_iff (h : Tracks k s w) (hp : p ∈ s.dirs) : s.Uses p f ↔ f ∈ w.space p := by
  have hdir := (h.dirs p).2 hp
  rw [State.Uses, ← h.machine]
  constructor
  · rintro (rfl | ⟨i, hi, hword⟩ | ⟨v, hv, fl, hfl, hl⟩)
    · exact .inl rfl
    · rcases h.sound.dir p hdir i hi with hz | ⟨t, ht, ht'⟩
      · omega
      · obtain rfl : t = f := by
          simp only [PGSIZE] at *
          omega
        exact .inr (.inl ⟨i, ht⟩)
    · rcases h.sound.toTables.lookup_cases hdir hv with ⟨hz, -⟩ | ⟨g, fl', hg, hfl', hl'⟩
      · have := hfl.2
        omega
      · obtain rfl : g = f := by
          have := hfl.1
          have := hfl'.1
          simp only [PGSIZE] at *
          omega
        exact .inr (.inr ⟨v, hg⟩)
  · rintro (rfl | ⟨i, hi⟩ | ⟨v, hv⟩)
    · exact .inl rfl
    · obtain ⟨-, hlt, hword⟩ := h.sound.table f p i hi
      exact .inr (.inl ⟨i, hlt, hword⟩)
    · obtain ⟨fl, hfl, hl⟩ := h.sound.toTables.lookup_page hv
      exact .inr (.inr ⟨v, (h.sound.page f p v hv).1, fl, hfl, hl⟩)

theorem Tracks.free_iff (h : Tracks k s w) : s.Free f ↔ w.owner f = .free := by
  have hchain : Chain s.machine.frame s.machine.freelist w.free := by
    rw [← h.machine]
    exact h.sound.chain
  rw [← h.sound.mem_free]
  constructor
  · rintro ⟨l, hl, hf⟩
    rwa [hl.unique hchain] at hf
  · exact fun hf => ⟨w.free, hchain, hf⟩

theorem Tracks.lost_iff (h : Tracks k s w) : s.Lost f ↔ w.owner f = .lost := by
  rw [State.Lost, ← not_not (a := f ∈ s.frames), ← h.kernel, h.free_iff]
  constructor
  · rintro ⟨hkernel, hfree, huse⟩
    have hno (p : ℕ) (hp : w.owner p = .dir) : f ∉ w.space p := by
      have hmem := (h.dirs p).1 hp
      rw [← h.uses_iff hmem]
      exact huse p hmem
    cases ho : w.owner f with
    | free => exact absurd ho hfree
    | held => exact absurd ho (h.held f)
    | lost => rfl
    | kernel => exact absurd ho hkernel
    | dir => exact absurd (.inl rfl) (hno f ho)
    | table p i => exact absurd (.inr (.inl ⟨i, ho⟩)) (hno p (h.sound.table f p i ho).1)
    | page p v =>
      obtain ⟨-, t, fl, ht, -⟩ := h.sound.page f p v ho
      exact absurd (.inr (.inr ⟨v, ho⟩)) (hno p (h.sound.table t p _ ht).1)
  · intro hlost
    rw [hlost]
    refine ⟨(by simp), (by simp), fun p hp => (h.uses_iff hp).not.2 ?_⟩
    rintro (rfl | ⟨i, hi⟩ | ⟨v, hv⟩)
    · rw [(h.dirs f).2 hp] at hlost
      cases hlost
    · rw [hlost] at hi
      cases hi
    · rw [hlost] at hv
      cases hv

/-- Two address spaces have no frame in common. -/
theorem Tracks.separate (h : Tracks k s w) (hp : p ∈ s.dirs) (hq : q ∈ s.dirs) (hqp : q ≠ p)
    (hf : s.Uses p f) : ¬s.Uses q f := by
  rw [h.uses_iff hp] at hf
  rw [h.uses_iff hq]
  have hdp := (h.dirs p).2 hp
  have hdq := (h.dirs q).2 hq
  rcases hf with rfl | ⟨i, hi⟩ | ⟨v, hv⟩
  · rintro (rfl | ⟨i, hi⟩ | ⟨v, hv⟩)
    · exact hqp rfl
    · rw [hdp] at hi
      cases hi
    · rw [hdp] at hv
      cases hv
  · rintro (rfl | ⟨j, hj⟩ | ⟨v, hv⟩)
    · rw [hdq] at hi
      cases hi
    · rw [hi] at hj
      cases hj
      exact hqp rfl
    · rw [hi] at hv
      cases hv
  · rintro (rfl | ⟨j, hj⟩ | ⟨u, hu⟩)
    · rw [hdq] at hv
      cases hv
    · rw [hv] at hj
      cases hj
    · rw [hv] at hu
      cases hu
      exact hqp rfl

/-- A kernel that ends at the frame 277. -/
def smallKernel : Kernel :=
  ⟨0x80108000, 0x80115000, by decide, by decide, by decide, by decide⟩

/-- The allocator has no frames. -/
def noMemory : State := ⟨⟨fun _ _ => 0, 0⟩, ∅, ∅⟩

/-- The allocator is given two frames, which are too few for an address space. -/
def twoFrames : List Event := [.freerange 0x80115000 0x80117000, .setupkvm]

theorem twoFrames_proper :
    Trace.Along (step smallKernel) (Proper smallKernel) noMemory twoFrames := by
  refine ⟨fun f hf => ?_, fun _ _ => ⟨trivial, fun _ _ => trivial⟩⟩
  have hframes : freerangeFrames 0x80115000 0x80117000 = [277, 278] := by decide
  rw [hframes] at hf
  refine ⟨?_, Finset.notMem_empty f⟩
  rcases List.mem_pair.1 hf with rfl | rfl
  · exact ⟨by decide, by decide⟩
  · exact ⟨by decide, by decide⟩

end Paging
