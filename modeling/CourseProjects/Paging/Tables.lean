import CourseProjects.Paging.Machine

/-!
# Who owns the frames

Each frame is free, or belongs to one owner: a caller of `kalloc`, or an address space, as its
page directory, or as one of its page tables or user pages (`Owner`). The tables say so (`Tables`).

* `Tables.makeDir`, `Tables.setTable`, `Tables.setPage`, `Tables.clearPage`, `Tables.dismantle`:
  what the functions of `vm.c` do to the tables, one entry at a time.
-/

namespace Paging

open Function Tx Words Xv6

/-- What a frame is used for. `kernel` frames are no frames of `kalloc`, and nobody knows of those
    that are `lost`. -/
inductive Owner
  | free
  | held
  | lost
  | kernel
  | dir
  | table (p i : ℕ)
  | page (p v : ℕ)
  deriving DecidableEq

/-- The flags of an entry that is present. -/
def Flags (fl : ℕ) : Prop := fl < PGSIZE ∧ fl % 2 = 1

/-! ### The tables -/

/-- What is in the page directories and page tables: the frames that belong there. -/
structure Tables (frame : ℕ → Page) (owner : ℕ → Owner) : Prop where
  dir : ∀ p, owner p = .dir → ∀ i < 1024, word (frame p) i = 0 ∨
    ∃ t, owner t = .table p i ∧ word (frame p) i = PGSIZE * t + 7
  table : ∀ t p i, owner t = .table p i →
    owner p = .dir ∧ i < 1024 ∧ word (frame p) i = PGSIZE * t + 7
  user : ∀ t p i, owner t = .table p i → i < 512 → ∀ j < 1024, word (frame t) j = 0 ∨
    ∃ f fl, owner f = .page p (1024 * i + j) ∧ Flags fl ∧ word (frame t) j = PGSIZE * f + fl
  page : ∀ f p v, owner f = .page p v → v < 2 ^ 19 ∧
    ∃ t fl, owner t = .table p (v / 1024) ∧ Flags fl ∧
      word (frame t) (v % 1024) = PGSIZE * f + fl

/-- A frame that is no part of an address space. -/
def Owner.Plain : Owner → Prop
  | dir | table _ _ | page _ _ => False
  | _ => True

/-- The frame of a page directory or of a page table. -/
def Owner.Tabular : Owner → Prop
  | dir | table _ _ => True
  | _ => False

variable {frame frame' : ℕ → Page} {owner owner' : ℕ → Owner} {f g p q i j t v fl : ℕ}

/-- Only the frames of directories and tables matter. -/
theorem Tables.congr (h : Tables frame owner)
    (heq : ∀ g, (owner g).Tabular → frame' g = frame g) : Tables frame' owner where
  dir p hp i hi := by
    rw [heq p (by rw [hp]; trivial)]
    exact h.dir p hp i hi
  table t p i ht := by
    obtain ⟨hp, hi, hw⟩ := h.table t p i ht
    rw [heq p (by rw [hp]; trivial)]
    exact ⟨hp, hi, hw⟩
  user t p i ht hi j hj := by
    rw [heq t (by rw [ht]; trivial)]
    exact h.user t p i ht hi j hj
  page f p v hf := by
    obtain ⟨hv, t, fl, ht, hfl, hw⟩ := h.page f p v hf
    refine ⟨hv, t, fl, ht, hfl, ?_⟩
    rwa [heq t (by rw [ht]; trivial)]

/-- A frame that is no part of an address space changes hands. -/
theorem Tables.update_plain (h : Tables frame owner) (hf : (owner f).Plain) {x : Owner}
    (hx : x.Plain) : Tables frame (update owner f x) := by
  have hof {y : Owner} (hy : ¬y.Plain) (g : ℕ) : update owner f x g = y ↔ owner g = y := by
    rcases eq_or_ne g f with rfl | hne
    · rw [update_self]
      exact iff_of_false (fun he => hy (he ▸ hx)) fun he => hy (he ▸ hf)
    · rw [update_of_ne hne]
  have hdir := hof (y := .dir) not_false
  have htable (p i : ℕ) := hof (y := .table p i) not_false
  have hpage (p v : ℕ) := hof (y := .page p v) not_false
  constructor
  · simp only [hdir, htable]
    exact h.dir
  · simp only [hdir, htable]
    exact h.table
  · simp only [htable, hpage]
    exact h.user
  · simp only [htable, hpage]
    exact h.page

/-- A page table belongs to one entry of one directory. -/
theorem Tables.table_inj (h : Tables frame owner) {t' : ℕ} (ht : owner t = .table p i)
    (ht' : owner t' = .table p i) : t = t' := by
  have := (h.table t p i ht).2.2.symm.trans (h.table t' p i ht').2.2
  simp only [PGSIZE] at this
  omega

theorem Tables.page_inj (h : Tables frame owner) (hf : owner f = .page p v)
    (hg : owner g = .page p v) : f = g := by
  obtain ⟨-, t, fl, ht, hfl, hw⟩ := h.page f p v hf
  obtain ⟨-, t', fl', ht', hfl', hw'⟩ := h.page g p v hg
  cases h.table_inj ht ht'
  have := hw.symm.trans hw'
  have := hfl.1
  have := hfl'.1
  simp only [PGSIZE] at *
  omega

/-! ### One entry at a time -/

/-- An entry is written. -/
def setEntry (frame : ℕ → Page) (f i x : ℕ) : ℕ → Page :=
  update frame f (setWord (frame f) i x)

theorem word_setEntry {x : ℕ} (hx : x < 2 ^ 32) :
    word (setEntry frame f i x g) j = if g = f ∧ j = i then x else word (frame g) j := by
  rw [setEntry]
  rcases eq_or_ne g f with rfl | hne
  · rw [update_self, word_setWord, Nat.mod_eq_of_lt hx]
    simp only [true_and]
  · rw [update_of_ne hne, if_neg fun h => hne h.1]

theorem setEntry_of_ne {x : ℕ} (h : g ≠ f) : setEntry frame f i x g = frame g := update_of_ne h _ _

/-- A frame that is filled with zeros becomes a page directory. -/
theorem Tables.makeDir (h : Tables frame owner) (hp : (owner p).Plain) (hzero : frame p = 0) :
    Tables frame (update owner p .dir) := by
  have hof {y : Owner} (hy : ¬y.Plain) (hyd : y ≠ .dir) (g : ℕ) :
      update owner p .dir g = y ↔ owner g = y := by
    rcases eq_or_ne g p with rfl | hne
    · rw [update_self]
      exact iff_of_false hyd.symm fun he => hy (he ▸ hp)
    · rw [update_of_ne hne]
  have htable (q i : ℕ) := hof (y := .table q i) not_false (by simp)
  have hpage (q v : ℕ) := hof (y := .page q v) not_false (by simp)
  refine ⟨fun q hq i hi => ?_, fun t q i ht => ?_, ?_, ?_⟩
  · rcases eq_or_ne q p with rfl | hne
    · rw [hzero]
      exact .inl rfl
    · rw [update_of_ne hne] at hq
      simp only [htable]
      exact h.dir q hq i hi
  · obtain ⟨hq, hi, hw⟩ := h.table t q i ((htable q i t).1 ht)
    refine ⟨?_, hi, hw⟩
    rcases eq_or_ne q p with rfl | hne
    · exact update_self ..
    · rwa [update_of_ne hne]
  · simp only [htable, hpage]
    exact h.user
  · simp only [htable, hpage]
    exact h.page

/-- A frame that is filled with zeros becomes a page table. -/
theorem Tables.setTable (h : Tables frame owner) (hp : owner p = .dir) (hi : i < 1024)
    (hw : word (frame p) i = 0) (ht : (owner t).Plain) (hzero : frame t = 0)
    (hlt : PGSIZE * t + 7 < 2 ^ 32) :
    Tables (setEntry frame p i (PGSIZE * t + 7)) (update owner t (.table p i)) := by
  have hpt : p ≠ t := by
    rintro rfl
    rw [hp] at ht
    exact ht
  have hne {g : ℕ} {y : Owner} (hg : owner g = y) (hy : ¬y.Plain) : g ≠ t := by
    rintro rfl
    exact hy (hg ▸ ht)
  have hpage (q v g : ℕ) : update owner t (.table p i) g = .page q v ↔ owner g = .page q v := by
    rcases eq_or_ne g t with rfl | hgt
    · rw [update_self]
      exact iff_of_false (by simp) fun he => hne he not_false rfl
    · rw [update_of_ne hgt]
  -- The frames of other page tables are as before, and so are their owners.
  have htable {q j g : ℕ} (hg : owner g = .table q j) :
      update owner t (.table p i) g = .table q j ∧
        setEntry frame p i (PGSIZE * t + 7) g = frame g := by
    rw [update_of_ne (hne hg not_false)]
    refine ⟨hg, setEntry_of_ne ?_⟩
    rintro rfl
    rw [hp] at hg
    cases hg
  refine ⟨fun q hq j hj => ?_, fun g q j hg => ?_, fun g q j hg hj l hl => ?_,
    fun f q v hf => ?_⟩
  · have hqt : q ≠ t := by
      rintro rfl
      rw [update_self] at hq
      cases hq
    rw [update_of_ne hqt] at hq
    rw [word_setEntry hlt]
    split
    · rename_i he
      obtain ⟨rfl, rfl⟩ := he
      exact .inr ⟨t, update_self .., rfl⟩
    · refine (h.dir q hq j hj).imp_right ?_
      rintro ⟨g, hg, hword⟩
      exact ⟨g, (htable hg).1, hword⟩
  · rw [word_setEntry hlt]
    rcases eq_or_ne g t with rfl | hgt
    · rw [update_self] at hg
      cases hg
      rw [update_of_ne hpt]
      exact ⟨hp, hi, if_pos ⟨rfl, rfl⟩⟩
    · rw [update_of_ne hgt] at hg
      obtain ⟨hq, hj, hword⟩ := h.table g q j hg
      refine ⟨?_, hj, ?_⟩
      · rwa [update_of_ne (hne hq not_false)]
      · rw [if_neg, hword]
        rintro ⟨rfl, rfl⟩
        omega
  · simp only [hpage]
    rcases eq_or_ne g t with rfl | hgt
    · rw [setEntry_of_ne hpt.symm, hzero]
      exact .inl rfl
    · rw [update_of_ne hgt] at hg
      rw [(htable hg).2]
      exact h.user g q j hg hj l hl
  · obtain ⟨hv, g, fl, hg, hfl, hword⟩ := h.page f q v ((hpage q v f).1 hf)
    refine ⟨hv, g, fl, (htable hg).1, hfl, ?_⟩
    rw [(htable hg).2, hword]

/-- A frame becomes a user page. -/
theorem Tables.setPage (h : Tables frame owner) (ht : owner t = .table p i) (hi : i < 512)
    (hj : j < 1024) (hw : word (frame t) j = 0) (hf : (owner f).Plain) (hfl : Flags fl)
    (hlt : PGSIZE * f + fl < 2 ^ 32) :
    Tables (setEntry frame t j (PGSIZE * f + fl)) (update owner f (.page p (1024 * i + j))) := by
  have hne {g : ℕ} {y : Owner} (hg : owner g = y) (hy : ¬y.Plain) : g ≠ f := by
    rintro rfl
    exact hy (hg ▸ hf)
  have hof {y : Owner} (hy : ¬y.Plain) (hyp : ∀ q v, y ≠ .page q v) (g : ℕ) :
      update owner f (.page p (1024 * i + j)) g = y ↔ owner g = y := by
    rcases eq_or_ne g f with rfl | hgf
    · rw [update_self]
      exact iff_of_false (hyp _ _).symm fun he => hne he hy rfl
    · rw [update_of_ne hgf]
  have hdir := hof (y := .dir) not_false (by simp)
  have htable (q i : ℕ) := hof (y := .table q i) not_false (by simp)
  have hpg (q : ℕ) (hq : owner q = .dir) : q ≠ t := by
    rintro rfl
    rw [hq] at ht
    cases ht
  refine ⟨fun q hq l hl => ?_, fun g q l hg => ?_, fun g q l hg hl l' hl' => ?_,
    fun g q v hg => ?_⟩
  · have hq' := (hdir q).1 hq
    simp only [htable]
    rw [setEntry_of_ne (hpg q hq')]
    exact h.dir q hq' l hl
  · obtain ⟨hq, hl, hword⟩ := h.table g q l ((htable q l g).1 hg)
    exact ⟨(hdir q).2 hq, hl, by rwa [setEntry_of_ne (hpg q hq)]⟩
  · have hg' := (htable q l g).1 hg
    rw [word_setEntry hlt]
    split
    · rename_i he
      obtain ⟨rfl, rfl⟩ := he
      cases ht.symm.trans hg'
      exact .inr ⟨f, fl, update_self .., hfl, rfl⟩
    · refine (h.user g q l hg' hl l' hl').imp_right ?_
      rintro ⟨g', fl', hg'', hfl', hword⟩
      exact ⟨g', fl', by rwa [update_of_ne (hne hg'' not_false)], hfl', hword⟩
  · rcases eq_or_ne g f with rfl | hgf
    · rw [update_self] at hg
      cases hg
      refine ⟨by omega, t, fl, ?_, hfl, ?_⟩
      · rw [update_of_ne (hne ht not_false), ht]
        congr 1
        omega
      · rw [word_setEntry hlt, if_pos ⟨rfl, by omega⟩]
    · rw [update_of_ne hgf] at hg
      obtain ⟨hv, t', fl', ht', hfl', hword⟩ := h.page g q v hg
      refine ⟨hv, t', fl', (htable _ _ _).2 ht', hfl', ?_⟩
      rw [word_setEntry hlt, if_neg, hword]
      rintro ⟨rfl, rfl⟩
      have := hfl'.2
      simp only [PGSIZE] at hword
      omega

/-- A user page is taken out of the tables. -/
theorem Tables.clearPage (h : Tables frame owner) (hf : owner f = .page p v)
    (ht : owner t = .table p (v / 1024)) {x : Owner} (hx : x.Plain) :
    Tables (setEntry frame t (v % 1024) 0) (update owner f x) := by
  have hlt : 0 < 2 ^ 32 := by decide
  have hof {y : Owner} (hy : ¬y.Plain) (hyf : owner f ≠ y) (g : ℕ) :
      update owner f x g = y ↔ owner g = y := by
    rcases eq_or_ne g f with rfl | hgf
    · rw [update_self]
      exact iff_of_false (fun he => hy (he ▸ hx)) hyf
    · rw [update_of_ne hgf]
  have hdir := hof (y := .dir) not_false (by simp [hf])
  have htable (q i : ℕ) := hof (y := .table q i) not_false (by simp [hf])
  have hpg (q : ℕ) (hq : owner q = .dir) : q ≠ t := by
    rintro rfl
    rw [hq] at ht
    cases ht
  refine ⟨fun q hq l hl => ?_, fun g q l hg => ?_, fun g q l hg hl l' hl' => ?_,
    fun g q u hg => ?_⟩
  · have hq' := (hdir q).1 hq
    simp only [htable]
    rw [setEntry_of_ne (hpg q hq')]
    exact h.dir q hq' l hl
  · obtain ⟨hq, hl, hword⟩ := h.table g q l ((htable q l g).1 hg)
    exact ⟨(hdir q).2 hq, hl, by rwa [setEntry_of_ne (hpg q hq)]⟩
  · have hg' := (htable q l g).1 hg
    rw [word_setEntry hlt]
    split
    · exact .inl rfl
    · rename_i hno
      refine (h.user g q l hg' hl l' hl').imp_right ?_
      rintro ⟨g', fl', hg'', hfl', hword⟩
      refine ⟨g', fl', ?_, hfl', hword⟩
      rwa [update_of_ne]
      rintro rfl
      -- The page is at one entry only.
      have hpv := hf.symm.trans hg''
      simp only [Owner.page.injEq] at hpv
      obtain ⟨rfl, rfl⟩ := hpv
      have hdiv : (1024 * l + l') / 1024 = l := by omega
      rw [hdiv] at ht
      exact hno ⟨h.table_inj hg' ht, by omega⟩
  · have hgf : g ≠ f := by
      rintro rfl
      rw [update_self] at hg
      rw [hg] at hx
      exact hx
    rw [update_of_ne hgf] at hg
    obtain ⟨hu, t', fl', ht', hfl', hword⟩ := h.page g q u hg
    refine ⟨hu, t', fl', (htable _ _ _).2 ht', hfl', ?_⟩
    rw [word_setEntry hlt, if_neg, hword]
    rintro ⟨rfl, hmod⟩
    have hqp := ht.symm.trans ht'
    simp only [Owner.table.injEq] at hqp
    obtain ⟨rfl, hdiv⟩ := hqp
    obtain rfl : u = v := by omega
    exact hgf (h.page_inj hg hf)

/-- An entry of the kernel's part is written. -/
theorem Tables.setKernel (h : Tables frame owner) (ht : owner t = .table p i) (hi : 512 ≤ i)
    (x : ℕ) : Tables (setEntry frame t j x) owner := by
  have hpg (q : ℕ) (hq : owner q = .dir) : q ≠ t := by
    rintro rfl
    rw [hq] at ht
    cases ht
  have huser {g q l : ℕ} (hg : owner g = .table q l) (hl : l < 512) : g ≠ t := by
    rintro rfl
    cases ht.symm.trans hg
    omega
  refine ⟨fun q hq l hl => ?_, fun g q l hg => ?_, fun g q l hg hl l' hl' => ?_,
    fun g q u hg => ?_⟩
  · rw [setEntry_of_ne (hpg q hq)]
    exact h.dir q hq l hl
  · obtain ⟨hq, hl, hword⟩ := h.table g q l hg
    exact ⟨hq, hl, by rwa [setEntry_of_ne (hpg q hq)]⟩
  · rw [setEntry_of_ne (huser hg hl)]
    exact h.user g q l hg hl l' hl'
  · obtain ⟨hu, t', fl', ht', hfl', hword⟩ := h.page g q u hg
    exact ⟨hu, t', fl', ht', hfl', by rwa [setEntry_of_ne (huser ht' (by omega))]⟩

/-- The directory and the tables of an address space are no longer in use. -/
def dismantle (owner : ℕ → Owner) (p f : ℕ) : Owner :=
  if f = p then .held
  else
    match owner f with
    | .table q i => if q = p then .held else .table q i
    | x => x

theorem dismantle_eq_iff (hp : owner p = .dir) (x : Owner) (hx : x ≠ .held) :
    dismantle owner p f = x ↔ owner f = x ∧ f ≠ p ∧ ∀ i, owner f ≠ .table p i := by
  rw [dismantle]
  split
  · rename_i he
    exact iff_of_false hx.symm fun h => h.2.1 he
  · rename_i hne
    split
    · rename_i q i heq
      split
      · rename_i he
        subst he
        exact iff_of_false hx.symm fun h => h.2.2 i heq
      · rename_i hqp
        rw [heq]
        refine (and_iff_left ⟨hne, fun j he => hqp ?_⟩).symm
        cases he
        rfl
    · rename_i hno
      exact (and_iff_left ⟨hne, fun i he => hno p i he⟩).symm

/-- An address space without user pages comes to its end. -/
theorem Tables.dismantle (h : Tables frame owner) (hp : owner p = .dir)
    (hno : ∀ f v, owner f ≠ .page p v) : Tables frame (dismantle owner p) := by
  have htable {g q i : ℕ} : Paging.dismantle owner p g = .table q i ↔
      owner g = .table q i ∧ q ≠ p := by
    rw [dismantle_eq_iff hp (.table q i) (by simp)]
    constructor
    · rintro ⟨hg, -, hall⟩
      refine ⟨hg, ?_⟩
      rintro rfl
      exact hall i hg
    · rintro ⟨hg, hqp⟩
      refine ⟨hg, ?_, fun j he => hqp ?_⟩
      · rintro rfl
        rw [hp] at hg
        cases hg
      · cases hg.symm.trans he
        rfl
  have hpage {g q v : ℕ} : Paging.dismantle owner p g = .page q v ↔ owner g = .page q v := by
    rw [dismantle_eq_iff hp (.page q v) (by simp)]
    refine and_iff_left_of_imp fun hg => ⟨?_, fun i he => ?_⟩
    · rintro rfl
      rw [hp] at hg
      cases hg
    · rw [hg] at he
      cases he
  refine ⟨fun q hq i hi => ?_, fun g q i hg => ?_, fun g q i hg hi j hj => ?_,
    fun g q v hg => ?_⟩
  · obtain ⟨hq, hqp, -⟩ := (dismantle_eq_iff hp .dir (by simp)).1 hq
    refine (h.dir q hq i hi).imp_right ?_
    rintro ⟨t, ht, hw⟩
    exact ⟨t, htable.2 ⟨ht, hqp⟩, hw⟩
  · obtain ⟨hg, hqp⟩ := htable.1 hg
    obtain ⟨hq, hi, hw⟩ := h.table g q i hg
    refine ⟨(dismantle_eq_iff hp .dir (by simp)).2 ⟨hq, hqp, fun j he => ?_⟩, hi, hw⟩
    rw [hq] at he
    cases he
  · simp only [hpage]
    exact h.user g q i (htable.1 hg).1 hi j hj
  · have hg' := hpage.1 hg
    obtain ⟨hv, t, fl, ht, hfl, hw⟩ := h.page g q v hg'
    refine ⟨hv, t, fl, htable.2 ⟨ht, ?_⟩, hfl, hw⟩
    rintro rfl
    exact hno g v hg'

end Paging
