import CourseProjects.Xv6.Stacks

/-!
# `sbrk`

`sys_sbrk` on the process of the caller, the first thread or another. It calls `growproc`
for the size to return, where the size was once read, and then calls it again.

* `sbrk_exact_iff`: the calls of `sbrk` that return the old size and move the size by their
  argument, or change nothing.
* `wellFormed_of_run`: what this assumes of a process holds in every run of the calls of
  its threads, of which `growproc` is the step (`growproc_eq`).
-/

namespace Xv6

open Vm

/-- The kernel is mapped this far above `KERNBASE`, after the device memory. -/
def EXTMEM : ℕ := 0x100000

/-- A `uint` read as an `int`. -/
def toInt (x : ℕ) : ℤ := if x < 2 ^ 31 then x else x - 2 ^ 32

/-- What `growproc` finds: the caller, and the size of its master if it is not the first
    thread. -/
structure Caller where
  sz : ℕ
  master : Option ℕ
  pgdir : Finset ℕ
  deriving DecidableEq

namespace Caller

/-- The size of the process: the master has it. -/
def size (c : Caller) : ℕ := c.master.getD c.sz

/-- The process with another size and other pages. -/
def resize (c : Caller) (sz : ℕ) (pgdir : Finset ℕ) : Caller :=
  match c.master with
  | none => { c with sz := sz, pgdir := pgdir }
  | some _ => { c with master := some sz, pgdir := pgdir }

/-- The end of `growproc`: the result `0` is taken for a failure, the pages as they are. -/
def finish (c : Caller) (r : ℕ × Finset ℕ) : ℤ × Caller :=
  if r.1 = 0 then (-1, { c with pgdir := r.2 }) else (toInt c.size, c.resize r.1 r.2)

def newsz (c : Caller) (n : ℤ) : ℕ := ((c.size + n) % 2 ^ 32).toNat

def growproc (c : Caller) (n : ℤ) (avail : ℕ) : Except Panic (ℤ × Caller) :=
  if 0 < n then (allocuvm avail c.pgdir c.size (c.newsz n)).map c.finish
  else if n < 0 then (deallocuvm c.pgdir c.size (c.newsz n)).map c.finish
  else .ok (toInt c.size, c)

/-- `sys_sbrk`, with what `argint` reads. The second `growproc` finds the frames that the
    first one left. -/
def sysSbrk (c : Caller) (arg : Option ℤ) (avail : ℕ) : Except Panic (ℤ × Caller) :=
  match arg with
  | none => .ok (-1, c)
  | some n =>
    match c.growproc n avail with
    | .error e => .error e
    | .ok (addr, c₁) =>
      if addr < 0 then .ok (-1, c₁)
      else
        match c₁.growproc n (avail - (c₁.pgdir \ c.pgdir).card) with
        | .error e => .error e
        | .ok (r, c₂) => if r < 0 then .ok (-1, c₂) else .ok (addr, c₂)

end Caller

/-! ### The pages of a range -/

namespace Vm

/-- A page that `allocuvm` comes to, with a frame for it, is mapped already. -/
def Remaps (avail : ℕ) (pgdir : Finset ℕ) (oldsz newsz : ℕ) : Prop :=
  ∃ a ∈ (pageRange oldsz newsz).take avail, a ∈ pgdir

instance (avail : ℕ) (pgdir : Finset ℕ) (oldsz newsz : ℕ) :
    Decidable (Remaps avail pgdir oldsz newsz) :=
  inferInstanceAs (Decidable (∃ a ∈ (pageRange oldsz newsz).take avail, a ∈ pgdir))

variable {avail oldsz newsz a : ℕ} {pgdir : Finset ℕ}

/-- The loop maps pages as long as there are frames, and no page twice. -/
theorem allocLoop_eq (avail : ℕ) {as : List ℕ} (hn : as.Nodup) (pgdir : Finset ℕ) :
    allocLoop avail pgdir as =
      if ∃ a ∈ as.take avail, a ∈ pgdir then .error .remap
      else .ok (decide (as.length ≤ avail), pgdir ∪ (as.take avail).toFinset) := by
  induction as generalizing avail pgdir with
  | nil => cases avail <;> simp [allocLoop]
  | cons a as ih =>
    cases avail with
    | zero => simp [allocLoop]
    | succ avail =>
      obtain ⟨ha, hn⟩ := List.nodup_cons.1 hn
      by_cases hmem : a ∈ pgdir
      · simp [allocLoop, mappages, hmem]
      · have hiff : (∃ b ∈ as.take avail, b ∈ insert a pgdir) ↔
            ∃ b ∈ (a :: as).take (avail + 1), b ∈ pgdir := by
          simp only [List.take_succ_cons, List.mem_cons, Finset.mem_insert]
          constructor
          · rintro ⟨b, hb, rfl | hp⟩
            · exact absurd (List.mem_of_mem_take hb) ha
            · exact ⟨b, .inr hb, hp⟩
          · rintro ⟨b, rfl | hb, hp⟩
            · exact absurd hp hmem
            · exact ⟨b, hb, .inr hp⟩
        simp only [allocLoop, mappages, if_neg hmem, ih avail hn, hiff, List.length_cons,
          Nat.add_le_add_iff_right, List.take_succ_cons, List.toFinset_cons,
          Finset.union_insert, Finset.insert_union]

/-- `allocuvm` below the kernel: a panic, the pages of the range, or none of them left. -/
theorem allocuvm_eq (avail : ℕ) (ha : ∀ a ∈ pgdir, PGSIZE ∣ a) (ho : oldsz ≤ newsz)
    (hk : newsz < KERNBASE) :
    allocuvm avail pgdir oldsz newsz =
      if Remaps avail pgdir oldsz newsz then .error .remap
      else if (pageRange oldsz newsz).length ≤ avail then
        .ok (newsz, pgdir ∪ (pageRange oldsz newsz).toFinset)
      else .ok (0, pgdir \ (pageRange oldsz newsz).toFinset) := by
  have hw : oldsz + PGSIZE ≤ 2 ^ 32 := by
    simp only [KERNBASE, PGSIZE] at *
    omega
  have hloop : allocLoop avail pgdir (pageRange oldsz newsz) =
      if Remaps avail pgdir oldsz newsz then .error .remap
      else .ok (decide ((pageRange oldsz newsz).length ≤ avail),
        pgdir ∪ ((pageRange oldsz newsz).take avail).toFinset) :=
    allocLoop_eq avail (pageRange_nodup _ _) pgdir
  rw [allocuvm, if_neg (by omega), if_neg (by omega), hloop]
  by_cases hr : Remaps avail pgdir oldsz newsz
  · rw [if_pos hr, if_pos hr]
  rw [if_neg hr, if_neg hr]
  by_cases hl : (pageRange oldsz newsz).length ≤ avail
  · rw [if_pos hl, decide_eq_true hl, List.take_of_length_le hl]
  · rw [if_neg hl, decide_eq_false hl]
    -- The pages that were mapped are given back.
    have ha' : ∀ a ∈ pgdir ∪ ((pageRange oldsz newsz).take avail).toFinset, PGSIZE ∣ a := by
      intro a h
      rcases Finset.mem_union.1 h with h | h
      · exact ha a h
      · exact ((mem_pageRange hw).1 (List.mem_of_mem_take (List.mem_toFinset.1 h))).1
    obtain ⟨⟨r, pgdir'⟩, hd⟩ := deallocuvm_ok oldsz
      (pgdir ∪ ((pageRange oldsz newsz).take avail).toFinset) hk.le
    have hmem := (deallocuvm_spec ha' hw hd).1
    have he : pgdir' = pgdir \ (pageRange oldsz newsz).toFinset := by
      ext a
      rw [hmem, Finset.mem_union, Finset.mem_sdiff, List.mem_toFinset, List.mem_toFinset,
        mem_pageRange hw]
      constructor
      · rintro ⟨h | h, hn⟩
        · exact ⟨h, hn⟩
        · exact absurd ((mem_pageRange hw).1 (List.mem_of_mem_take h)) hn
      · exact fun h => ⟨.inl h.1, h.2⟩
    rw [← he]
    simp [hd, Except.map]

theorem map_eq_ok {α β : Type} {f : α → β} {x : Except Panic α} {b : β}
    (h : x.map f = .ok b) : ∃ a, x = .ok a ∧ f a = b := by
  cases x with
  | error p => cases h
  | ok a => exact ⟨a, rfl, Except.ok.inj h⟩

theorem page_of_mem (h : a ∈ pageRange oldsz newsz) : PGSIZE ∣ a ∧ a < newsz := by
  simp only [pageRange, List.mem_map, List.mem_range] at h
  obtain ⟨i, hi, rfl⟩ := h
  refine ⟨(Nat.dvd_add_right (dvd_pgroundup _)).2 (Nat.dvd_mul_right _ _), ?_⟩
  simp only [PGSIZE] at hi ⊢
  omega

/-- The pages that `deallocuvm` leaves were mapped before. -/
theorem deallocuvm_sub {r : ℕ × Finset ℕ} (h : deallocuvm pgdir oldsz newsz = .ok r) :
    r.1 ≤ oldsz ∧ r.2 ⊆ pgdir := by
  rw [deallocuvm] at h
  split at h
  · cases h
    exact ⟨le_rfl, Finset.Subset.refl _⟩
  split at h
  · cases h
  · cases h
    exact ⟨by omega, Finset.filter_subset _ _⟩

/-- The pages that `allocuvm` maps are pages below the kernel. -/
theorem allocuvm_page {r : ℕ × Finset ℕ} (ha : ∀ a ∈ pgdir, PGSIZE ∣ a ∧ a < KERNBASE)
    (h : allocuvm avail pgdir oldsz newsz = .ok r) :
    r.1 ≤ max oldsz KERNBASE ∧ ∀ a ∈ r.2, PGSIZE ∣ a ∧ a < KERNBASE := by
  rw [allocuvm] at h
  split at h
  · cases h
    exact ⟨Nat.zero_le _, ha⟩
  split at h
  · cases h
    exact ⟨le_max_left _ _, ha⟩
  rename_i hk hle
  rw [allocLoop_eq avail (pageRange_nodup _ _)] at h
  have hmem : ∀ a ∈ pgdir ∪ ((pageRange oldsz newsz).take avail).toFinset,
      PGSIZE ∣ a ∧ a < KERNBASE := by
    intro a h
    rcases Finset.mem_union.1 h with h | h
    · exact ha a h
    · have := page_of_mem (List.mem_of_mem_take (List.mem_toFinset.1 h))
      exact ⟨this.1, by omega⟩
  by_cases hr : ∃ a ∈ (pageRange oldsz newsz).take avail, a ∈ pgdir
  · rw [if_pos hr] at h
    cases h
  rw [if_neg hr] at h
  cases hl : decide ((pageRange oldsz newsz).length ≤ avail) <;> rw [hl] at h
  · obtain ⟨r, hr, rfl⟩ := map_eq_ok h
    exact ⟨Nat.zero_le _, fun a ha => hmem a ((deallocuvm_sub hr).2 ha)⟩
  · cases h
    exact ⟨by omega, hmem⟩

end Vm

namespace Caller

/-- A process as the kernel has it: it passes the kernel by stacks only. -/
structure WellFormed (c : Caller) : Prop where
  size_le : c.size ≤ KERNBASE + EXTMEM
  page : ∀ a ∈ c.pgdir, PGSIZE ∣ a ∧ a < KERNBASE

variable {c c' : Caller} {avail k : ℕ} {n : ℤ}

@[simp] theorem size_resize (c : Caller) (sz : ℕ) (pgdir : Finset ℕ) :
    (c.resize sz pgdir).size = sz := by
  cases hm : c.master <;> simp [resize, size, hm]

@[simp] theorem pgdir_resize (c : Caller) (sz : ℕ) (pgdir : Finset ℕ) :
    (c.resize sz pgdir).pgdir = pgdir := by
  cases hm : c.master <;> simp [resize, hm]

@[simp] theorem resize_self (c : Caller) : c.resize c.size c.pgdir = c := by
  obtain ⟨sz, _ | m, pgdir⟩ := c <;> rfl

theorem newsz_pos (hk : c.size + k < 2 ^ 32) : c.newsz k = c.size + k := by
  rw [newsz, ← Nat.cast_add]
  omega

theorem newsz_neg (hk : k ≤ c.size) (hs : c.size < 2 ^ 32) : c.newsz (-k) = c.size - k := by
  rw [newsz]
  omega

theorem WellFormed.size_lt (h : c.WellFormed) : c.size < 2 ^ 32 := by
  have := h.size_le
  simp only [KERNBASE, EXTMEM] at this
  omega

theorem toInt_of_lt {x : ℕ} (h : x < 2 ^ 31) : toInt x = x := if_pos h

theorem toInt_neg {x : ℕ} (h : 2 ^ 31 ≤ x) (hx : x < 2 ^ 32) : toInt x < 0 := by
  rw [toInt, if_neg (by omega)]
  omega

/-! ### What `growproc` does -/

/-- The pages between the size and a larger one. -/
def above (c : Caller) (k : ℕ) : List ℕ := pageRange c.size (c.size + k)

variable (avail) in
/-- Growth past the kernel is refused. -/
theorem growproc_refused (h : 0 < k) (hn : k < 2 ^ 31) (hs : c.size < 2 ^ 32)
    (hk : KERNBASE ≤ c.size + k) : ∃ r < 0, c.growproc k avail = .ok (r, c) := by
  rw [growproc, if_pos (by omega), allocuvm]
  by_cases hz : KERNBASE ≤ c.newsz k
  · rw [if_pos hz]
    exact ⟨-1, by omega, rfl⟩
  · have hlt : c.newsz k < c.size ∧ 2 ^ 31 ≤ c.size := by
      simp only [newsz, KERNBASE] at *
      omega
    rw [if_neg hz, if_pos hlt.1]
    refine ⟨toInt c.size, toInt_neg hlt.2 hs, ?_⟩
    rw [Except.map, finish, if_neg (by omega), resize_self]

variable (avail) in
/-- Growth below the kernel. -/
theorem growproc_pos (ha : ∀ a ∈ c.pgdir, PGSIZE ∣ a) (h : 0 < k) (hk : c.size + k < KERNBASE) :
    c.growproc k avail =
      if Remaps avail c.pgdir c.size (c.size + k) then .error .remap
      else if (c.above k).length ≤ avail then
        .ok (c.size, c.resize (c.size + k) (c.pgdir ∪ (c.above k).toFinset))
      else .ok (-1, { c with pgdir := c.pgdir \ (c.above k).toFinset }) := by
  have hz : c.newsz k = c.size + k := newsz_pos (by simp only [KERNBASE] at hk; omega)
  have hi : toInt c.size = c.size := toInt_of_lt (by simp only [KERNBASE] at hk; omega)
  rw [growproc, if_pos (by omega), hz, allocuvm_eq avail ha (by omega) hk, ← above]
  split
  · rfl
  split
  · rw [Except.map, finish, if_neg (by omega), hi]
  · rfl

variable (avail) in
/-- The process does not shrink by more than its size. -/
theorem growproc_short (h : c.size < k) (hn : k ≤ 2 ^ 31) :
    c.growproc (-k) avail = .ok (if c.size = 0 then -1 else c.size, c) := by
  have hz : c.size ≤ c.newsz (-k) := by
    rw [newsz]
    omega
  rw [growproc, if_neg (by omega), if_pos (by omega), deallocuvm, if_pos hz]
  by_cases h0 : c.size = 0
  · simp [Except.map, finish, h0]
  · simp [Except.map, finish, h0, toInt_of_lt (by omega : c.size < 2 ^ 31)]

variable (avail) in
/-- The process shrinks, down to nothing at most. -/
theorem growproc_neg (h : 0 < k) (hk : k ≤ c.size) (hs : c.size < 2 ^ 32) :
    c.growproc (-k) avail =
      if max (PGROUNDUP (c.size - k)) KERNBASE < c.size then .error .kfree
      else .ok (c.finish (c.size - k,
        c.pgdir.filter fun a => ¬ (PGROUNDUP (c.size - k) ≤ a ∧ a < c.size))) := by
  rw [growproc, if_neg (by omega), if_pos (by omega), newsz_neg hk hs, deallocuvm,
    if_neg (by omega)]
  split <;> rfl

theorem growproc_zero : c.growproc 0 avail = .ok (toInt c.size, c) := rfl

/-! ### `sbrk` -/

/-- A call of `sbrk` returns the old size and moves the size by its argument, or changes
    neither the size nor the pages. -/
def Exact (c : Caller) (arg : Option ℤ) (avail : ℕ) : Prop :=
  ∀ r c', c.sysSbrk arg avail = .ok (r, c') →
    if r = -1 then c'.size = c.size ∧ c'.pgdir = c.pgdir
    else r = c.size ∧ ∀ n ∈ arg, -n ≤ c.size → c'.size = c.size + n

/-- Growth is refused or panics at once, fails with none of its pages mapped, or panics when
    it is asked for again. -/
def Grows (c : Caller) (k avail : ℕ) : Prop :=
  KERNBASE ≤ c.size + k ∨ Remaps avail c.pgdir c.size (c.size + k) ∨
    avail < (c.above k).length ∧ (∀ a ∈ c.above k, a ∉ c.pgdir) ∨
    c.size + 2 * k < KERNBASE ∧
      Remaps (avail - (c.above k).length) c.pgdir (c.size + k) (c.size + 2 * k)

/-- The process has less to give, nothing mapped to give, or less to give the second time;
    one past the kernel does not come back. -/
def Shrinks (c : Caller) (k : ℕ) : Prop :=
  c.size < k ∨ c.size = k ∧ (∀ a ∈ c.pgdir, c.size ≤ a) ∨
    k < c.size ∧ if c.size < KERNBASE then c.size < 2 * k
      else max (PGROUNDUP (c.size - k)) KERNBASE < c.size

/-- The calls that are exact. -/
def Settled (c : Caller) (arg : Option ℤ) (avail : ℕ) : Prop :=
  ∀ n ∈ arg, (0 < n → c.Grows n.toNat avail) ∧ (n < 0 → c.Shrinks (-n).toNat)

instance (c : Caller) (k avail : ℕ) : Decidable (c.Grows k avail) :=
  inferInstanceAs (Decidable (_ ∨ _ ∨ _ ∧ _ ∨ _ ∧ _))

instance (c : Caller) (k : ℕ) : Decidable (c.Shrinks k) :=
  inferInstanceAs (Decidable (_ ∨ _ ∧ _ ∨ _ ∧ _))

instance (c : Caller) (arg : Option ℤ) (avail : ℕ) : Decidable (c.Settled arg avail) :=
  inferInstanceAs (Decidable (∀ n ∈ arg, _))

theorem exact_of_eq {arg : Option ℤ} {r : ℤ} (h : c.sysSbrk arg avail = .ok (r, c')) :
    c.Exact arg avail ↔ if r = -1 then c'.size = c.size ∧ c'.pgdir = c.pgdir
      else r = c.size ∧ ∀ n ∈ arg, -n ≤ c.size → c'.size = c.size + n := by
  constructor
  · exact fun he => he r c' h
  · intro he r' d hd
    cases h.symm.trans hd
    exact he

theorem exact_of_error {arg : Option ℤ} {e : Panic} (h : c.sysSbrk arg avail = .error e) :
    c.Exact arg avail := by
  intro r c' hr
  cases h.symm.trans hr

instance (c : Caller) (arg : Option ℤ) (avail : ℕ) : Decidable (c.Exact arg avail) :=
  match h : c.sysSbrk arg avail with
  | .error _ => isTrue (exact_of_error h)
  | .ok (_, _) => decidable_of_iff' _ (exact_of_eq h)

section Calls

variable {c₁ c₂ : Caller} {addr r : ℤ} {e : Panic}

theorem sysSbrk_error (h : c.growproc n avail = .error e) :
    c.sysSbrk (some n) avail = .error e := by
  simp [sysSbrk, h]

theorem sysSbrk_neg (h : c.growproc n avail = .ok (addr, c₁)) (ha : addr < 0) :
    c.sysSbrk (some n) avail = .ok (-1, c₁) := by
  simp [sysSbrk, h, ha]

theorem sysSbrk_again_error (h : c.growproc n avail = .ok (addr, c₁)) (ha : 0 ≤ addr)
    (h₁ : c₁.growproc n (avail - (c₁.pgdir \ c.pgdir).card) = .error e) :
    c.sysSbrk (some n) avail = .error e := by
  simp [sysSbrk, h, ha.not_gt, h₁]

theorem sysSbrk_again_neg (h : c.growproc n avail = .ok (addr, c₁)) (ha : 0 ≤ addr)
    (h₁ : c₁.growproc n (avail - (c₁.pgdir \ c.pgdir).card) = .ok (r, c₂)) (hr : r < 0) :
    c.sysSbrk (some n) avail = .ok (-1, c₂) := by
  simp [sysSbrk, h, ha.not_gt, h₁, hr]

theorem sysSbrk_again (h : c.growproc n avail = .ok (addr, c₁)) (ha : 0 ≤ addr)
    (h₁ : c₁.growproc n (avail - (c₁.pgdir \ c.pgdir).card) = .ok (r, c₂)) (hr : 0 ≤ r) :
    c.sysSbrk (some n) avail = .ok (addr, c₂) := by
  simp [sysSbrk, h, ha.not_gt, h₁, hr.not_gt]

end Calls

theorem exact_zero (hs : c.size < 2 ^ 32) : c.Exact (some 0) avail := by
  have hz : c.growproc 0 avail = .ok (toInt c.size, c) := growproc_zero
  by_cases h : c.size < 2 ^ 31
  · have hi := toInt_of_lt h
    rw [exact_of_eq (sysSbrk_again hz (by omega) growproc_zero (by omega)), if_neg (by omega)]
    exact ⟨hi, by simp⟩
  · rw [exact_of_eq (sysSbrk_neg hz (toInt_neg (by omega) hs)), if_pos rfl]
    exact ⟨rfl, rfl⟩

theorem remaps_zero (pgdir : Finset ℕ) (oldsz newsz : ℕ) : ¬ Remaps 0 pgdir oldsz newsz := by
  simp [Remaps]

/-- The pages of the second growth are none of the first. -/
theorem remaps_grown (hk : c.size + k + PGSIZE ≤ 2 ^ 32) {avail newsz : ℕ} :
    Remaps avail (c.pgdir ∪ (c.above k).toFinset) (c.size + k) newsz ↔
      Remaps avail c.pgdir (c.size + k) newsz := by
  refine exists_congr fun a => and_congr_right fun ha => ?_
  rw [Finset.mem_union, List.mem_toFinset, or_iff_left]
  intro h
  have h₁ := (mem_pageRange hk).1 (List.mem_of_mem_take ha)
  have h₂ := (mem_pageRange (by omega)).1 h
  exact absurd h₁.2.1 (by have := h₂.2.2; omega)

/-- The frames that the first growth takes. -/
theorem card_grown (hr : ∀ a ∈ c.above k, a ∉ c.pgdir) :
    ((c.pgdir ∪ (c.above k).toFinset) \ c.pgdir).card = (c.above k).length := by
  have hd : Disjoint (c.above k).toFinset c.pgdir :=
    Finset.disjoint_left.2 fun a ha => hr a (List.mem_toFinset.1 ha)
  rw [Finset.union_sdiff_left, hd.sdiff_eq_left]
  exact List.toFinset_card_of_nodup (pageRange_nodup _ _)

/-- The process grew: growth is exact if it panics the second time. -/
theorem exact_grown (ha : ∀ a ∈ c.pgdir, PGSIZE ∣ a) (h : 0 < k) (hk : c.size + k < KERNBASE)
    (hr : ∀ a ∈ c.above k, a ∉ c.pgdir)
    (hg : c.growproc k avail =
      .ok (c.size, c.resize (c.size + k) (c.pgdir ∪ (c.above k).toFinset))) :
    c.Exact (some k) avail ↔ c.size + 2 * k < KERNBASE ∧
      Remaps (avail - (c.above k).length) c.pgdir (c.size + k) (c.size + 2 * k) := by
  have hlt : c.size + k < 2 ^ 31 := hk
  have hk' : c.size + k + PGSIZE ≤ 2 ^ 32 := by
    rw [PGSIZE]
    omega
  set d := c.resize (c.size + k) (c.pgdir ∪ (c.above k).toFinset) with hd
  have hsz : d.size = c.size + k := size_resize _ _ _
  have hpg : d.pgdir = c.pgdir ∪ (c.above k).toFinset := pgdir_resize _ _ _
  have hda : ∀ a ∈ d.pgdir, PGSIZE ∣ a := by
    intro a h
    rw [hpg, Finset.mem_union, List.mem_toFinset] at h
    rcases h with h | h
    · exact ha a h
    · exact ((mem_pageRange (by omega)).1 h).1
  have hcard : (d.pgdir \ c.pgdir).card = (c.above k).length := by rw [hpg, card_grown hr]
  have hadd : c.size + k + k = c.size + 2 * k := by omega
  by_cases hk₂ : KERNBASE ≤ c.size + 2 * k
  · obtain ⟨r, hr, he⟩ := growproc_refused (avail - (d.pgdir \ c.pgdir).card) h
      (by omega) (by omega : d.size < 2 ^ 32) (by omega)
    rw [exact_of_eq (sysSbrk_again_neg hg (by omega) he hr), if_pos rfl]
    exact iff_of_false (fun he => by omega) (by omega)
  · have hg₂ := growproc_pos (avail - (d.pgdir \ c.pgdir).card) hda h (by omega)
    have hiff : Remaps (avail - (d.pgdir \ c.pgdir).card) d.pgdir d.size (d.size + k) ↔
        Remaps (avail - (c.above k).length) c.pgdir (c.size + k) (c.size + 2 * k) := by
      rw [hcard, hsz, hpg, hadd, remaps_grown hk']
    rw [← hiff]
    by_cases hr₂ : Remaps (avail - (d.pgdir \ c.pgdir).card) d.pgdir d.size (d.size + k)
    · rw [if_pos hr₂] at hg₂
      exact iff_of_true (exact_of_error (sysSbrk_again_error hg (by omega) hg₂)) ⟨by omega, hr₂⟩
    refine iff_of_false (fun he => ?_) fun he => hr₂ he.2
    rw [if_neg hr₂] at hg₂
    split at hg₂
    · have := (he _ _ (sysSbrk_again hg (by omega) hg₂ (by omega)))
      rw [if_neg (by omega), size_resize, hsz] at this
      have := this.2 k rfl (by omega)
      omega
    · have := (he _ _ (sysSbrk_again_neg hg (by omega) hg₂ (by omega)))
      rw [if_pos rfl] at this
      have : d.size = c.size := this.1
      omega

/-- Growth is exact when it does not come to the second time. -/
theorem exact_pos (hc : c.WellFormed) (h : 0 < k) (hn : k < 2 ^ 31) :
    c.Exact (some k) avail ↔ c.Grows k avail := by
  have ha : ∀ a ∈ c.pgdir, PGSIZE ∣ a := fun a ha => (hc.page a ha).1
  by_cases hk : KERNBASE ≤ c.size + k
  · obtain ⟨r, hr, he⟩ := growproc_refused avail h hn hc.size_lt hk
    rw [exact_of_eq (sysSbrk_neg he hr), if_pos rfl]
    exact iff_of_true ⟨rfl, rfl⟩ (.inl hk)
  have hg := growproc_pos avail ha h (by omega)
  by_cases hr : Remaps avail c.pgdir c.size (c.size + k)
  · rw [if_pos hr] at hg
    exact iff_of_true (exact_of_error (sysSbrk_error hg)) (.inr (.inl hr))
  rw [if_neg hr] at hg
  by_cases hl : (c.above k).length ≤ avail
  · rw [if_pos hl] at hg
    have hfree : ∀ a ∈ c.above k, a ∉ c.pgdir := fun a ha hp =>
      hr ⟨a, by rwa [← above, List.take_of_length_le hl], hp⟩
    rw [exact_grown ha h (by omega) hfree hg, Grows]
    constructor
    · exact fun h => .inr (.inr (.inr h))
    · rintro (h | h | h | h)
      · exact absurd h hk
      · exact absurd h hr
      · exact absurd hl (by omega)
      · exact h
  · rw [if_neg hl] at hg
    rw [exact_of_eq (sysSbrk_neg hg (by omega)), if_pos rfl, Grows]
    have hsub : avail - (c.above k).length = 0 := by omega
    rw [hsub]
    constructor
    · rintro ⟨-, he⟩
      refine .inr (.inr (.inl ⟨by omega, fun a ha hp => ?_⟩))
      exact (Finset.mem_sdiff.1 (he.symm ▸ hp)).2 (List.mem_toFinset.2 ha)
    · rintro (h | h | h | h)
      · exact absurd h hk
      · exact absurd h hr
      · refine ⟨rfl, Finset.sdiff_eq_self_of_disjoint (Finset.disjoint_right.2 fun a ha => ?_)⟩
        exact h.2 a (List.mem_toFinset.1 ha)
      · exact absurd h.2 (remaps_zero _ _ _)

/-- The process shrinks once when it is asked for more than it has left after that. -/
theorem exact_shrunk {pgdir : Finset ℕ} (hk : 0 < k ∧ k < c.size) (hs : c.size < KERNBASE)
    (hg : c.growproc (-k) avail = .ok (c.size, c.resize (c.size - k) pgdir)) :
    c.Exact (some (-k)) avail ↔ c.size < 2 * k := by
  have hs' : c.size < 2 ^ 31 := hs
  set d := c.resize (c.size - k) pgdir with hd
  have hsz : d.size = c.size - k := size_resize _ _ _
  by_cases h : c.size < 2 * k
  · have hg₂ := growproc_short (avail - (d.pgdir \ c.pgdir).card)
      (by omega : d.size < k) (by omega)
    rw [if_neg (by omega)] at hg₂
    rw [exact_of_eq (sysSbrk_again hg (by omega) hg₂ (by omega)), if_neg (by omega)]
    refine iff_of_true ⟨rfl, fun n hn _ => ?_⟩ h
    cases hn
    omega
  · refine iff_of_false (fun he => ?_) h
    have hg₂ := growproc_neg (avail - (d.pgdir \ c.pgdir).card) hk.1
      (by omega : k ≤ d.size) (by omega)
    rw [if_neg (by omega), finish] at hg₂
    split at hg₂
    · have := he _ _ (sysSbrk_again_neg hg (by omega) hg₂ (by omega))
      rw [if_pos rfl] at this
      have : d.size = c.size := this.1
      omega
    · rw [toInt_of_lt (by omega)] at hg₂
      have := he _ _ (sysSbrk_again hg (by omega) hg₂ (by omega))
      rw [if_neg (by omega), size_resize] at this
      have := this.2 _ rfl (by omega)
      omega

/-- Shrinking is exact when there is nothing to take twice. -/
theorem exact_neg (hc : c.WellFormed) (h : 0 < k) (hn : k ≤ 2 ^ 31) :
    c.Exact (some (-k)) avail ↔ c.Shrinks k := by
  have hs := hc.size_lt
  have hK : KERNBASE = 2 ^ 31 := rfl
  rw [Shrinks]
  rcases lt_trichotomy c.size k with hlt | rfl | hlt
  · refine iff_of_true ?_ (.inl hlt)
    by_cases h0 : c.size = 0
    · have hg := growproc_short avail hlt hn
      rw [if_pos h0] at hg
      rw [exact_of_eq (sysSbrk_neg hg (by omega)), if_pos rfl]
      exact ⟨rfl, rfl⟩
    · have hg := fun avail => growproc_short avail hlt hn
      simp only [if_neg h0] at hg
      rw [exact_of_eq (sysSbrk_again (hg _) (by omega) (hg _) (by omega)), if_neg (by omega)]
      refine ⟨rfl, fun n hn hle => ?_⟩
      cases hn
      omega
  · have hg := growproc_neg avail h le_rfl hs
    rw [Nat.sub_self, if_neg (by simp [PGROUNDUP, PGSIZE]; omega), finish, if_pos rfl] at hg
    rw [exact_of_eq (sysSbrk_neg hg (by omega)), if_pos rfl]
    have hiff : (c.pgdir.filter fun a => ¬ (PGROUNDUP 0 ≤ a ∧ a < c.size)) = c.pgdir ↔
        ∀ a ∈ c.pgdir, c.size ≤ a := by
      simp [Finset.filter_eq_self, PGROUNDUP, PGSIZE]
    constructor
    · exact fun he => .inr (.inl ⟨rfl, hiff.1 he.2⟩)
    · rintro (h | h | h)
      · exact absurd h (lt_irrefl _)
      · exact ⟨rfl, hiff.2 h.2⟩
      · exact absurd h.1 (lt_irrefl _)
  · have hor : ∀ p : Prop, (c.size < k ∨ c.size = k ∧ (∀ a ∈ c.pgdir, c.size ≤ a) ∨
        k < c.size ∧ p) ↔ p := by
      intro p
      constructor
      · rintro (h | h | h)
        · omega
        · omega
        · exact h.2
      · exact fun h => .inr (.inr ⟨hlt, h⟩)
    rw [hor]
    have hg := growproc_neg avail h hlt.le hs
    by_cases hp : max (PGROUNDUP (c.size - k)) KERNBASE < c.size
    · rw [if_pos hp] at hg
      rw [if_neg (by omega)]
      exact iff_of_true (exact_of_error (sysSbrk_error hg)) hp
    rw [if_neg hp, finish, if_neg (by dsimp only; omega)] at hg
    by_cases hb : c.size < KERNBASE
    · rw [toInt_of_lt (by omega)] at hg
      rw [if_pos hb, exact_shrunk ⟨h, hlt⟩ hb hg]
    · rw [exact_of_eq (sysSbrk_neg hg (toInt_neg (by omega) hs)), if_pos rfl, size_resize,
        if_neg hb]
      exact iff_of_false (by omega) hp

/-- `sbrk` is exact for the calls that come to one step of `growproc` at most. -/
theorem sbrk_exact_iff {arg : Option ℤ} (hc : c.WellFormed)
    (hn : ∀ n ∈ arg, -2 ^ 31 ≤ n ∧ n < 2 ^ 31) : c.Exact arg avail ↔ c.Settled arg avail := by
  cases arg with
  | none =>
    have hr : c.sysSbrk none avail = .ok (-1, c) := rfl
    rw [exact_of_eq hr]
    simp [Settled]
  | some n =>
    obtain ⟨hlo, hhi⟩ := hn n rfl
    rcases lt_trichotomy n 0 with hneg | rfl | hpos
    · obtain ⟨k, rfl⟩ : ∃ k : ℕ, n = -k := ⟨(-n).toNat, by omega⟩
      have hk : 0 < k := by omega
      rw [exact_neg hc hk (by omega)]
      simp [Settled, hk]
    · exact iff_of_true (exact_zero hc.size_lt) (by simp [Settled])
    · obtain ⟨k, rfl⟩ : ∃ k : ℕ, n = k := ⟨n.toNat, by omega⟩
      have hk : 0 < k := by omega
      rw [exact_pos hc hk (by omega)]
      simp [Settled, hk]

/-- A thread asks for fewer pages than the process would have left to give twice. -/
theorem sbrk_exact_shrink :
    (⟨8192, some 16384, {0, 4096, 8192, 12288}⟩ : Caller).Exact (some (-12288)) 0 :=
  (sbrk_exact_iff ⟨by decide, by decide⟩ (by decide)).2 (by decide)

/-- A process of one page asks for another, and gets two. -/
theorem sbrk_grows_twice : ¬ (⟨4096, none, {0}⟩ : Caller).Exact (some 4096) 2 := by
  decide +kernel

end Caller

/-! ### The processes of the system -/

namespace Space

/-- What holds of an address space, whatever its threads call. -/
structure Bounded (s : Space) : Prop where
  sz_le : s.sz ≤ KERNBASE + 2 * PGSIZE * s.regions.length
  length_lt : s.regions.length < nproc
  page : ∀ a ∈ s.pgdir, PGSIZE ∣ a ∧ a < KERNBASE

variable {s s' : Space} {e : SpaceCall} {avail : ℕ}

theorem Bounded.stackAt {v : ℕ} (h : Bounded { s with emptyMem := v :: s.emptyMem })
    (he : s.stackAt v avail = .ok s') : Bounded s' := by
  obtain ⟨r, hr, rfl⟩ := map_eq_ok he
  have hlen : (v :: s.threads.map Thread.virAdd ++ s.emptyMem).length =
      (s.threads.map Thread.virAdd ++ v :: s.emptyMem).length := by
    simp [Nat.add_assoc]
  exact ⟨hlen ▸ h.sz_le, hlen ▸ h.length_lt, (allocuvm_page h.page hr).2⟩

/-- A region above the size keeps to the bound. -/
theorem Bounded.reserve (h : Bounded s) (hm : s.emptyMem = [])
    (hn : s.threads.length < nproc - 1) :
    Bounded { s with sz := (s.sz + 2 * PGSIZE) % 2 ^ 32, emptyMem := [s.sz] } := by
  have hlen : s.regions.length = s.threads.length := by simp [regions, hm]
  have hsz := h.sz_le
  have hmod := Nat.mod_le (s.sz + 2 * PGSIZE) (2 ^ 32)
  refine ⟨?_, ?_, h.page⟩
  · simp only [regions, List.length_append, List.length_map, List.length_singleton]
    rw [hlen] at hsz
    rw [Nat.mul_add]
    omega
  · simp only [regions, List.length_append, List.length_map, List.length_singleton]
    omega

theorem Bounded.threadCreate (h : Bounded s) (hn : s.threads.length < nproc - 1)
    (he : s.threadCreate avail = .ok s') : Bounded s' := by
  rw [Space.threadCreate] at he
  cases hm : s.emptyMem with
  | nil =>
    rw [hm] at he
    have hr := h.reserve hm hn
    exact Bounded.stackAt
      (s := { s with sz := (s.sz + 2 * PGSIZE) % 2 ^ 32, emptyMem := [] }) hr he
  | cons v vs =>
    rw [hm] at he
    refine Bounded.stackAt (s := { s with emptyMem := vs }) ?_ he
    dsimp only
    rw [← hm]
    exact h

/-- The region of a thread moves to `empty_mem`. -/
theorem Bounded.threadJoin (h : Bounded s) {tid : ℕ} (he : s.threadJoin tid = some (.ok s')) :
    Bounded s' := by
  obtain ⟨x, hfind, he⟩ := Option.map_eq_some_iff.1 he
  obtain ⟨r, hr, rfl⟩ := map_eq_ok he
  have hx := List.mem_of_find?_eq_some hfind
  have hlen : ((s.threads.eraseP fun x => x.tid = tid ∧ x.zombie).map Thread.virAdd ++
      x.virAdd :: s.emptyMem).length = s.regions.length := by
    have := List.length_pos_of_mem hx
    simp only [regions, List.length_append, List.length_map, List.length_cons,
      List.length_eraseP_of_mem hx (List.find?_some hfind)]
    omega
  exact ⟨hlen ▸ h.sz_le, hlen ▸ h.length_lt,
    fun a ha => h.page a ((deallocuvm_sub hr).2 ha)⟩

/-- The size passes the kernel by stacks only. -/
theorem Bounded.growproc (h : Bounded s) {n : ℤ} (he : s.growproc n avail = .ok s') :
    Bounded s' := by
  have hsz := h.sz_le
  rw [Space.growproc] at he
  split at he
  · obtain ⟨r, hr, rfl⟩ := map_eq_ok he
    obtain ⟨hle, hp⟩ := allocuvm_page h.page hr
    refine ⟨?_, h.length_lt, hp⟩
    change (if r.1 = 0 then s.sz else r.1) ≤ KERNBASE + 2 * PGSIZE * s.regions.length
    split <;> omega
  split at he
  · obtain ⟨r, hr, rfl⟩ := map_eq_ok he
    obtain ⟨hle, hp⟩ := deallocuvm_sub hr
    refine ⟨?_, h.length_lt, fun a ha => h.page a (hp ha)⟩
    change (if r.1 = 0 then s.sz else r.1) ≤ KERNBASE + 2 * PGSIZE * s.regions.length
    split <;> omega
  · cases he
    exact h

/-- The invariant holds through every call. -/
theorem Bounded.step (h : Bounded s) (he : s.step e = some s') : Bounded s' := by
  obtain ⟨r, hc, hs⟩ := Option.bind_eq_some_iff.1 he
  cases r with
  | error p => cases hs
  | ok t =>
    obtain rfl := Option.some.inj hs
    cases e with
    | threadCreate avail =>
      simp only [Space.call, Option.ite_none_right_eq_some, Option.some.injEq] at hc
      exact h.threadCreate hc.1 hc.2
    | threadExit tid =>
      simp only [Space.call, Option.ite_none_right_eq_some, Option.some.injEq] at hc
      cases hc.2
      have hlen : (s.threadExit tid).regions.length = s.regions.length := by
        simp [regions, Space.threadExit]
      exact ⟨hlen ▸ h.sz_le, hlen ▸ h.length_lt, h.page⟩
    | threadJoin tid => exact h.threadJoin hc
    | growproc n avail => exact h.growproc (Option.some.inj hc)

theorem bounded_boot {sz₀ : ℕ} (h₀ : sz₀ ≤ KERNBASE) : Bounded (boot sz₀) where
  sz_le := by simpa [boot, regions] using h₀
  length_lt := by simp [boot, regions, nproc]
  page a ha := by
    have := page_of_mem (List.mem_toFinset.1 ha)
    exact ⟨this.1, by omega⟩

/-- The process of a caller. -/
def Calls (s : Space) (c : Caller) : Prop := c.size = s.sz ∧ c.pgdir = s.pgdir

/-- A caller, in every state of the system. -/
theorem wellFormed_of_run {sz₀ : ℕ} (h₀ : sz₀ ≤ KERNBASE) {es : List SpaceCall}
    (hr : Trace.run Space.step (boot sz₀) es = some s) {c : Caller} (hc : s.Calls c) :
    c.WellFormed := by
  have h : Bounded s := Trace.run_inv (P := fun _ _ => True)
    (fun _ _ _ h _ he => h.step he) (bounded_boot h₀)
    (Trace.along_of_forall fun _ _ _ => trivial) hr
  refine ⟨?_, hc.2 ▸ h.page⟩
  have := h.sz_le
  have := h.length_lt
  rw [hc.1]
  simp only [KERNBASE, EXTMEM, PGSIZE, nproc] at *
  omega

/-- `growproc` is the step of the address space. -/
theorem growproc_eq {c : Caller} (hc : s.Calls c) (n : ℤ) :
    (s.growproc n avail).map (fun s => (s.sz, s.pgdir)) =
      (c.growproc n avail).map fun r => (r.2.size, r.2.pgdir) := by
  obtain ⟨hs, hp⟩ := hc
  have hz : c.newsz n = s.newsz n := by rw [Caller.newsz, hs, Space.newsz]
  have hfin : ∀ r : ℕ × Finset ℕ, ((c.finish r).2.size, (c.finish r).2.pgdir) =
      (if r.1 = 0 then s.sz else r.1, r.2) := by
    intro r
    rw [Caller.finish]
    split
    · exact congrArg (·, r.2) hs
    · simp
  rw [Space.growproc, Caller.growproc, hs, hp, hz]
  split
  · cases allocuvm avail s.pgdir s.sz (s.newsz n) with
    | error p => rfl
    | ok r => exact congrArg Except.ok (hfin r).symm
  split
  · cases deallocuvm s.pgdir s.sz (s.newsz n) with
    | error p => rfl
    | ok r => exact congrArg Except.ok (hfin r).symm
  · simp [Except.map, hs, hp]

end Space
end Xv6
