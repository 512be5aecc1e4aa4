import Mathlib

/-!
# The user pages of an address space

`mappages`, `allocuvm` and `deallocuvm` on the set of the pages of a page table. Addresses
and sizes are 32 bits wide, and pages are named by their addresses. Frames and page
tables run out: `avail` is the number of pages that can be mapped before `kalloc` fails.

* `allocuvm_spec`: where no page of the range is mapped, `allocuvm` does not panic, and it
  maps all the pages of the range or none.
* `deallocuvm_spec`: `deallocuvm` unmaps the pages of the range and no others.
-/

namespace Xv6

def PGSIZE : ℕ := 4096

/-- The first address of the kernel. -/
def KERNBASE : ℕ := 0x80000000

def PGROUNDUP (sz : ℕ) : ℕ := (sz + (PGSIZE - 1)) % 2 ^ 32 / PGSIZE * PGSIZE

/-- The panics that end a call. -/
inductive Panic
  | remap
  | kfree
  deriving DecidableEq

namespace Vm

/-! ### The code -/

/-- The addresses the loops of `allocuvm` and `deallocuvm` go through. -/
def pageRange (oldsz newsz : ℕ) : List ℕ :=
  (List.range ((newsz - PGROUNDUP oldsz + (PGSIZE - 1)) / PGSIZE)).map fun i =>
    PGROUNDUP oldsz + PGSIZE * i

/-- Pages are unmapped. The kernel is mapped above `KERNBASE`, and its frames are none that
    `kfree` takes. -/
def deallocuvm (pgdir : Finset ℕ) (oldsz newsz : ℕ) : Except Panic (ℕ × Finset ℕ) :=
  if oldsz ≤ newsz then .ok (oldsz, pgdir)
  else if max (PGROUNDUP newsz) KERNBASE < oldsz then .error .kfree
  else .ok (newsz, pgdir.filter fun a => ¬ (PGROUNDUP newsz ≤ a ∧ a < oldsz))

/-- A frame is mapped, unless the page is. -/
def mappages (pgdir : Finset ℕ) (a : ℕ) : Except Panic (Finset ℕ) :=
  if a ∈ pgdir then .error .remap else .ok (insert a pgdir)

/-- The loop of `allocuvm`: whether it got through, and the pages. -/
def allocLoop : ℕ → Finset ℕ → List ℕ → Except Panic (Bool × Finset ℕ)
  | _, pgdir, [] => .ok (true, pgdir)
  | 0, pgdir, _ :: _ => .ok (false, pgdir)
  | avail + 1, pgdir, a :: as =>
    match mappages pgdir a with
    | .error e => .error e
    | .ok pgdir => allocLoop avail pgdir as

def allocuvm (avail : ℕ) (pgdir : Finset ℕ) (oldsz newsz : ℕ) : Except Panic (ℕ × Finset ℕ) :=
  if KERNBASE ≤ newsz then .ok (0, pgdir)
  else if newsz < oldsz then .ok (oldsz, pgdir)
  else
    match allocLoop avail pgdir (pageRange oldsz newsz) with
    | .error e => .error e
    | .ok (true, pgdir) => .ok (newsz, pgdir)
    | .ok (false, pgdir) => (deallocuvm pgdir newsz oldsz).map fun r => (0, r.2)

/-! ### Page addresses -/

variable {avail oldsz newsz r a : ℕ} {pgdir pgdir' : Finset ℕ}

/-- A page lies in a range if its address does. -/
def InRange (oldsz newsz a : ℕ) : Prop := PGSIZE ∣ a ∧ oldsz ≤ a ∧ a < newsz

instance : DecidablePred (InRange oldsz newsz) :=
  fun _ => inferInstanceAs (Decidable (_ ∧ _ ∧ _))

theorem pgroundup_le_iff (h : oldsz + PGSIZE ≤ 2 ^ 32) (ha : PGSIZE ∣ a) :
    PGROUNDUP oldsz ≤ a ↔ oldsz ≤ a := by
  obtain ⟨k, rfl⟩ := ha
  simp only [PGROUNDUP, PGSIZE] at h ⊢
  omega

theorem dvd_pgroundup (x : ℕ) : PGSIZE ∣ PGROUNDUP x := Nat.dvd_mul_left _ _

/-- The pages of a range are those that the loops go through. -/
theorem mem_pageRange (h : oldsz + PGSIZE ≤ 2 ^ 32) :
    a ∈ pageRange oldsz newsz ↔ InRange oldsz newsz a := by
  simp only [pageRange, List.mem_map, List.mem_range, InRange]
  constructor
  · rintro ⟨i, hi, rfl⟩
    have ha : PGSIZE ∣ PGROUNDUP oldsz + PGSIZE * i :=
      (Nat.dvd_add_right (dvd_pgroundup _)).2 (Nat.dvd_mul_right _ _)
    refine ⟨ha, (pgroundup_le_iff h ha).1 (Nat.le_add_right _ _), ?_⟩
    simp only [PGSIZE] at hi ⊢
    omega
  · rintro ⟨ha, ho, hn⟩
    have hle := (pgroundup_le_iff h ha).2 ho
    obtain ⟨k, rfl⟩ := ha
    obtain ⟨j, hj⟩ := dvd_pgroundup oldsz
    refine ⟨k - j, ?_, ?_⟩ <;> simp only [PGSIZE] at * <;> omega

variable (oldsz newsz) in
theorem pageRange_nodup : (pageRange oldsz newsz).Nodup := by
  refine (List.nodup_range).map fun i j hij => ?_
  simp only [PGSIZE] at hij
  omega

/-! ### What the calls do -/

variable (avail) in
theorem allocLoop_spec {as : List ℕ} (hn : as.Nodup) (hf : ∀ a ∈ as, a ∉ pgdir) :
    ∃ b pgdir', allocLoop avail pgdir as = .ok (b, pgdir') ∧ pgdir ⊆ pgdir' ∧
      (∀ a ∈ pgdir', a ∈ pgdir ∨ a ∈ as) ∧ (b = true → ∀ a ∈ as, a ∈ pgdir') := by
  induction as generalizing avail pgdir with
  | nil => exact ⟨true, pgdir, by cases avail <;> rfl, Finset.Subset.refl _, by simp, by simp⟩
  | cons a as ih =>
    cases avail with
    | zero => exact ⟨false, pgdir, rfl, Finset.Subset.refl _, fun _ h => .inl h, nofun⟩
    | succ avail =>
      obtain ⟨ha, hn⟩ := List.nodup_cons.1 hn
      have hf' : ∀ b ∈ as, b ∉ insert a pgdir := by
        intro b hb hmem
        rcases Finset.mem_insert.1 hmem with rfl | hmem
        · exact ha hb
        · exact hf b (List.mem_cons_of_mem _ hb) hmem
      obtain ⟨b, pgdir', he, hsub, hnew, hall⟩ := ih avail hn hf'
      refine ⟨b, pgdir', ?_, fun x hx => hsub (Finset.mem_insert_of_mem hx), ?_, ?_⟩
      · simp only [allocLoop, mappages, if_neg (hf a List.mem_cons_self), he]
      · intro x hx
        rcases hnew x hx with hx | hx
        · rcases Finset.mem_insert.1 hx with rfl | hx
          · exact .inr List.mem_cons_self
          · exact .inl hx
        · exact .inr (List.mem_cons_of_mem _ hx)
      · intro hb x hx
        rcases List.mem_cons.1 hx with rfl | hx
        · exact hsub (Finset.mem_insert_self _ _)
        · exact hall hb x hx

/-- `deallocuvm` unmaps the pages of the range. -/
theorem deallocuvm_spec (ha : ∀ a ∈ pgdir, PGSIZE ∣ a) (hn : newsz + PGSIZE ≤ 2 ^ 32)
    (h : deallocuvm pgdir oldsz newsz = .ok (r, pgdir')) :
    (∀ a, a ∈ pgdir' ↔ a ∈ pgdir ∧ ¬ InRange newsz oldsz a) ∧ r = min oldsz newsz := by
  rw [deallocuvm] at h
  split at h
  · cases h
    refine ⟨fun a => ⟨fun h => ⟨h, fun hr => ?_⟩, fun h => h.1⟩, by omega⟩
    have := hr.2
    omega
  · split at h
    · cases h
    · cases h
      refine ⟨fun a => ?_, by omega⟩
      rw [Finset.mem_filter]
      refine and_congr_right fun hmem => not_congr ?_
      rw [pgroundup_le_iff hn (ha a hmem), InRange]
      exact (and_iff_right (ha a hmem)).symm

theorem deallocuvm_ne_remap : deallocuvm pgdir oldsz newsz ≠ .error .remap := by
  rw [deallocuvm]
  split
  · nofun
  · split <;> nofun

variable (newsz pgdir) in
/-- Below the kernel, `deallocuvm` does not panic. -/
theorem deallocuvm_ok (h : oldsz ≤ KERNBASE) : ∃ r, deallocuvm pgdir oldsz newsz = .ok r := by
  rw [deallocuvm]
  split
  · exact ⟨_, rfl⟩
  · rw [if_neg (by omega)]
    exact ⟨_, rfl⟩

variable (avail) in
/-- Where no page of the range is mapped, `allocuvm` maps them all, or none. -/
theorem allocuvm_spec (ha : ∀ a ∈ pgdir, PGSIZE ∣ a) (ho : oldsz + PGSIZE ≤ 2 ^ 32)
    (hf : ∀ a ∈ pgdir, ¬ InRange oldsz newsz a) :
    ∃ r pgdir', allocuvm avail pgdir oldsz newsz = .ok (r, pgdir') ∧
      (pgdir' = pgdir ∧ (r = 0 ∨ r = oldsz ∧ newsz < oldsz) ∨
        r = newsz ∧ oldsz ≤ newsz ∧ newsz < KERNBASE ∧
          ∀ a, a ∈ pgdir' ↔ a ∈ pgdir ∨ InRange oldsz newsz a) := by
  rw [allocuvm]
  split
  · exact ⟨0, pgdir, rfl, .inl ⟨rfl, .inl rfl⟩⟩
  split
  · rename_i hlt
    exact ⟨oldsz, pgdir, rfl, .inl ⟨rfl, .inr ⟨rfl, hlt⟩⟩⟩
  obtain ⟨b, pgdir₁, he, hsub, hnew, hall⟩ := allocLoop_spec avail
    (pageRange_nodup oldsz newsz) fun a hr hmem => hf a hmem ((mem_pageRange ho).1 hr)
  simp only [mem_pageRange ho] at hnew hall
  rw [he]
  cases b with
  | true =>
    refine ⟨newsz, pgdir₁, rfl, .inr ⟨rfl, by omega, by omega, fun a => ⟨hnew a, ?_⟩⟩⟩
    rintro (h | h)
    · exact hsub h
    · exact hall rfl a h
  | false =>
    -- The pages that were mapped are given back.
    have ha₁ : ∀ a ∈ pgdir₁, PGSIZE ∣ a := fun a h => (hnew a h).elim (ha a) fun h => h.1
    obtain ⟨⟨r, pgdir₂⟩, hd⟩ := deallocuvm_ok oldsz pgdir₁ (by omega : newsz ≤ KERNBASE)
    obtain ⟨hmem, -⟩ := deallocuvm_spec ha₁ ho hd
    refine ⟨0, pgdir₂, by simp [hd, Except.map], .inl ⟨?_, .inl rfl⟩⟩
    ext a
    rw [hmem]
    constructor
    · rintro ⟨h, hr⟩
      exact (hnew a h).resolve_right hr
    · exact fun h => ⟨hsub h, hf a h⟩

end Vm
end Xv6
