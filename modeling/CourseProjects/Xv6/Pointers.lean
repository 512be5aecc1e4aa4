import CourseProjects.Xv6.Sbrk

/-!
# The checks of user pointers

`fetchint`, `fetchstr` and `argptr` compare an address that a system call gets from its
process with the size of the calling thread. The size of the first thread moves with
`growproc` and `thread_create`; that of another thread is the end of its stack.

* `pointers_agree_iff`: the checks return the same to all the threads of a process, and accept
  what is in the heap or in a stack, exactly if all the threads that call have the size of the
  first one, and no stack is mapped at or above it.
-/

namespace Xv6

open Vm

/-! ### The checks -/

/-- The user memory: a page that is not mapped is a fault, in the kernel too. -/
abbrev Memory := ℕ → Option UInt8

/-- `fetchint` in a thread of size `sz`, without the value; `none` is a page fault. -/
def fetchint (mem : Memory) (sz : ℕ) (addr : UInt32) : Option ℤ :=
  if sz ≤ addr.toNat ∨ sz < (addr + 4).toNat then some (-1)
  else if (List.range 4).all fun i => (mem (addr.toNat + i)).isSome then some 0
  else none

/-- The loop of `fetchstr` over the `n` bytes from `s` on. -/
def strScan (mem : Memory) (addr : ℕ) : (n s : ℕ) → Option ℤ
  | 0, _ => some (-1)
  | n + 1, s =>
    match mem s with
    | none => none
    | some b => if b = 0 then some (s - addr) else strScan mem addr n (s + 1)

def fetchstr (mem : Memory) (sz : ℕ) (addr : UInt32) : Option ℤ :=
  if sz ≤ addr.toNat then some (-1)
  else strScan mem addr.toNat (sz - addr.toNat) addr.toNat

/-- `argptr`, once `argint` has fetched the pointer. -/
def argptr (sz : ℕ) (i : UInt32) (size : ℤ) : ℤ :=
  if size < 0 ∨ sz ≤ i.toNat ∨ sz < (i.toNat + size) % 2 ^ 32 then -1 else 0

variable {mem : Memory} {sz n : ℕ} {addr i : UInt32} {size : ℤ}

/-- A range below the size. -/
def Below (sz : ℕ) (addr : UInt32) (n : ℕ) : Prop := 0 < n ∧ addr.toNat + n ≤ sz

theorem fetchint_below (h : Below sz addr 4) (hsz : sz < 2 ^ 32)
    (hm : ∀ k < 4, (mem (addr.toNat + k)).isSome) : fetchint mem sz addr = some 0 := by
  have hadd : (addr + 4).toNat = addr.toNat + 4 := by
    rw [UInt32.toNat_add]
    exact Nat.mod_eq_of_lt (h.2.trans_lt hsz)
  have := h.2
  rw [fetchint, if_neg (by omega), if_pos (by simpa using hm)]

theorem argptr_below (h : Below sz i n) (hsz : sz < 2 ^ 32) : argptr sz i n = 0 := by
  obtain ⟨hn, hle⟩ := h
  rw [argptr, if_neg (by omega)]

/-- A byte at or above the size is refused. -/
theorem argptr_above (h : sz ≤ i.toNat) (size : ℤ) : argptr sz i size = -1 :=
  if_pos (.inr (.inl h))

/-- The loop finds a string that ends within the bytes left. -/
theorem strScan_found {s k : ℕ} (hk : k < n) (hm : ∀ j < k, ∃ b ≠ 0, mem (s + j) = some b)
    (h0 : mem (s + k) = some 0) (addr : ℕ) :
    strScan mem addr n s = some ((s + k : ℕ) - addr : ℤ) := by
  induction k generalizing n s with
  | zero =>
    obtain ⟨n, rfl⟩ := Nat.exists_eq_succ_of_ne_zero (Nat.ne_of_gt hk)
    rw [Nat.add_zero] at h0
    rw [strScan, h0]
    rfl
  | succ k ih =>
    obtain ⟨n, rfl⟩ := Nat.exists_eq_succ_of_ne_zero (Nat.ne_zero_of_lt hk)
    obtain ⟨b, hb, hs⟩ := hm 0 (Nat.succ_pos k)
    rw [Nat.add_zero] at hs
    have hadd : ∀ j, s + 1 + j = s + (j + 1) := fun j => by omega
    have hnext := ih (n := n) (s := s + 1) (by omega)
      (fun j hj => hadd j ▸ hm (j + 1) (by omega)) (hadd k ▸ h0)
    rw [strScan, hs]
    simp only [if_neg hb, hnext]
    congr 2
    omega

theorem fetchstr_below (h : Below sz addr (n + 1))
    (hm : ∀ j < n, ∃ b ≠ 0, mem (addr.toNat + j) = some b)
    (h0 : mem (addr.toNat + n) = some 0) : fetchstr mem sz addr = some n := by
  have := h.2
  rw [fetchstr, if_neg (by omega), strScan_found (by omega) hm h0]
  congr 1
  omega

/-! ### The threads of a process -/

namespace Space

variable {s s' : Space} {e : SpaceCall} {avail : ℕ} {bytes : ℕ → UInt8}

/-- The sizes of the threads that may call: the first one, and those that did not exit. -/
def sizes (s : Space) : List ℕ :=
  s.sz :: (s.threads.filter fun x => !x.zombie).map Thread.sz

/-- A byte on a page that is mapped. -/
def MappedByte (s : Space) (b : ℕ) : Prop := b / PGSIZE * PGSIZE ∈ s.pgdir

instance (s : Space) : DecidablePred s.MappedByte := fun _ => inferInstanceAs (Decidable (_ ∈ _))

/-- The memory of the process. -/
def memory (s : Space) (bytes : ℕ → UInt8) : Memory :=
  fun b => if s.MappedByte b then some (bytes b) else none

/-- A range of mapped bytes in the heap or in the stack of a thread. -/
def InRegion (s : Space) (a n : ℕ) : Prop :=
  0 < n ∧ (∀ b, a ≤ b → b < a + n → s.MappedByte b) ∧
    (a + n ≤ s.sz ∨ ∃ x ∈ s.threads, x.virAdd ≤ a ∧ a + n ≤ x.virAdd + 2 * PGSIZE)

/-- The checks return the same to all the threads, and accept the regions. -/
structure PointersAgree (s : Space) (bytes : ℕ → UInt8) : Prop where
  fetchint_eq : ∀ z ∈ s.sizes, ∀ z' ∈ s.sizes, ∀ addr,
    fetchint (s.memory bytes) z addr = fetchint (s.memory bytes) z' addr
  fetchstr_eq : ∀ z ∈ s.sizes, ∀ z' ∈ s.sizes, ∀ addr,
    fetchstr (s.memory bytes) z addr = fetchstr (s.memory bytes) z' addr
  argptr_eq : ∀ z ∈ s.sizes, ∀ z' ∈ s.sizes, ∀ i size, argptr z i size = argptr z' i size
  fetchint_accepts : ∀ z ∈ s.sizes, ∀ addr, s.InRegion addr.toNat 4 →
    fetchint (s.memory bytes) z addr = some 0
  fetchstr_accepts : ∀ z ∈ s.sizes, ∀ addr n, s.InRegion addr.toNat (n + 1) →
    (∀ j < n, bytes (addr.toNat + j) ≠ 0) → bytes (addr.toNat + n) = 0 →
    fetchstr (s.memory bytes) z addr = some n
  argptr_accepts : ∀ z ∈ s.sizes, ∀ i n, s.InRegion i.toNat n → argptr z i n = 0

/-- All the threads that call have the size of the first one, and no byte of a stack that is
    mapped lies at or above it. -/
def OneSize (s : Space) : Prop :=
  (∀ x ∈ s.threads, x.zombie = false → x.sz = s.sz) ∧
    ∀ x ∈ s.threads, ∀ b < x.virAdd + 2 * PGSIZE, x.virAdd ≤ b → s.MappedByte b → b < s.sz

/-! ### The sizes are those of 32 bits -/

/-- The regions and the sizes of the threads are addresses. -/
structure Narrow (s : Space) : Prop where
  region : ∀ v ∈ s.regions, v < 2 ^ 32
  thread : ∀ x ∈ s.threads, x.sz < 2 ^ 32

theorem Bounded.sz_lt (h : Bounded s) : s.sz < 2 ^ 32 := by
  have := h.sz_le
  have := h.length_lt
  simp only [KERNBASE, PGSIZE, nproc] at *
  omega

theorem Narrow.stackAt {v : ℕ} (h : Narrow { s with emptyMem := v :: s.emptyMem })
    (hp : ∀ a ∈ s.pgdir, PGSIZE ∣ a ∧ a < KERNBASE) (he : s.stackAt v avail = .ok s') :
    Narrow s' := by
  obtain ⟨r, hr, rfl⟩ := map_eq_ok he
  have hle := (allocuvm_page hp hr).1
  have hv : v < 2 ^ 32 := h.region v (by simp [regions])
  refine ⟨fun w hw => h.region w ?_, fun x hx => ?_⟩
  · simp only [regions, List.map_cons, List.cons_append, List.mem_cons, List.mem_append] at hw ⊢
    rcases hw with rfl | hw | hw
    · exact .inr (.inl rfl)
    · exact .inl hw
    · exact .inr (.inr hw)
  · have hmax : max v KERNBASE < 2 ^ 32 := max_lt hv (by simp [KERNBASE])
    rcases List.mem_cons.1 hx with rfl | hx
    · exact hle.trans_lt hmax
    · exact h.thread x hx

theorem Narrow.step (h : Narrow s) (hb : Bounded s) (he : s.step e = some s') : Narrow s' := by
  obtain ⟨r, hc, hs⟩ := Option.bind_eq_some_iff.1 he
  cases r with
  | error p => cases hs
  | ok t =>
    obtain rfl := Option.some.inj hs
    cases e with
    | threadCreate avail =>
      simp only [Space.call, Option.ite_none_right_eq_some, Option.some.injEq] at hc
      obtain ⟨-, hc⟩ := hc
      rw [Space.threadCreate] at hc
      split at hc
      · rename_i hm
        refine Narrow.stackAt (s := { s with sz := (s.sz + 2 * PGSIZE) % 2 ^ 32 }) ?_ hb.page hc
        refine ⟨fun v hv => ?_, h.thread⟩
        simp only [regions, hm, List.mem_append, List.mem_singleton] at hv
        rcases hv with hv | rfl
        · exact h.region v (List.mem_append_left _ hv)
        · exact hb.sz_lt
      · rename_i v vs hm
        refine Narrow.stackAt (s := { s with emptyMem := vs }) ⟨?_, h.thread⟩ hb.page hc
        simpa only [regions, hm] using h.region
    | threadExit tid =>
      simp only [Space.call, Option.ite_none_right_eq_some, Option.some.injEq] at hc
      cases hc.2
      refine ⟨fun v hv => h.region v ?_, fun x hx => ?_⟩
      · simpa [regions, Space.threadExit, apply_ite] using hv
      · obtain ⟨y, hy, rfl⟩ := List.mem_map.1 hx
        split
        · exact h.thread y hy
        · exact h.thread y hy
    | threadJoin tid =>
      obtain ⟨x, hfind, he⟩ := Option.map_eq_some_iff.1 hc
      obtain ⟨r, hr, rfl⟩ := map_eq_ok he
      have hx := List.mem_of_find?_eq_some hfind
      refine ⟨fun v hv => ?_, fun y hy => h.thread y (List.mem_of_mem_eraseP hy)⟩
      rcases List.mem_append.1 hv with hv | hv
      · obtain ⟨y, hy, rfl⟩ := List.mem_map.1 hv
        exact h.region _ (List.mem_append_left _ (List.mem_map_of_mem (List.mem_of_mem_eraseP hy)))
      · rcases List.mem_cons.1 hv with rfl | hv
        · exact h.region _ (List.mem_append_left _ (List.mem_map_of_mem hx))
        · exact h.region v (List.mem_append_right _ hv)
    | growproc n avail =>
      have hc := Option.some.inj hc
      rw [Space.growproc] at hc
      split at hc
      · obtain ⟨r, -, rfl⟩ := map_eq_ok hc
        exact ⟨h.region, h.thread⟩
      split at hc
      · obtain ⟨r, -, rfl⟩ := map_eq_ok hc
        exact ⟨h.region, h.thread⟩
      · cases hc
        exact h

/-- What every run keeps. -/
theorem narrow_of_run {sz₀ : ℕ} (h₀ : sz₀ ≤ KERNBASE) {es : List SpaceCall}
    (hr : Trace.run Space.step (boot sz₀) es = some s) : Bounded s ∧ Narrow s := by
  have hboot : Narrow (boot sz₀) := ⟨by simp [boot, regions], by simp [boot]⟩
  refine Trace.run_inv (I := fun s => Bounded s ∧ Narrow s) (P := fun _ _ => True) ?_
    ⟨bounded_boot h₀, hboot⟩ (Trace.along_of_forall fun _ _ _ => trivial) hr
  exact fun s e s' h _ he => ⟨h.1.step he, h.2.step h.1 he⟩

/-! ### When the checks agree -/

/-- Two sizes that differ are told apart by a byte. -/
theorem sz_le_of_argptr {z z' : ℕ} (hz : z < 2 ^ 32) (hz' : z' < 2 ^ 32)
    (h : ∀ i size, argptr z i size = argptr z' i size) : z' ≤ z := by
  by_contra hlt
  have hi : (UInt32.ofNat z).toNat = z := UInt32.toNat_ofNat_of_lt' hz
  have habove : argptr z (UInt32.ofNat z) 1 = -1 := argptr_above hi.ge 1
  have hbelow : argptr z' (UInt32.ofNat z) 1 = 0 :=
    argptr_below (n := 1) ⟨Nat.one_pos, by omega⟩ hz'
  rw [h, hbelow] at habove
  cases habove

/-- In every state of a process, the checks agree exactly if the threads have one size. -/
theorem pointers_agree_iff {sz₀ : ℕ} (h₀ : sz₀ ≤ KERNBASE) {es : List SpaceCall}
    (hr : Trace.run Space.step (boot sz₀) es = some s) (bytes : ℕ → UInt8) :
    PointersAgree s bytes ↔ s.OneSize := by
  obtain ⟨hb, hn⟩ := narrow_of_run h₀ hr
  have hmain : s.sz ∈ s.sizes := List.mem_cons_self
  have hlive : ∀ x ∈ s.threads, x.zombie = false → x.sz ∈ s.sizes := fun x hx hz =>
    List.mem_cons_of_mem _ (List.mem_map_of_mem (List.mem_filter.2 ⟨hx, by simpa using hz⟩))
  constructor
  · intro h
    refine ⟨fun x hx hz => le_antisymm ?_ ?_, fun x hx b hlt hle hm => ?_⟩
    · exact sz_le_of_argptr hb.sz_lt (hn.thread x hx)
        (h.argptr_eq _ hmain _ (hlive x hx hz))
    · exact sz_le_of_argptr (hn.thread x hx) hb.sz_lt
        (h.argptr_eq _ (hlive x hx hz) _ hmain)
    · have hb32 : b < 2 ^ 32 := by
        have := (hb.page _ hm).2
        simp only [KERNBASE, PGSIZE] at this
        omega
      have hi : (UInt32.ofNat b).toNat = b := UInt32.toNat_ofNat_of_lt' hb32
      have hreg : s.InRegion (UInt32.ofNat b).toNat 1 := by
        rw [hi]
        refine ⟨Nat.one_pos, fun c hc hc' => ?_, .inr ⟨x, hx, hle, hlt⟩⟩
        obtain rfl : c = b := by omega
        exact hm
      by_contra hge
      have := h.argptr_accepts _ hmain _ _ hreg
      rw [argptr_above (by omega)] at this
      cases this
  · rintro ⟨hsz, hstack⟩
    have hall : ∀ z ∈ s.sizes, z = s.sz := by
      intro z hz
      rcases List.mem_cons.1 hz with rfl | hz
      · rfl
      · obtain ⟨x, hx, rfl⟩ := List.mem_map.1 hz
        obtain ⟨hx, hl⟩ := List.mem_filter.1 hx
        exact hsz x hx (by simpa using hl)
    have hbelow : ∀ (a : UInt32) n, s.InRegion a.toNat n → Below s.sz a n := by
      rintro a n ⟨hpos, hm, hle | ⟨x, hx, hlo, hhi⟩⟩
      · exact ⟨hpos, hle⟩
      · -- The last byte of the range is below the size.
        have := hstack x hx (a.toNat + n - 1) (by omega) (by omega)
          (hm _ (by omega) (by omega))
        exact ⟨hpos, by omega⟩
    have hmem : ∀ {b : ℕ}, s.MappedByte b → s.memory bytes b = some (bytes b) := fun h => if_pos h
    refine ⟨?_, ?_, ?_, ?_, ?_, ?_⟩
    · intro z hz z' hz' addr
      rw [hall z hz, hall z' hz']
    · intro z hz z' hz' addr
      rw [hall z hz, hall z' hz']
    · intro z hz z' hz' i size
      rw [hall z hz, hall z' hz']
    · intro z hz addr hreg
      rw [hall z hz]
      refine fetchint_below (hbelow _ _ hreg) hb.sz_lt fun k hk => ?_
      rw [hmem (hreg.2.1 _ (by omega) (by omega))]
      rfl
    · intro z hz addr n hreg hne h0
      rw [hall z hz]
      refine fetchstr_below (hbelow _ _ hreg) (fun j hj => ⟨_, hne j hj, ?_⟩) ?_
      · exact hmem (hreg.2.1 _ (by omega) (by omega))
      · rw [hmem (hreg.2.1 _ (by omega) (by omega)), h0]
    · intro z hz i n hreg
      rw [hall z hz]
      exact argptr_below (hbelow _ _ hreg) hb.sz_lt

/-- A process with a thread, before it grows. -/
theorem pointers_agree_created : ∃ s, Trace.run Space.step (boot 4096)
    [.threadCreate 2] = some s ∧ ∀ bytes, PointersAgree s bytes := by
  obtain ⟨s, hr, hx⟩ : ∃ s ∈ Trace.run Space.step (boot 4096) [.threadCreate 2],
      ∀ x ∈ s.threads, x.sz = s.sz ∧ x.virAdd + 2 * PGSIZE ≤ s.sz := by decide +kernel
  refine ⟨s, hr, fun bytes => ?_⟩
  refine (pointers_agree_iff (by decide) hr bytes).2 ⟨fun x h _ => (hx x h).1, ?_⟩
  exact fun x h b hb _ _ => hb.trans_le (hx x h).2

/-- After the process has grown, its thread may not pass what it got to a system call. -/
theorem pointers_differ : ∃ s ∈ Trace.run Space.step (boot 4096)
    [.threadCreate 2, .growproc 4096 1], ∀ bytes, ¬ PointersAgree s bytes := by
  obtain ⟨s, hr, x, hx, hlive, heq⟩ : ∃ s ∈ Trace.run Space.step (boot 4096)
      [.threadCreate 2, .growproc 4096 1], ∃ x ∈ s.threads, x.zombie = false ∧
        argptr s.sz 12288 4 ≠ argptr x.sz 12288 4 := by decide +kernel
  refine ⟨s, hr, fun bytes h => heq (h.argptr_eq _ List.mem_cons_self _ ?_ _ _)⟩
  exact List.mem_cons_of_mem _ (List.mem_map_of_mem (List.mem_filter.2 ⟨hx, by simpa using hlive⟩))

end Space
end Xv6
