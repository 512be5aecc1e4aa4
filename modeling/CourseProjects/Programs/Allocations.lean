import CourseProjects.Programs.Malloc

/-!
# Runs of the memory allocator

A program calls `malloc` and `free` in any order, and writes what it likes into the blocks that
it has.

* `run_sound`: the calls return, the blocks do not overlap, and what `sbrk` has given is in them or
  in the ring, in which no two blocks could be one.
* `malloc_returns`: what a call of `malloc` returns, and when it is null.
-/

namespace Malloc

open Function SortedRing

variable {h : Heap} {S : Finset ℕ} {base a p q n u gap : ℕ}

/-! ### `morecore` -/

/-- What `morecore` does when `sbrk` has memory. -/
structure Extended (base : ℕ) (h : Heap) (S : Finset ℕ) (n gap : ℕ) (h' : Heap) (T : Finset ℕ) :
    Prop where
  freeList : FreeList base h' T
  freeUnit : ∀ u, h'.FreeUnit T u ↔
    h.FreeUnit S u ∨ (h.brk + gap ≤ u ∧ u < h.brk + gap + max n 4096)
  room : ∃ a ∈ T, n ≤ h'.size a
  header : ∀ u ∉ S, u ≠ h.brk + gap → h'.header u = h.header u
  brk : h'.brk = h.brk + gap + max n 4096
  areas : h'.areas = (h.brk + gap, max n 4096) :: h.areas

theorem FreeList.morecore (hl : FreeList base h S) (n gap : ℕ) :
    ∃ h' T, h.morecore n gap = some h' ∧ Extended base h S n gap h' T := by
  have hbase := hl.base_lt
  generalize hN : max n 4096 = N
  have hn : n ≤ N := hN ▸ le_max_left _ _
  have hpos : 0 < N := (by decide : 0 < 4096).trans_le (hN ▸ le_max_right _ _)
  generalize hh : ({ h with brk := h.brk + gap + N, areas := (h.brk + gap, N) :: h.areas } :
    Heap).setSize (h.brk + gap) N = h₀
  have hptr : h₀.ptr = h.ptr := by rw [← hh]; exact ptr_setSize
  have hsize (x : ℕ) : h₀.size x = if x = h.brk + gap then N else h.size x := by
    rw [← hh, size_setSize, update_apply]
    rfl
  have hsizeS (x : ℕ) (hx : x ∈ S) : h₀.size x = h.size x := by
    have := hl.lt_brk hx
    rw [hsize, if_neg (by omega)]
  have hbrk : h₀.brk = h.brk + gap + N := by rw [← hh]; rfl
  have hl₀ : FreeList base h₀ S := by
    refine ⟨hl.toLists.congr (fun a _ => congrFun hptr a) hsizeS (by omega), fun x hx htouch => ?_, ?_⟩
    · rw [Heap.Touch, hptr, hsizeS x hx] at htouch
      exact hl.coalesced x hx htouch
    · rw [← hh]
      exact hl.freep
  have hself : h₀.size (h.brk + gap) = N := by rw [hsize, if_pos rfl]
  have hloose : Loose base h₀ S (h.brk + gap) := by
    refine ⟨by omega, by omega, by omega, fun a ha => .inl ?_⟩
    have := hl.brk a ha
    rw [hsizeS a ha]
    omega
  obtain ⟨h', T, hfree, hfreed⟩ := hl₀.free hloose
  refine ⟨h', T, ?_, hfreed.freeList, fun u => ?_, ?_, fun u hu hne => ?_, ?_, ?_⟩
  · rw [Heap.morecore, hN, hh]
    exact hfree
  · rw [hfreed.freeUnit, hself, hN]
    refine or_congr_left (exists_congr fun x => and_congr_right fun hx => ?_)
    rw [hsizeS x hx]
  · obtain ⟨a, ha, hle⟩ := hfreed.room
    exact ⟨a, ha, by omega⟩
  · rw [hfreed.header u hu hne, ← hh]
    exact update_of_ne hne _ _
  · rw [hfreed.brk, hbrk, hN]
  · rw [hfreed.areas, ← hh, hN]
    rfl

/-! ### `malloc` -/

/-- What comes of a call of `malloc` for `n` headers, from what `sbrk` would answer. -/
inductive Mallocs (base : ℕ) (h : Heap) (S : Finset ℕ) (n : ℕ) (answers : List (Option ℕ)) :
    ℕ × Heap → Finset ℕ → Prop
  /-- There is a free block that is large enough. -/
  | fits {h' : Heap} {T : Finset ℕ} {a : ℕ} (hfits : ∃ x ∈ S, n ≤ h.size x)
    (hc : Carved base h S n a h' T) : Mallocs base h S n answers (a + 1, h') T
  /-- `sbrk` has more memory. -/
  | more {h₁ h' : Heap} {S₁ T : Finset ℕ} {a gap : ℕ} (hno : ∀ x ∈ S, h.size x < n)
    (hhead : answers.head? = some (some gap)) (hx : Extended base h S n gap h₁ S₁)
    (hc : Carved base h₁ S₁ n a h' T) : Mallocs base h S n answers (a + 1, h') T
  /-- There is no more memory. -/
  | null (hno : ∀ x ∈ S, h.size x < n) (hhead : ∀ gap, answers.head? ≠ some (some gap)) :
    Mallocs base h S n answers (0, h) S

/-- The walk of `scan` ends before a block that is large enough, if there is one. -/
theorem FreeList.exists_scan (hl : FreeList base h S) (n : ℕ) :
    ∃ q ∈ S, walk h.ptr (h.stops n) h.brk h.freep = some q ∧
      ((∃ x ∈ S, n ≤ h.size x) → n ≤ h.size (h.ptr q)) := by
  obtain ⟨t, ht, htp⟩ := hl.linked.exists_prev hl.freep
  have hstops : h.stops n t = true := by simp [Heap.stops, htp]
  obtain ⟨q, hq, hwalk, hfound⟩ := hl.linked.exists_walk hl.freep ht hstops hl.card_le
  refine ⟨q, hq, hwalk, ?_⟩
  rintro ⟨x, hx, hle⟩
  by_contra hno
  -- The walk has come all the way round, and passed the block.
  obtain ⟨y, hy, rfl⟩ := hl.linked.exists_prev hx
  have hqp : h.ptr q = h.freep := by
    rw [Heap.stops, decide_eq_true_iff] at hfound
    exact hfound.resolve_left hno
  have hyq : y ≠ q := by
    rintro rfl
    exact hno hle
  have hlt := hl.linked.distance_lt_prev hq hy hyq
  rw [hqp] at hlt
  have hfy := hl.linked.not_found_of_walk hl.freep hq hwalk hy hlt
  rw [Heap.stops, decide_eq_false_iff_not, not_or] at hfy
  exact hfy.1 hle

/-- The loop finds a block where its walk ends. -/
theorem scan_of_fits (hl : FreeList base h S) (hq : q ∈ S) (hn : 0 < n)
    (hwalk : walk h.ptr (h.stops n) h.brk h.freep = some q) (hle : n ≤ h.size (h.ptr q))
    (answers : List (Option ℕ)) :
    ∃ a h' T, h.scan n answers h.freep = some (a + 1, h') ∧ Carved base h S n a h' T := by
  obtain ⟨a, h', T, htake, hc⟩ := hl.take hq hn hle
  refine ⟨a, h', T, ?_, hc⟩
  cases answers with
  | nil => rw [Heap.scan, hwalk, Option.bind_some, if_pos hle, htake]; nofun
  | cons answer answers =>
    cases answer with
    | none => rw [Heap.scan, hwalk, Option.bind_some, if_pos hle, htake]; nofun
    | some gap => rw [Heap.scan, hwalk, Option.bind_some, if_pos hle, htake]

/-- The loop of `malloc` ends: after `morecore` has been called, there is a block. -/
theorem FreeList.scan (hl : FreeList base h S) (hn : 0 < n) (answers : List (Option ℕ)) :
    ∃ r T, h.scan n answers h.freep = some r ∧ Mallocs base h S n answers r T := by
  obtain ⟨q, hq, hwalk, hfits⟩ := hl.exists_scan n
  by_cases hle : n ≤ h.size (h.ptr q)
  · obtain ⟨a, h', T, hscan, hc⟩ := scan_of_fits hl hq hn hwalk hle answers
    exact ⟨_, T, hscan, .fits ⟨_, hl.linked.next_mem hq, hle⟩ hc⟩
  have hno : ∀ x ∈ S, h.size x < n := fun x hx => not_le.1 fun hx' => hle (hfits ⟨x, hx, hx'⟩)
  cases answers with
  | nil =>
    refine ⟨(0, h), S, ?_, .null hno nofun⟩
    rw [Heap.scan, hwalk, Option.bind_some, if_neg hle]
    nofun
  | cons answer answers =>
    cases answer with
    | none =>
      refine ⟨(0, h), S, ?_, .null hno nofun⟩
      rw [Heap.scan, hwalk, Option.bind_some, if_neg hle]
      nofun
    | some gap =>
      obtain ⟨h₁, S₁, hmore, hx⟩ := hl.morecore n gap
      obtain ⟨q₁, hq₁, hwalk₁, hfits₁⟩ := hx.freeList.exists_scan n
      obtain ⟨a, h', T, hscan, hc⟩ :=
        scan_of_fits hx.freeList hq₁ hn hwalk₁ (hfits₁ hx.room) answers
      refine ⟨(a + 1, h'), T, ?_, .more hno rfl hx hc⟩
      rw [Heap.scan, hwalk, Option.bind_some, if_neg hle]
      simp only [hmore, Option.bind_some]
      exact hscan

theorem nunits_pos (nbytes : ℕ) : 0 < nunits nbytes := Nat.succ_pos _

/-- A block has room for the bytes that a program may ask for. -/
theorem nunits_room {nbytes : ℕ} (h : nbytes ≤ 2 ^ 31 - 16) :
    nbytes ≤ 8 * (nunits nbytes - 1) ∧ 8 * nunits nbytes < 2 ^ 31 := by
  rw [nunits]
  omega

/-! ### Runs -/

/-- The memory of a program, and the blocks that it has, by their headers. -/
structure State where
  heap : Heap
  live : Finset ℕ

/-- What a program does: it calls `malloc` or `free`, or writes into its blocks. -/
inductive Event
  | malloc (nbytes : ℕ) (answers : List (Option ℕ))
  | free (ap : ℕ)
  | write (u : ℕ) (x : Header)

def step (base : ℕ) (s : State) : Event → Option State
  | .malloc nbytes answers => (s.heap.malloc base nbytes answers).map fun r =>
    ⟨r.2, if r.1 = 0 then s.live else insert (r.1 - 1) s.live⟩
  | .free ap => (s.heap.free ap).map fun h => ⟨h, s.live.erase (ap - 1)⟩
  | .write u x => some { s with heap := { s.heap with header := update s.heap.header u x } }

/-- A program asks for no more than `sbrk` can be asked for, an `int`. It frees a pointer that it
    has got and not freed yet, and writes after the header of one of its blocks. -/
def Proper (s : State) : Event → Prop
  | .malloc nbytes _ => nbytes ≤ 2 ^ 31 - 16
  | .free ap => 0 < ap ∧ ap - 1 ∈ s.live
  | .write u _ => ∃ a ∈ s.live, a < u ∧ u < a + s.heap.size a

instance (s : State) : DecidablePred (Proper s)
  | .malloc nbytes _ => inferInstanceAs (Decidable (nbytes ≤ _))
  | .free ap => inferInstanceAs (Decidable (0 < ap ∧ ap - 1 ∈ s.live))
  | .write u _ => inferInstanceAs (Decidable (∃ a ∈ s.live, a < u ∧ u < a + s.heap.size a))

/-- A header that is in a block of the program. -/
def State.LiveUnit (s : State) (u : ℕ) : Prop := ∃ a ∈ s.live, a ≤ u ∧ u < a + s.heap.size a

/-- A header that `sbrk` has given. -/
def Heap.CoreUnit (h : Heap) (u : ℕ) : Prop := ∃ x ∈ h.areas, x.1 ≤ u ∧ u < x.1 + x.2

/-- The blocks of the program and those in the ring: they do not overlap, and they are what `sbrk`
    has given. No two blocks in the ring could be one. -/
structure Sound (base : ℕ) (s : State) (S : Finset ℕ) : Prop where
  freeList : FreeList base s.heap S
  base_lt : ∀ a ∈ s.live, base < a
  pos : ∀ a ∈ s.live, 0 < s.heap.size a
  brk : ∀ a ∈ s.live, a + s.heap.size a ≤ s.heap.brk
  gap : ∀ a ∈ s.live, ∀ b ∈ s.live, a < b → a + s.heap.size a ≤ b
  apart : ∀ u, s.LiveUnit u → ¬s.heap.FreeUnit S u
  core : ∀ u, s.heap.CoreUnit u ↔ s.heap.FreeUnit S u ∨ s.LiveUnit u

variable {s s' : State} {T : Finset ℕ} {nbytes : ℕ} {answers : List (Option ℕ)}

theorem Sound.live_unit (hs : Sound base s S) (ha : a ∈ s.live) : s.LiveUnit a :=
  ⟨a, ha, le_rfl, Nat.lt_add_of_pos_right (hs.pos a ha)⟩

/-- The header of a block of the program is no node of the ring. -/
theorem Sound.not_mem (hs : Sound base s S) (hu : s.LiveUnit u) : u ∉ S ∧ u ≠ base := by
  have hne : u ≠ base := by
    obtain ⟨a, ha, hau, -⟩ := hu
    exact ((hs.base_lt a ha).trans_le hau).ne'
  exact ⟨fun hmem => hs.apart u hu (hs.freeList.freeUnit hmem hne), hne⟩

/-- A block is taken for the program. -/
theorem Sound.carve {h' : Heap} (hs : Sound base s S) (hn : 0 < n)
    (hc : Carved base s.heap S n a h' T) : Sound base ⟨h', insert a s.live⟩ T := by
  have hheader (u : ℕ) (hu : s.LiveUnit u) : h'.header u = s.heap.header u :=
    hc.header u (hs.not_mem hu).2 (hs.apart u hu)
  have hsize (b : ℕ) (hb : b ∈ s.live) : h'.size b = s.heap.size b :=
    congrArg Header.size (hheader b (hs.live_unit hb))
  have ha : a ∉ s.live := fun ha =>
    hs.apart a (hs.live_unit ha) (hc.unit a le_rfl (Nat.lt_add_of_pos_right hn))
  have hlive (u : ℕ) : (⟨h', insert a s.live⟩ : State).LiveUnit u ↔
      (a ≤ u ∧ u < a + n) ∨ s.LiveUnit u := by
    simp only [State.LiveUnit, Finset.mem_insert, exists_eq_or_imp, hc.size]
    exact or_congr_right (exists_congr fun b => and_congr_right fun hb => by rw [hsize b hb])
  refine ⟨hc.freeList, fun b hb => ?_, fun b hb => ?_, fun b hb => ?_, fun b hb c hb' hbc => ?_,
    fun u hu => ?_, fun u => ?_⟩
  · rcases Finset.mem_insert.1 hb with rfl | hb
    · exact hc.base_lt
    · exact hs.base_lt b hb
  · rcases Finset.mem_insert.1 hb with rfl | hb
    · exact hc.size ▸ hn
    · exact hsize b hb ▸ hs.pos b hb
  · change b + h'.size b ≤ h'.brk
    rw [hc.brk]
    rcases Finset.mem_insert.1 hb with rfl | hb
    · exact hc.size ▸ hc.brk_le
    · exact hsize b hb ▸ hs.brk b hb
  · change b + h'.size b ≤ c
    rcases Finset.mem_insert.1 hb with rfl | hbl
    · rcases Finset.mem_insert.1 hb' with rfl | hcl
      · exact absurd hbc (lt_irrefl _)
      · rw [hc.size]
        refine not_lt.1 fun hlt => hs.apart c (hs.live_unit hcl) (hc.unit c hbc.le hlt)
    · rw [hsize b hbl]
      rcases Finset.mem_insert.1 hb' with rfl | hcl
      · refine not_lt.1 fun hlt => hs.apart c ⟨b, hbl, hbc.le, hlt⟩ ?_
        exact hc.unit c le_rfl (Nat.lt_add_of_pos_right hn)
      · exact hs.gap b hbl c hcl hbc
  · rw [hc.freeUnit]
    rcases (hlive u).1 hu with hu | hu
    · exact fun h => h.2 hu
    · exact fun h => hs.apart u hu h.1
  · change h'.CoreUnit u ↔ h'.FreeUnit T u ∨ _
    rw [hlive, hc.freeUnit, Heap.CoreUnit, hc.areas]
    refine (hs.core u).trans ⟨fun h => ?_, ?_⟩
    · by_cases hu : a ≤ u ∧ u < a + n
      · exact .inr (.inl hu)
      · exact h.imp (fun h => ⟨h, hu⟩) .inr
    · rintro (h | hu | h)
      · exact .inl h.1
      · exact .inl (hc.unit u hu.1 hu.2)
      · exact .inr h

/-- `sbrk` gives more memory. -/
theorem Sound.extend {h' : Heap} (hs : Sound base s S) (hx : Extended base s.heap S n gap h' T) :
    Sound base ⟨h', s.live⟩ T ∧ (∀ u, s.LiveUnit u → h'.header u = s.heap.header u) ∧
      ∀ u, (⟨h', s.live⟩ : State).LiveUnit u ↔ s.LiveUnit u := by
  have hbrk (u : ℕ) (hu : s.LiveUnit u) : u < s.heap.brk := by
    obtain ⟨a, ha, -, hua⟩ := hu
    exact hua.trans_le (hs.brk a ha)
  have hheader (u : ℕ) (hu : s.LiveUnit u) : h'.header u = s.heap.header u := by
    have := hbrk u hu
    exact hx.header u (hs.not_mem hu).1 (by omega)
  have hsize (b : ℕ) (hb : b ∈ s.live) : h'.size b = s.heap.size b :=
    congrArg Header.size (hheader b (hs.live_unit hb))
  have hlive (u : ℕ) : (⟨h', s.live⟩ : State).LiveUnit u ↔ s.LiveUnit u :=
    exists_congr fun b => and_congr_right fun hb => by
      change b ≤ u ∧ u < b + h'.size b ↔ _
      rw [hsize b hb]
  refine ⟨⟨hx.freeList, hs.base_lt, fun b hb => hsize b hb ▸ hs.pos b hb, fun b hb => ?_,
    fun b hb c hc hbc => ?_, fun u hu => ?_, fun u => ?_⟩, hheader, hlive⟩
  · change b + h'.size b ≤ h'.brk
    have := hs.brk b hb
    rw [hsize b hb, hx.brk]
    omega
  · change b + h'.size b ≤ c
    rw [hsize b hb]
    exact hs.gap b hb c hc hbc
  · have hu' := (hlive u).1 hu
    have := hbrk u hu'
    rw [hx.freeUnit, not_or]
    exact ⟨hs.apart u hu', by omega⟩
  · change h'.CoreUnit u ↔ h'.FreeUnit T u ∨ _
    rw [hlive, hx.freeUnit, Heap.CoreUnit, hx.areas]
    simp only [List.mem_cons, exists_eq_or_imp]
    refine (or_congr_right (hs.core u)).trans ?_
    exact or_left_comm.trans or_assoc.symm

/-- A block of the program is freed. -/
theorem Sound.free (hs : Sound base s S) (ha : a ∈ s.live) :
    ∃ h' T, s.heap.free (a + 1) = some h' ∧ Sound base ⟨h', s.live.erase a⟩ T ∧
      ∀ u, (⟨h', s.live.erase a⟩ : State).LiveUnit u → h'.header u = s.heap.header u := by
  have hloose : Loose base s.heap S a := by
    refine ⟨hs.base_lt a ha, hs.pos a ha, hs.brk a ha, fun x hx => ?_⟩
    by_cases hxb : x = base
    · have := hs.base_lt a ha
      have := hs.freeList.size_base
      subst hxb
      omega
    · have hfree := hs.freeList.freeUnit hx hxb
      by_contra hno
      rw [not_or, not_le, not_le] at hno
      rcases le_total x a with hxa | hax
      · exact hs.apart a (hs.live_unit ha) ⟨x, hx, hxa, hno.1⟩
      · exact hs.apart x ⟨a, ha, hax, hno.2⟩ hfree
  obtain ⟨h', T, hfree, hfreed⟩ := hs.freeList.free hloose
  have hsize (b : ℕ) (hb : b ∈ s.live.erase a) : h'.size b = s.heap.size b := by
    obtain ⟨hne, hb⟩ := Finset.mem_erase.1 hb
    exact congrArg Header.size (hfreed.header b (hs.not_mem (hs.live_unit hb)).1 hne)
  have hlive (u : ℕ) : (⟨h', s.live.erase a⟩ : State).LiveUnit u ↔
      s.LiveUnit u ∧ ¬(a ≤ u ∧ u < a + s.heap.size a) := by
    constructor
    · rintro ⟨b, hb, hbu, hub⟩
      change u < b + h'.size b at hub
      rw [hsize b hb] at hub
      obtain ⟨hne, hb⟩ := Finset.mem_erase.1 hb
      refine ⟨⟨b, hb, hbu, hub⟩, fun hu => ?_⟩
      rcases lt_or_gt_of_ne hne with hlt | hgt
      · have := hs.gap b hb a ha hlt
        omega
      · have := hs.gap a ha b hb hgt
        omega
    · rintro ⟨⟨b, hb, hbu, hub⟩, hno⟩
      have hne : b ≠ a := by
        rintro rfl
        exact hno ⟨hbu, hub⟩
      have hb' := Finset.mem_erase.2 ⟨hne, hb⟩
      refine ⟨b, hb', hbu, ?_⟩
      change u < b + h'.size b
      rwa [hsize b hb']
  refine ⟨h', T, hfree, ⟨hfreed.freeList, fun b hb => hs.base_lt b (Finset.mem_of_mem_erase hb),
    fun b hb => ?_, fun b hb => ?_, fun b hb c hc hbc => ?_, fun u hu => ?_, fun u => ?_⟩,
    fun u hu => ?_⟩
  · exact hsize b hb ▸ hs.pos b (Finset.mem_of_mem_erase hb)
  · change b + h'.size b ≤ h'.brk
    rw [hfreed.brk, hsize b hb]
    exact hs.brk b (Finset.mem_of_mem_erase hb)
  · change b + h'.size b ≤ c
    rw [hsize b hb]
    exact hs.gap b (Finset.mem_of_mem_erase hb) c (Finset.mem_of_mem_erase hc) hbc
  · rw [hfreed.freeUnit, not_or]
    obtain ⟨hu, hno⟩ := (hlive u).1 hu
    exact ⟨hs.apart u hu, hno⟩
  · change h'.CoreUnit u ↔ h'.FreeUnit T u ∨ _
    rw [hlive, hfreed.freeUnit, Heap.CoreUnit, hfreed.areas]
    refine (hs.core u).trans ⟨fun h => ?_, ?_⟩
    · by_cases hu : a ≤ u ∧ u < a + s.heap.size a
      · exact .inl (.inr hu)
      · exact h.imp .inl fun h => ⟨h, hu⟩
    · rintro ((h | hu) | h)
      · exact .inl h
      · exact .inr ⟨a, ha, hu⟩
      · exact .inr h.1
  · obtain ⟨hu, hno⟩ := (hlive u).1 hu
    refine hfreed.header u (hs.not_mem hu).1 ?_
    rintro rfl
    exact hno ⟨le_rfl, Nat.lt_add_of_pos_right (hs.pos u ha)⟩

/-- The program writes into one of its blocks. -/
theorem Sound.write (hs : Sound base s S) (hu : ∃ a ∈ s.live, a < u ∧ u < a + s.heap.size a)
    (x : Header) :
    Sound base { s with heap := { s.heap with header := update s.heap.header u x } } S := by
  obtain ⟨a, ha, hau, hua⟩ := hu
  obtain ⟨huS, -⟩ := hs.not_mem ⟨a, ha, hau.le, hua⟩
  have hlive (b : ℕ) (hb : b ∈ s.live) : b ≠ u := by
    rintro rfl
    have := hs.gap a ha b hb hau
    omega
  generalize hh : ({ s.heap with header := update s.heap.header u x } : Heap) = h'
  have hheader (b : ℕ) (hb : b ≠ u) : h'.header b = s.heap.header b := by
    rw [← hh]
    exact update_of_ne hb _ _
  have hptr (b : ℕ) (hb : b ∈ S) : h'.ptr b = s.heap.ptr b :=
    congrArg Header.ptr (hheader b fun he => huS (he ▸ hb))
  have hsize (b : ℕ) (hb : b ∈ S) : h'.size b = s.heap.size b :=
    congrArg Header.size (hheader b fun he => huS (he ▸ hb))
  have hsize' (b : ℕ) (hb : b ∈ s.live) : h'.size b = s.heap.size b :=
    congrArg Header.size (hheader b (hlive b hb))
  have hbrk : h'.brk = s.heap.brk := by rw [← hh]
  have hfree (v : ℕ) : h'.FreeUnit S v ↔ s.heap.FreeUnit S v :=
    exists_congr fun b => and_congr_right fun hb => by rw [hsize b hb]
  have hunit (v : ℕ) : ({ s with heap := h' } : State).LiveUnit v ↔ s.LiveUnit v :=
    exists_congr fun b => and_congr_right fun hb => by
      change b ≤ v ∧ v < b + h'.size b ↔ _
      rw [hsize' b hb]
  refine ⟨⟨hs.freeList.toLists.congr hptr hsize hbrk.ge, fun b hb htouch => ?_, ?_⟩, hs.base_lt,
    fun b hb => hsize' b hb ▸ hs.pos b hb, fun b hb => ?_, fun b hb c hc hbc => ?_,
    fun v hv => ?_, fun v => ?_⟩
  · rw [Heap.Touch, hptr b hb, hsize b hb] at htouch
    exact hs.freeList.coalesced b hb htouch
  · rw [← hh]
    exact hs.freeList.freep
  · change b + h'.size b ≤ h'.brk
    rw [hsize' b hb, hbrk]
    exact hs.brk b hb
  · change b + h'.size b ≤ c
    rw [hsize' b hb]
    exact hs.gap b hb c hc hbc
  · rw [hfree]
    exact hs.apart v ((hunit v).1 hv)
  · rw [hfree, hunit, ← hs.core v, ← hh]
    rfl

/-- A program before its first call. -/
structure Fresh (base : ℕ) (s : State) : Prop where
  freep : s.heap.freep = 0
  live : s.live = ∅
  areas : s.heap.areas = []
  base_lt : base < s.heap.brk

/-- The ring is sound, once there is one. -/
def Ready (base : ℕ) (s : State) : Prop := Fresh base s ∨ (s.heap.freep ≠ 0 ∧ ∃ S, Sound base s S)

/-- The ring of the first node alone. -/
theorem freeList_single (hb : base < h.brk) (hptr : h.ptr base = base) (hsize : h.size base = 0)
    (hfreep : h.freep = base) : FreeList base h {base} := by
  have hmem {a : ℕ} (ha : a ∈ ({base} : Finset ℕ)) : a = base := Finset.mem_singleton.1 ha
  refine ⟨⟨⟨Finset.mem_singleton_self _, fun a ha => (hmem ha).ge, fun a ha => .inr ⟨?_, ?_⟩⟩,
    fun a ha b hb' hab => ?_, hsize, fun a ha hne => absurd (hmem ha) hne, fun a ha => ?_, hb⟩,
    fun a ha htouch => ?_, ?_⟩
  · rw [hmem ha, hptr]
  · exact fun x hx => (hmem hx).le.trans (hmem ha).ge
  · rw [hmem ha, hmem hb'] at hab
    exact absurd hab (lt_irrefl _)
  · rw [hmem ha, hsize]
    exact hb.le
  · rw [hmem ha] at htouch
    exact absurd (hptr ▸ htouch.1) (lt_irrefl _)
  · exact hfreep ▸ Finset.mem_singleton_self _

/-- The first call makes the ring. -/
theorem Ready.start (hs : Ready base s) :
    (∃ S, Sound base ⟨s.heap.start base, s.live⟩ S) ∧
      ∀ u, s.LiveUnit u → (s.heap.start base).header u = s.heap.header u := by
  rcases hs with hs | ⟨hne, S, hs⟩
  · have hstart : s.heap.start base =
        { (s.heap.setPtr base base).setSize base 0 with freep := base } := if_pos hs.freep
    have hnot (a : ℕ) : a ∉ s.live := by simp [hs.live]
    have hptr : (s.heap.start base).ptr base = base := by
      rw [hstart]
      change ((s.heap.setPtr base base).setSize base 0).ptr base = base
      simp
    have hsize : (s.heap.start base).size base = 0 := by
      rw [hstart]
      change ((s.heap.setPtr base base).setSize base 0).size base = 0
      simp
    have hareas : (s.heap.start base).areas = [] := by rw [hstart]; exact hs.areas
    have hl : FreeList base (s.heap.start base) {base} :=
      freeList_single (by rw [hstart]; exact hs.base_lt) hptr hsize (by rw [hstart])
    refine ⟨⟨{base}, hl, fun a ha => absurd ha (hnot a), fun a ha => absurd ha (hnot a),
      fun a ha => absurd ha (hnot a), fun a ha => absurd ha (hnot a), ?_, fun u => ?_⟩, ?_⟩
    · rintro u ⟨a, ha, -⟩
      exact absurd ha (hnot a)
    · refine iff_of_false ?_ (not_or.2 ⟨?_, ?_⟩)
      · rintro ⟨x, hx, -⟩
        rw [hareas] at hx
        cases hx
      · rintro ⟨a, ha, hau, hua⟩
        rw [Finset.mem_singleton.1 ha, hsize] at hua
        rw [Finset.mem_singleton.1 ha] at hau
        omega
      · rintro ⟨a, ha, -⟩
        exact absurd ha (hnot a)
    · rintro u ⟨a, ha, -⟩
      exact absurd ha (hnot a)
  · have hstart : s.heap.start base = s.heap := if_neg hne
    rw [hstart]
    exact ⟨⟨S, hs⟩, fun _ _ => rfl⟩

theorem Sound.ready (hbase : 0 < base) (hs : Sound base s S) : Ready base s :=
  .inr ⟨(hbase.trans_le (hs.freeList.linked.base_le _ hs.freeList.freep)).ne', S, hs⟩

/-- What a call of `malloc` leaves. -/
structure Allocated (base : ℕ) (s : State) (n r : ℕ) (s' : State) : Prop where
  sound : ∃ T, Sound base s' T
  header : ∀ u, s.LiveUnit u → s'.heap.header u = s.heap.header u
  live : s'.live = if r = 0 then s.live else insert (r - 1) s.live
  size : r ≠ 0 → s'.heap.size (r - 1) = n
  unit : r ≠ 0 → ∀ u, r - 1 ≤ u → u < r - 1 + n → ¬s.LiveUnit u

theorem Sound.scan (hs : Sound base s S) (hn : 0 < n) (answers : List (Option ℕ)) :
    ∃ r h', s.heap.scan n answers s.heap.freep = some (r, h') ∧
      Allocated base s n r ⟨h', if r = 0 then s.live else insert (r - 1) s.live⟩ ∧
      (r = 0 ↔ (∀ x ∈ S, s.heap.size x < n) ∧ ∀ gap, answers.head? ≠ some (some gap)) := by
  obtain ⟨⟨r, h'⟩, T, hscan, hm⟩ := hs.freeList.scan hn answers
  refine ⟨r, h', hscan, ?_⟩
  cases hm with
  | fits hfits hc =>
    rename_i a
    have hsound := hs.carve hn hc
    refine ⟨⟨⟨T, hsound⟩, fun u hu => hc.header u (hs.not_mem hu).2 (hs.apart u hu), rfl,
      fun _ => hc.size, fun _ u hu hu' hlive => hs.apart u hlive (hc.unit u hu hu')⟩, ?_⟩
    refine iff_of_false (Nat.succ_ne_zero a) fun hno => ?_
    obtain ⟨x, hx, hle⟩ := hfits
    exact absurd (hno.1 x hx) (not_lt.2 hle)
  | more hno hhead hx hc =>
    rename_i h₁ S₁ a gap
    obtain ⟨hs₁, hheader, hlive⟩ := hs.extend hx
    have hsound := hs₁.carve hn hc
    refine ⟨⟨⟨T, hsound⟩, fun u hu => ?_, rfl, fun _ => hc.size, fun _ u hu hu' hlu => ?_⟩,
      iff_of_false (Nat.succ_ne_zero a) fun h => h.2 gap hhead⟩
    · have hu₁ := (hlive u).2 hu
      exact (hc.header u (hs₁.not_mem hu₁).2 (hs₁.apart u hu₁)).trans (hheader u hu)
    · exact hs₁.apart u ((hlive u).2 hlu) (hc.unit u hu hu')
  | null hno hhead =>
    exact ⟨⟨⟨S, hs⟩, fun _ _ => rfl, rfl, fun h => absurd rfl h, fun h => absurd rfl h⟩,
      iff_of_true rfl ⟨hno, hhead⟩⟩

/-- A step of a program that uses the allocator as it should. -/
theorem Ready.step (hbase : 0 < base) (hs : Ready base s) {e : Event} (he : Proper s e) :
    ∃ s', step base s e = some s' ∧ Ready base s' := by
  cases e with
  | malloc nbytes answers =>
    obtain ⟨⟨S, hS⟩, -⟩ := hs.start
    obtain ⟨r, h', hscan, ha, -⟩ := hS.scan (nunits_pos nbytes) answers
    obtain ⟨T, hT⟩ := ha.sound
    refine ⟨⟨h', if r = 0 then s.live else insert (r - 1) s.live⟩, ?_, hT.ready hbase⟩
    rw [Malloc.step, Heap.malloc, hscan]
    rfl
  | free ap =>
    obtain ⟨hpos, hmem⟩ := he
    rcases hs with hs | ⟨-, S, hS⟩
    · rw [hs.live] at hmem
      exact absurd hmem (Finset.notMem_empty _)
    · obtain ⟨h', T, hfree, hT, -⟩ := hS.free hmem
      rw [Nat.sub_add_cancel hpos] at hfree
      refine ⟨⟨h', s.live.erase (ap - 1)⟩, ?_, hT.ready hbase⟩
      rw [Malloc.step, hfree]
      rfl
  | write u x =>
    rcases hs with hs | ⟨-, S, hS⟩
    · obtain ⟨a, ha, -⟩ := he
      rw [hs.live] at ha
      exact absurd ha (Finset.notMem_empty _)
    · exact ⟨_, rfl, (hS.write he x).ready hbase⟩

/-- The calls of a whole run. -/
theorem Ready.run (hbase : 0 < base) (hs : Ready base s) {es : List Event}
    (hP : Trace.Along (Malloc.step base) Proper s es) :
    ∃ s', Trace.run (Malloc.step base) s es = some s' ∧ Ready base s' := by
  induction es generalizing s with
  | nil => exact ⟨s, rfl, hs⟩
  | cons e es ih =>
    obtain ⟨t, ht, hst⟩ := hs.step hbase hP.1
    obtain ⟨s', hrun, hs'⟩ := ih hst (hP.2 t ht)
    refine ⟨s', ?_, hs'⟩
    rw [Trace.run_cons, ht]
    exact hrun

/-! ### Room -/

/-- Free headers that are side by side are in one block. -/
theorem FreeList.same_block (hl : FreeList base h S) (ha : a ∈ S) (hau : a ≤ u)
    (hua : u < a + h.size a) (hfree : h.FreeUnit S (u + 1)) : u + 1 < a + h.size a := by
  obtain ⟨b, hb, hbu, hub⟩ := hfree
  by_contra hno
  have hab : a < b := by
    rcases Nat.lt_trichotomy a b with hlt | rfl | hgt
    · exact hlt
    · omega
    · have := hl.gap b hb a ha hgt
      omega
  have hnext := hl.linked.le_of_lt ha hb hab
  have hgap := hl.gap a ha _ (hl.linked.next_mem ha) hnext.1
  exact hl.coalesced a ha ⟨hnext.1, by omega⟩

/-- So many free headers side by side are in a block that is as large. -/
theorem FreeList.exists_fits (hl : FreeList base h S) (hn : 0 < n)
    (hfree : ∀ u, a ≤ u → u < a + n → h.FreeUnit S u) : ∃ x ∈ S, n ≤ h.size x := by
  obtain ⟨x, hx, hxa, hax⟩ := hfree a le_rfl (Nat.lt_add_of_pos_right hn)
  have hin : ∀ k < n, a + k < x + h.size x := by
    intro k
    induction k with
    | zero => exact fun _ => hax
    | succ k ih =>
      intro hk
      have hnext : h.FreeUnit S (a + k + 1) := hfree _ (by omega) (by omega)
      exact hl.same_block hx (hxa.trans (Nat.le_add_right a k)) (ih (Nat.lt_of_succ_lt hk)) hnext
  have := hin (n - 1) (by omega)
  exact ⟨x, hx, by omega⟩

/-! ### What a block keeps -/

/-- An event that is not about the block `a`. -/
def Spares (a : ℕ) (s : State) : Event → Prop
  | .malloc _ _ => True
  | .free ap => ap - 1 ≠ a
  | .write u _ => ¬(a < u ∧ u < a + s.heap.size a)

instance (a : ℕ) (s : State) : DecidablePred (Spares a s)
  | .malloc _ _ => inferInstanceAs (Decidable True)
  | .free ap => inferInstanceAs (Decidable (ap - 1 ≠ a))
  | .write u _ => inferInstanceAs (Decidable ¬(a < u ∧ u < a + s.heap.size a))

theorem Ready.step_spares (hs : Ready base s) (ha : a ∈ s.live) {e : Event} (he : Proper s e)
    (hsp : Spares a s e) (h : Malloc.step base s e = some s') :
    a ∈ s'.live ∧ ∀ u, a ≤ u → u < a + s.heap.size a → s'.heap.header u = s.heap.header u := by
  rcases hs with hs | ⟨hne, S, hS⟩
  · rw [hs.live] at ha
    exact absurd ha (Finset.notMem_empty _)
  cases e with
  | malloc nbytes answers =>
    obtain ⟨r, h', hscan, hal, -⟩ := hS.scan (nunits_pos nbytes) answers
    have hstart : s.heap.start base = s.heap := if_neg hne
    rw [Malloc.step, Heap.malloc, hstart, hscan] at h
    cases h
    refine ⟨?_, fun u hau hua => hal.header u ⟨a, ha, hau, hua⟩⟩
    rw [hal.live]
    split
    · exact ha
    · exact Finset.mem_insert_of_mem ha
  | free ap =>
    obtain ⟨hpos, hmem⟩ := he
    obtain ⟨h', T, hfree, hT, hkeep⟩ := hS.free hmem
    rw [Nat.sub_add_cancel hpos] at hfree
    rw [Malloc.step, hfree] at h
    cases h
    have hmem' : a ∈ s.live.erase (ap - 1) := Finset.mem_erase.2 ⟨Ne.symm hsp, ha⟩
    have hhead : h'.header a = s.heap.header a := hkeep a (hT.live_unit hmem')
    refine ⟨hmem', fun u hau hua => hkeep u ⟨a, hmem', hau, ?_⟩⟩
    exact (congrArg (fun x : Header => u < a + x.size) hhead).mpr hua
  | write v x =>
    cases h
    refine ⟨ha, fun u hau hua => update_of_ne ?_ _ _⟩
    rintro rfl
    obtain ⟨b, hb, hbu, hub⟩ := he
    -- The block that is written into is not `a`, and has no header in common with it.
    rcases Nat.lt_trichotomy a b with hlt | rfl | hgt
    · have := hS.gap a ha b hb hlt
      omega
    · exact hsp ⟨hbu, hub⟩
    · have := hS.gap b hb a ha hgt
      omega

/-- A block keeps what is in it until the program writes there, or frees it. -/
theorem Ready.run_spares (hbase : 0 < base) (hs : Ready base s) (ha : a ∈ s.live)
    {es : List Event}
    (hP : Trace.Along (Malloc.step base) (fun s e => Proper s e ∧ Spares a s e) s es) :
    ∃ s', Trace.run (Malloc.step base) s es = some s' ∧ a ∈ s'.live ∧
      ∀ u, a ≤ u → u < a + s.heap.size a → s'.heap.header u = s.heap.header u := by
  induction es generalizing s with
  | nil => exact ⟨s, rfl, ha, fun _ _ _ => rfl⟩
  | cons e es ih =>
    obtain ⟨t, ht, hst⟩ := hs.step hbase hP.1.1
    obtain ⟨hat, hkeep⟩ := hs.step_spares ha hP.1.1 hP.1.2 ht
    obtain ⟨s', hrun, ha', hkeep'⟩ := ih hst hat (hP.2 t ht)
    have hpos : a < a + s.heap.size a := by
      rcases hs with hs | ⟨-, S, hS⟩
      · rw [hs.live] at ha
        exact absurd ha (Finset.notMem_empty _)
      · exact Nat.lt_add_of_pos_right (hS.pos a ha)
    have hsize : t.heap.size a = s.heap.size a := congrArg Header.size (hkeep a le_rfl hpos)
    refine ⟨s', ?_, ha', fun u hau hua => ?_⟩
    · rw [Trace.run_cons, ht]
      exact hrun
    · exact (hkeep' u hau (by rw [hsize]; exact hua)).trans (hkeep u hau hua)

/-! ### What the program is given -/

/-- `sbrk` has given so many headers side by side, and the program has none of them. -/
def State.Room (s : State) (n : ℕ) : Prop :=
  ∃ a, ∀ u, a ≤ u → u < a + n → s.heap.CoreUnit u ∧ ¬s.LiveUnit u

theorem Sound.room_iff (hs : Sound base s S) (hn : 0 < n) :
    s.Room n ↔ ∃ x ∈ S, n ≤ s.heap.size x := by
  constructor
  · rintro ⟨a, ha⟩
    refine hs.freeList.exists_fits (a := a) hn fun u hau hua => ?_
    obtain ⟨hcore, hlive⟩ := ha u hau hua
    exact ((hs.core u).1 hcore).resolve_right hlive
  · rintro ⟨x, hx, hle⟩
    refine ⟨x, fun u hxu hux => ?_⟩
    have hfree : s.heap.FreeUnit S u := ⟨x, hx, hxu, hux.trans_le (Nat.add_le_add_left hle x)⟩
    exact ⟨(hs.core u).2 (.inl hfree), fun hlive => hs.apart u hlive hfree⟩

/-- The first call changes no block, and gives nothing. -/
theorem Ready.room_start (hs : Ready base s) :
    (⟨s.heap.start base, s.live⟩ : State).Room n ↔ s.Room n := by
  rcases hs with hs | ⟨hne, -⟩
  · have hnot (u : ℕ) (t : State) (ht : t.live = ∅) : ¬t.LiveUnit u := by
      rintro ⟨a, ha, -⟩
      rw [ht] at ha
      exact absurd ha (Finset.notMem_empty _)
    have hareas : (s.heap.start base).areas = s.heap.areas := by
      rw [Heap.start, if_pos hs.freep]
      rfl
    refine exists_congr fun a => forall_congr' fun u => imp_congr_right fun _ =>
      imp_congr_right fun _ => and_congr ?_ ?_
    · rw [Heap.CoreUnit, Heap.CoreUnit, hareas]
    · exact iff_of_true (hnot u _ hs.live) (hnot u s hs.live)
  · have hstart : s.heap.start base = s.heap := if_neg hne
    rw [hstart]

/-- A call of `malloc`. -/
theorem Ready.malloc (hs : Ready base s) (nbytes : ℕ) (answers : List (Option ℕ)) :
    ∃ r h', s.heap.malloc base nbytes answers = some (r, h') ∧
      (∀ u, s.LiveUnit u → h'.header u = s.heap.header u) ∧
      (r ≠ 0 → h'.size (r - 1) = nunits nbytes ∧
        ∀ u, r - 1 ≤ u → u < r - 1 + nunits nbytes → ¬s.LiveUnit u) ∧
      (r = 0 ↔ ¬s.Room (nunits nbytes) ∧ ∀ gap, answers.head? ≠ some (some gap)) := by
  obtain ⟨⟨S, hS⟩, hheader⟩ := hs.start
  obtain ⟨r, h', hscan, hal, hnull⟩ := hS.scan (nunits_pos nbytes) answers
  have hlive (u : ℕ) (hu : s.LiveUnit u) : (⟨s.heap.start base, s.live⟩ : State).LiveUnit u := by
    obtain ⟨a, ha, hau, hua⟩ := hu
    have hhead := hheader a ⟨a, ha, le_rfl, by omega⟩
    refine ⟨a, ha, hau, ?_⟩
    exact (congrArg (fun x : Header => u < a + x.size) hhead).mpr hua
  refine ⟨r, h', hscan, fun u hu => ?_, fun hr => ⟨hal.size hr, fun u hru hur hu => ?_⟩, ?_⟩
  · exact (hal.header u (hlive u hu)).trans (hheader u hu)
  · exact hal.unit hr u hru hur (hlive u hu)
  · rw [hnull, ← hs.room_start, hS.room_iff (nunits_pos nbytes)]
    refine and_congr_left' ?_
    simp only [not_exists, not_and, not_le]

/-! ### Whole runs -/

/-- A program with the static header at 1, and its break at 10. -/
def fresh : State := ⟨⟨fun _ => ⟨0, 0⟩, 0, 10, []⟩, ∅⟩

theorem fresh_fresh : Fresh 1 fresh := ⟨rfl, rfl, rfl, by decide⟩

/-- Two blocks, of which the first is freed. -/
def allocating : List Event :=
  [.malloc 100 [some 0], .malloc 40 [], .write 4087 ⟨7, 8⟩, .free 4093]

/-- The state after the first block. -/
def allocated : State := ((Trace.run (step 1) fresh [.malloc 100 [some 0]]).get (by decide +kernel))

end Malloc
