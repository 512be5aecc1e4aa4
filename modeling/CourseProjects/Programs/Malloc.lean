import CourseProjects.Lib.SortedRing
import CourseProjects.Lib.Trace

/-!
# The memory allocator of the programs

`umalloc.c`: the free blocks are in a ring that is sorted by address, from the static header
`base` on. Addresses count headers, of eight bytes each. The loops get as much fuel as there are
headers below the break.

* `Lists.link`: a block that is freed becomes part of the ring, with the free blocks beside it.
* `Lists.take`: what `malloc` takes from a block.
-/

namespace Malloc

open Function SortedRing

structure Header where
  ptr : ℕ
  size : ℕ

/-- The memory as headers, `freep` (zero for null), and the break. What `sbrk` has given, `areas`,
    is there for the statements. -/
structure Heap where
  header : ℕ → Header
  freep : ℕ
  brk : ℕ
  areas : List (ℕ × ℕ)

namespace Heap

variable (h : Heap)

def ptr (p : ℕ) : ℕ := (h.header p).ptr

def size (p : ℕ) : ℕ := (h.header p).size

def setPtr (p q : ℕ) : Heap := { h with header := update h.header p { h.header p with ptr := q } }

def setSize (p n : ℕ) : Heap := { h with header := update h.header p { h.header p with size := n } }

/-- Where the loop of `free` ends. -/
def place (bp p : ℕ) : Bool :=
  (p < bp ∧ bp < h.ptr p) ∨ (h.ptr p ≤ p ∧ (p < bp ∨ bp < h.ptr p))

/-- The block `bp` gets the one after `p`, or becomes a part of it. -/
def joinNext (bp p : ℕ) : Heap :=
  if bp + h.size bp = h.ptr p then
    (h.setSize bp (h.size bp + h.size (h.ptr p))).setPtr bp (h.ptr (h.ptr p))
  else h.setPtr bp (h.ptr p)

/-- The block `p` gets `bp` as the one after it, or takes it in. -/
def joinPrev (bp p : ℕ) : Heap :=
  if p + h.size p = bp then (h.setSize p (h.size p + h.size bp)).setPtr p (h.ptr bp)
  else h.setPtr p bp

/-- What `free` does at its place. -/
def link (bp p : ℕ) : Heap := { (h.joinNext bp p).joinPrev bp p with freep := p }

def free (ap : ℕ) : Option Heap :=
  (walk h.ptr (h.place (ap - 1)) h.brk h.freep).map (h.link (ap - 1))

/-- `morecore`, when `sbrk` has memory: the break has grown by `gap` since. -/
def morecore (nu gap : ℕ) : Option Heap :=
  let nu := max nu 4096
  let hp := h.brk + gap
  let h := { h with brk := hp + nu, areas := (hp, nu) :: h.areas }
  (h.setSize hp nu).free (hp + 1)

/-- A block of `nunits` is taken from the block after `prevp`. -/
def take (prevp nunits : ℕ) : ℕ × Heap :=
  let p := h.ptr prevp
  if h.size p = nunits then (p + 1, { h.setPtr prevp (h.ptr p) with freep := prevp })
  else
    let p' := p + (h.size p - nunits)
    (p' + 1, { (h.setSize p (h.size p - nunits)).setSize p' nunits with freep := prevp })

/-- Where the loop of `malloc` stops: at a block that is large enough, or where it began. -/
def stops (nunits q : ℕ) : Bool := nunits ≤ h.size (h.ptr q) ∨ h.ptr q = h.freep

/-- The loop of `malloc`, from the block after `prevp` on. For each call of `sbrk` there is an
    answer: that it fails, or how much the break has grown since the one before. -/
def scan (nunits : ℕ) : List (Option ℕ) → Heap → ℕ → Option (ℕ × Heap)
  | answers, h, prevp =>
    (walk h.ptr (h.stops nunits) h.brk prevp).bind fun q =>
      if nunits ≤ h.size (h.ptr q) then some (h.take q nunits)
      else
        match answers with
        | some gap :: answers => (h.morecore nunits gap).bind fun h => scan nunits answers h h.freep
        | _ => some (0, h)

end Heap

/-- The number of headers for so many bytes, with the one of the block. -/
def nunits (nbytes : ℕ) : ℕ := (nbytes + 7) % 2 ^ 32 / 8 + 1

/-- The ring with no free block yet. -/
def Heap.start (h : Heap) (base : ℕ) : Heap :=
  if h.freep = 0 then { (h.setPtr base base).setSize base 0 with freep := base } else h

def Heap.malloc (h : Heap) (base nbytes : ℕ) (answers : List (Option ℕ)) : Option (ℕ × Heap) :=
  scan (nunits nbytes) answers (h.start base) (h.start base).freep

/-! ### The free blocks -/

/-- The free blocks are in the ring, and do not overlap. -/
structure Lists (base : ℕ) (h : Heap) (S : Finset ℕ) : Prop where
  linked : Linked h.ptr S base
  gap : ∀ a ∈ S, ∀ b ∈ S, a < b → a + h.size a ≤ b
  size_base : h.size base = 0
  pos : ∀ a ∈ S, a ≠ base → 0 < h.size a
  brk : ∀ a ∈ S, a + h.size a ≤ h.brk
  base_lt : base < h.brk

/-- A header that is in a free block. -/
def Heap.FreeUnit (h : Heap) (S : Finset ℕ) (u : ℕ) : Prop := ∃ a ∈ S, a ≤ u ∧ u < a + h.size a

/-- A free block ends where the next one begins. -/
def Heap.Touch (h : Heap) (a : ℕ) : Prop := a < h.ptr a ∧ a + h.size a = h.ptr a

/-- Only some free blocks end where the next one begins. -/
def Heap.OnlyTouch (h : Heap) (S : Finset ℕ) (E : Set ℕ) : Prop := ∀ a ∈ S, h.Touch a → a ∈ E

variable {h : Heap} {S : Finset ℕ} {base a b p q n u : ℕ}

@[simp] theorem ptr_setPtr : (h.setPtr p q).ptr = update h.ptr p q := by
  funext u
  rcases eq_or_ne u p with rfl | hu
  · simp [Heap.ptr, Heap.setPtr]
  · simp [Heap.ptr, Heap.setPtr, hu]

@[simp] theorem size_setPtr : (h.setPtr p q).size = h.size := by
  funext u
  rcases eq_or_ne u p with rfl | hu
  · simp [Heap.size, Heap.setPtr]
  · simp [Heap.size, Heap.setPtr, hu]

@[simp] theorem ptr_setSize : (h.setSize p n).ptr = h.ptr := by
  funext u
  rcases eq_or_ne u p with rfl | hu
  · simp [Heap.ptr, Heap.setSize]
  · simp [Heap.ptr, Heap.setSize, hu]

@[simp] theorem size_setSize : (h.setSize p n).size = update h.size p n := by
  funext u
  rcases eq_or_ne u p with rfl | hu
  · simp [Heap.size, Heap.setSize]
  · simp [Heap.size, Heap.setSize, hu]

@[simp] theorem brk_setPtr : (h.setPtr p q).brk = h.brk := rfl

@[simp] theorem brk_setSize : (h.setSize p n).brk = h.brk := rfl

theorem Lists.lt_brk (hl : Lists base h S) (ha : a ∈ S) : a < h.brk := by
  rcases eq_or_ne a base with rfl | hne
  · exact hl.base_lt
  · exact (Nat.lt_add_of_pos_right (hl.pos a ha hne)).trans_le (hl.brk a ha)

theorem Lists.card_le (hl : Lists base h S) : S.card ≤ h.brk := by
  have hsub : S ⊆ Finset.range h.brk := fun a ha => Finset.mem_range.2 (hl.lt_brk ha)
  exact (Finset.card_le_card hsub).trans_eq (Finset.card_range _)

/-- The ring is the same when the headers in it are. -/
theorem Lists.congr {h' : Heap} (hl : Lists base h S) (hptr : ∀ a ∈ S, h'.ptr a = h.ptr a)
    (hsize : ∀ a ∈ S, h'.size a = h.size a) (hbrk : h.brk ≤ h'.brk) : Lists base h' S where
  linked := hl.linked.congr hptr
  gap a ha b hb hab := by
    rw [hsize a ha]
    exact hl.gap a ha b hb hab
  size_base := (hsize base hl.linked.base_mem).trans hl.size_base
  pos a ha hne := by
    rw [hsize a ha]
    exact hl.pos a ha hne
  brk a ha := by
    rw [hsize a ha]
    exact (hl.brk a ha).trans hbrk
  base_lt := hl.base_lt.trans_le hbrk

/-- A block that is not in the ring, and overlaps no free one. -/
structure Loose (base : ℕ) (h : Heap) (S : Finset ℕ) (bp : ℕ) : Prop where
  base_lt : base < bp
  pos : 0 < h.size bp
  brk : bp + h.size bp ≤ h.brk
  apart : ∀ a ∈ S, a + h.size a ≤ bp ∨ bp + h.size bp ≤ a

variable {bp : ℕ}

theorem Loose.not_mem (hl : Lists base h S) (hb : Loose base h S bp) : bp ∉ S := by
  intro hmem
  have hpos := hl.pos bp hmem hb.base_lt.ne'
  have hpos' := hb.pos
  have hapart := hb.apart bp hmem
  omega

/-- The place of a block in the ring. -/
theorem exists_before (hS : base ∈ S) (hb : base < bp) : ∃ p, Before S bp p := by
  have hne : (S.filter fun x => x < bp).Nonempty := ⟨base, Finset.mem_filter.2 ⟨hS, hb⟩⟩
  have hmem := Finset.max'_mem _ hne
  rw [Finset.mem_filter] at hmem
  exact ⟨_, hmem.1, hmem.2, fun y hy hlt => Finset.le_max' _ y (Finset.mem_filter.2 ⟨hy, hlt⟩)⟩

/-- The loop of `free` ends at the place of the block, and nowhere else. -/
theorem Loose.place_iff (hl : Lists base h S) (hb : Loose base h S bp) (hp : p ∈ S) :
    h.place bp p = true ↔ Before S bp p := by
  have hnot := hb.not_mem hl
  have hbase := hb.base_lt
  rw [Heap.place, decide_eq_true_iff]
  rcases hl.linked.next p hp with ⟨hmem, hlt, hle⟩ | ⟨heq, hle⟩
  · have hne : h.ptr p ≠ bp := fun he => hnot (he ▸ hmem)
    constructor
    · intro hplace
      refine ⟨hp, by omega, fun y hy hlt' => ?_⟩
      by_contra hgt
      have := hle y hy (by omega)
      omega
    · intro hbef
      have := hbef.lt
      by_contra hno
      have := hbef.le _ hmem (by omega)
      omega
  · constructor
    · intro hplace
      exact ⟨hp, by omega, fun y hy _ => hle y hy⟩
    · intro hbef
      have := hbef.lt
      have := hl.linked.base_le p hp
      omega

/-! ### A block is freed -/

/-- A block after the one before it. -/
def Heap.insertAfter (h : Heap) (p bp : ℕ) : Heap := (h.setPtr bp (h.ptr p)).setPtr p bp

/-- A free block with the one after it. -/
def Heap.merge (h : Heap) (a : ℕ) : Heap :=
  (h.setSize a (h.size a + h.size (h.ptr a))).setPtr a (h.ptr (h.ptr a))

/-- The block after it is merged when it begins where this one ends. -/
def Heap.mergeNext (h : Heap) (a : ℕ) : Heap := if a + h.size a = h.ptr a then h.merge a else h

theorem Lists.insertAfter (hl : Lists base h S) (hb : Loose base h S bp) (hp : Before S bp p) :
    Lists base (h.insertAfter p bp) (insert bp S) := by
  have hnot := hb.not_mem hl
  have hbase := hb.base_lt
  refine ⟨?_, fun a ha b hb' hab => ?_, ?_, fun a ha hne => ?_, fun a ha => ?_, ?_⟩
  · have hlinked := hl.linked.insert hp hnot
    simpa [Heap.insertAfter] using hlinked
  · simp only [Heap.insertAfter, size_setPtr]
    rcases Finset.mem_insert.1 ha with rfl | haS
    · rcases Finset.mem_insert.1 hb' with rfl | hbS
      · exact absurd hab (lt_irrefl _)
      · have := hb.apart b hbS
        omega
    · rcases Finset.mem_insert.1 hb' with rfl | hbS
      · have := hb.apart a haS
        have := hb.pos
        omega
      · exact hl.gap a haS b hbS hab
  · simpa [Heap.insertAfter] using hl.size_base
  · simp only [Heap.insertAfter, size_setPtr]
    rcases Finset.mem_insert.1 ha with rfl | ha
    · exact hb.pos
    · exact hl.pos a ha hne
  · simp only [Heap.insertAfter, size_setPtr, brk_setPtr]
    rcases Finset.mem_insert.1 ha with rfl | ha
    · exact hb.brk
    · exact hl.brk a ha
  · exact hl.base_lt

theorem Lists.merge (hl : Lists base h S) (ha : a ∈ S) (htouch : a + h.size a = h.ptr a)
    (hne : h.ptr a ≠ base) : Lists base (h.merge a) (S.erase (h.ptr a)) := by
  have hq := hl.linked.next_mem ha
  have hlt : a < h.ptr a ∧ ∀ x ∈ S, a < x → h.ptr a ≤ x := by
    rcases hl.linked.next a ha with h' | h'
    · exact h'.2
    · exact absurd h'.1 hne
  have hbase : a ≠ base := by
    rintro rfl
    rw [hl.size_base] at htouch
    omega
  have hsize (x : ℕ) : (h.merge a).size x =
      if x = a then h.size a + h.size (h.ptr a) else h.size x := by
    simp [Heap.merge, update_apply]
  refine ⟨?_, fun x hx y hy hxy => ?_, ?_, fun x hx hxb => ?_, fun x hx => ?_, hl.base_lt⟩
  · have hlinked := hl.linked.erase ha hne
    simpa [Heap.merge] using hlinked
  · obtain ⟨hxq, hxS⟩ := Finset.mem_erase.1 hx
    obtain ⟨hyq, hyS⟩ := Finset.mem_erase.1 hy
    rw [hsize]
    split
    · rename_i he
      subst he
      have hy' := hlt.2 y hyS hxy
      have := hl.gap _ hq y hyS (by omega)
      omega
    · exact hl.gap x hxS y hyS hxy
  · rw [hsize, if_neg hbase.symm, hl.size_base]
  · obtain ⟨-, hx⟩ := Finset.mem_erase.1 hx
    rw [hsize]
    have := hl.pos x hx hxb
    split <;> omega
  · obtain ⟨-, hx⟩ := Finset.mem_erase.1 hx
    rw [hsize]
    have := hl.brk x hx
    have := hl.brk _ hq
    change _ ≤ h.brk
    split <;> omega

theorem freeUnit_merge (hl : Lists base h S) (ha : a ∈ S) (htouch : a + h.size a = h.ptr a)
    (hne : h.ptr a ≠ base) : (h.merge a).FreeUnit (S.erase (h.ptr a)) u ↔ h.FreeUnit S u := by
  have hq := hl.linked.next_mem ha
  have haq : a ≠ h.ptr a := by
    rcases hl.linked.next a ha with h' | h'
    · exact h'.2.1.ne
    · exact absurd h'.1 hne
  have hsize (x : ℕ) : (h.merge a).size x =
      if x = a then h.size a + h.size (h.ptr a) else h.size x := by
    simp [Heap.merge, update_apply]
  constructor
  · rintro ⟨x, hx, hxu, hux⟩
    obtain ⟨hxq, hxS⟩ := Finset.mem_erase.1 hx
    rw [hsize] at hux
    split at hux
    · rename_i he
      subst he
      by_cases hu : u < h.ptr x
      · exact ⟨x, hxS, hxu, by omega⟩
      · exact ⟨h.ptr x, hq, by omega, by omega⟩
    · exact ⟨x, hxS, hxu, hux⟩
  · rintro ⟨x, hx, hxu, hux⟩
    by_cases hxq : x = h.ptr a
    · subst hxq
      exact ⟨a, Finset.mem_erase.2 ⟨haq, ha⟩, by omega, by rw [hsize, if_pos rfl]; omega⟩
    · refine ⟨x, Finset.mem_erase.2 ⟨hxq, hx⟩, hxu, ?_⟩
      rw [hsize]
      split
      · rename_i he
        subst he
        omega
      · exact hux

theorem heap_ext {h h' : Heap} (hptr : h.ptr = h'.ptr) (hsize : h.size = h'.size)
    (hfreep : h.freep = h'.freep) (hbrk : h.brk = h'.brk) (hareas : h.areas = h'.areas) :
    h = h' := by
  have hheader : h.header = h'.header := by
    funext u
    exact congrArg₂ Header.mk (congrFun hptr u) (congrFun hsize u)
  cases h
  cases h'
  cases hheader
  cases hfreep
  cases hbrk
  cases hareas
  rfl

theorem ptr_joinNext (u : ℕ) : (h.joinNext bp p).ptr u =
    if u = bp then (if bp + h.size bp = h.ptr p then h.ptr (h.ptr p) else h.ptr p)
    else h.ptr u := by
  rw [Heap.joinNext]
  split
  · simp [update_apply]
  · simp [update_apply]

theorem size_joinNext (u : ℕ) : (h.joinNext bp p).size u =
    if u = bp ∧ bp + h.size bp = h.ptr p then h.size bp + h.size (h.ptr p) else h.size u := by
  rw [Heap.joinNext]
  split
  · simp [update_apply, *]
  · simp [*]

theorem ptr_joinPrev (u : ℕ) : (h.joinPrev bp p).ptr u =
    if u = p then (if p + h.size p = bp then h.ptr bp else bp) else h.ptr u := by
  rw [Heap.joinPrev]
  split
  · simp [update_apply]
  · simp [update_apply]

theorem size_joinPrev (u : ℕ) : (h.joinPrev bp p).size u =
    if u = p ∧ p + h.size p = bp then h.size p + h.size bp else h.size u := by
  rw [Heap.joinPrev]
  split
  · simp [update_apply, *]
  · simp [*]

theorem ptr_insertAfter (u : ℕ) : (h.insertAfter p bp).ptr u =
    if u = p then bp else if u = bp then h.ptr p else h.ptr u := by
  simp [Heap.insertAfter, update_apply]

theorem size_insertAfter : (h.insertAfter p bp).size = h.size := by simp [Heap.insertAfter]

theorem ptr_mergeNext (u : ℕ) : (h.mergeNext a).ptr u =
    if u = a ∧ a + h.size a = h.ptr a then h.ptr (h.ptr a) else h.ptr u := by
  rw [Heap.mergeNext]
  split
  · simp [Heap.merge, update_apply, *]
  · simp [*]

theorem size_mergeNext (u : ℕ) : (h.mergeNext a).size u =
    if u = a ∧ a + h.size a = h.ptr a then h.size a + h.size (h.ptr a) else h.size u := by
  rw [Heap.mergeNext]
  split
  · simp [Heap.merge, update_apply, *]
  · simp [*]

theorem brk_mergeNext : (h.mergeNext a).brk = h.brk ∧ (h.mergeNext a).areas = h.areas := by
  rw [Heap.mergeNext]
  split
  · exact ⟨rfl, rfl⟩
  · exact ⟨rfl, rfl⟩

theorem brk_link : (h.link bp p).brk = h.brk ∧ (h.link bp p).areas = h.areas := by
  rw [Heap.link, Heap.joinNext, Heap.joinPrev]
  constructor
  · split_ifs <;> rfl
  · split_ifs <;> rfl

/-- `link` puts the block into the ring, and merges it with the blocks beside it. -/
theorem link_eq (hpb : p ≠ bp) (hq : bp + h.size bp = h.ptr p → h.ptr p ≠ p ∧ h.ptr p ≠ bp) :
    h.link bp p = { ((h.insertAfter p bp).mergeNext bp).mergeNext p with freep := p } := by
  have hbp : bp ≠ p := hpb.symm
  have hbrk : (h.link bp p).brk = h.brk ∧ (h.link bp p).areas = h.areas := brk_link
  refine heap_ext (funext fun u => ?_) (funext fun u => ?_) rfl ?_ ?_
  · change ((h.joinNext bp p).joinPrev bp p).ptr u =
      (((h.insertAfter p bp).mergeNext bp).mergeNext p).ptr u
    simp only [ptr_joinPrev, ptr_joinNext, size_joinNext, ptr_mergeNext, size_mergeNext,
      ptr_insertAfter, size_insertAfter, hpb, hbp, if_true, if_false, false_and, true_and]
    by_cases hA : bp + h.size bp = h.ptr p
    · obtain ⟨hqp, hqb⟩ := hq hA
      by_cases hu : u = p
      · simp [hA, hqp, hqb, hu, hpb]
      · by_cases hub : u = bp
        · subst hub
          simp [hA, hqp, hqb, hbp]
        · simp [hu, hub]
    · by_cases hu : u = p
      · simp [hA, hu, hpb]
      · simp [hA, hu]
  · change ((h.joinNext bp p).joinPrev bp p).size u =
      (((h.insertAfter p bp).mergeNext bp).mergeNext p).size u
    simp only [size_joinPrev, size_joinNext, ptr_mergeNext, size_mergeNext, ptr_insertAfter,
      size_insertAfter, hpb, hbp, if_true, if_false, false_and, true_and]
  · change (h.link bp p).brk = (((h.insertAfter p bp).mergeNext bp).mergeNext p).brk
    rw [hbrk.1, brk_mergeNext.1, brk_mergeNext.1]
    rfl
  · change (h.link bp p).areas = (((h.insertAfter p bp).mergeNext bp).mergeNext p).areas
    rw [hbrk.2, brk_mergeNext.2, brk_mergeNext.2]
    rfl

/-- The ring after the block `a` has taken in the next one, if they touch. -/
def Heap.remaining (h : Heap) (a : ℕ) (S : Finset ℕ) : Finset ℕ :=
  if a + h.size a = h.ptr a then S.erase (h.ptr a) else S

theorem mem_remaining (hp : p ∈ S) (hne : a + h.size a = h.ptr a → p ≠ h.ptr a) :
    p ∈ h.remaining a S := by
  rw [Heap.remaining]
  split
  · rename_i htouch
    exact Finset.mem_erase.2 ⟨hne htouch, hp⟩
  · exact hp

theorem remaining_subset : h.remaining a S ⊆ S := by
  rw [Heap.remaining]
  split
  · exact Finset.erase_subset _ _
  · exact Finset.Subset.refl _

theorem Lists.mergeNext (hl : Lists base h S) (ha : a ∈ S)
    (hne : a + h.size a = h.ptr a → h.ptr a ≠ base) :
    Lists base (h.mergeNext a) (h.remaining a S) := by
  rw [Heap.mergeNext, Heap.remaining]
  split
  · rename_i htouch
    exact hl.merge ha htouch (hne htouch)
  · exact hl

theorem freeUnit_mergeNext (hl : Lists base h S) (ha : a ∈ S)
    (hne : a + h.size a = h.ptr a → h.ptr a ≠ base) :
    (h.mergeNext a).FreeUnit (h.remaining a S) u ↔ h.FreeUnit S u := by
  rw [Heap.mergeNext, Heap.remaining]
  split
  · rename_i htouch
    exact freeUnit_merge hl ha htouch (hne htouch)
  · exact Iff.rfl

/-- The block does not touch the next one any more. -/
theorem onlyTouch_mergeNext {E : Set ℕ} (hl : Lists base h S) (ha : a ∈ S)
    (hne : a + h.size a = h.ptr a → h.ptr a ≠ base) (hE : h.OnlyTouch S (insert a E))
    (hq : a + h.size a = h.ptr a → h.ptr a ∉ insert a E) : (h.mergeNext a).OnlyTouch (h.remaining a S) E := by
  intro x hx htouch
  have hxS := remaining_subset hx
  by_cases hxa : x = a
  · subst hxa
    rw [Heap.Touch, ptr_mergeNext, size_mergeNext] at htouch
    by_cases ht : x + h.size x = h.ptr x
    · -- It ends now where the next one ended, which touched nothing.
      have hqS := hl.linked.next_mem ha
      have hpos := hl.pos _ hqS (hne ht)
      rw [if_pos ⟨rfl, ht⟩, if_pos ⟨rfl, ht⟩] at htouch
      exact absurd (hE _ hqS ⟨by omega, by omega⟩) (hq ht)
    · rw [if_neg fun h => ht h.2, if_neg fun h => ht h.2] at htouch
      exact absurd htouch.2 ht
  · rw [Heap.Touch, ptr_mergeNext, size_mergeNext, if_neg fun h => hxa h.1,
      if_neg fun h => hxa h.1] at htouch
    exact (hE x hxS htouch).resolve_left hxa

/-! ### `free` -/

/-- The free blocks, all of them merged, with `freep` at one of them. -/
structure FreeList (base : ℕ) (h : Heap) (S : Finset ℕ) : Prop extends Lists base h S where
  coalesced : h.OnlyTouch S ∅
  freep : h.freep ∈ S

theorem le_size_mergeNext : h.size b ≤ (h.mergeNext a).size b := by
  rw [size_mergeNext]
  split
  · rename_i hb
    rw [hb.1]
    exact Nat.le_add_right _ _
  · exact le_rfl

/-- Two blocks, one after the other, that are the only ones that may touch the next one: each of
    them takes in the one after it. -/
theorem Lists.mergeBoth (hl : Lists base h S) (hp : p ∈ S) (hb : b ∈ S) (hpb : p < b)
    (hbase : base < b) (hptr : h.ptr p = b) (htouch : h.OnlyTouch S (insert b {p})) :
    ∃ T ⊆ S, Lists base ((h.mergeNext b).mergeNext p) T ∧
      ((h.mergeNext b).mergeNext p).OnlyTouch T ∅ ∧ p ∈ T ∧
      (∀ u, ((h.mergeNext b).mergeNext p).FreeUnit T u ↔ h.FreeUnit S u) ∧
      ∃ a ∈ T, h.size b ≤ ((h.mergeNext b).mergeNext p).size a := by
  have hq : b + h.size b = h.ptr b → b < h.ptr b := fun he => by
    have := hl.pos b hb hbase.ne'
    omega
  have hne : b + h.size b = h.ptr b → h.ptr b ≠ base := fun he => (hbase.trans (hq he)).ne'
  have hl₂ := hl.mergeNext hb hne
  have htouch₂ := onlyTouch_mergeNext hl hb hne htouch fun he hmem => by
    have := hq he
    rcases hmem with hmem | hmem
    · omega
    · have : h.ptr b = p := hmem
      omega
  have hfree₂ := fun u => freeUnit_mergeNext (u := u) hl hb hne
  have hp₂ : p ∈ h.remaining b S := mem_remaining hp fun he => (hpb.trans (hq he)).ne
  have hb₂ : b ∈ h.remaining b S := mem_remaining hb fun he => (hq he).ne
  have hptr₂ : (h.mergeNext b).ptr p = b := by
    rw [ptr_mergeNext, if_neg fun he => hpb.ne he.1, hptr]
  have hsize₂ : h.size b ≤ (h.mergeNext b).size b := le_size_mergeNext
  have hsub₂ : h.remaining b S ⊆ S := remaining_subset
  generalize h.mergeNext b = h₂ at hl₂ htouch₂ hfree₂ hptr₂ hsize₂ ⊢
  generalize h.remaining b S = S₂ at hl₂ htouch₂ hfree₂ hp₂ hb₂ hsub₂
  have hne₂ : p + h₂.size p = h₂.ptr p → h₂.ptr p ≠ base := fun _ => hptr₂ ▸ hbase.ne'
  refine ⟨h₂.remaining p S₂, remaining_subset.trans hsub₂, hl₂.mergeNext hp₂ hne₂,
    onlyTouch_mergeNext hl₂ hp₂ hne₂ ?_ fun _ hmem => ?_, mem_remaining hp₂ fun _ => ?_,
    fun u => (freeUnit_mergeNext hl₂ hp₂ hne₂).trans (hfree₂ u), ?_⟩
  · rwa [insert_empty_eq]
  · rcases hmem with hmem | hmem
    · exact hpb.ne' (hptr₂ ▸ hmem)
    · exact hmem
  · rw [hptr₂]
    exact hpb.ne
  · by_cases ht : p + h₂.size p = h₂.ptr p
    · refine ⟨p, mem_remaining hp₂ fun _ => hptr₂ ▸ hpb.ne, ?_⟩
      rw [size_mergeNext, if_pos ⟨rfl, ht⟩, hptr₂]
      omega
    · exact ⟨b, mem_remaining hb₂ fun he => absurd he ht, hsize₂.trans le_size_mergeNext⟩

/-- The ring after a block is freed. -/
theorem FreeList.link (hl : FreeList base h S) (hb : Loose base h S bp) (hp : Before S bp p) :
    ∃ T ⊆ insert bp S, FreeList base (h.link bp p) T ∧
      (∀ u, (h.link bp p).FreeUnit T u ↔ h.FreeUnit S u ∨ (bp ≤ u ∧ u < bp + h.size bp)) ∧
      ∃ a ∈ T, h.size bp ≤ (h.link bp p).size a := by
  have hpb : p ≠ bp := hp.lt.ne
  have hplt := hp.lt
  have hptr : (h.insertAfter p bp).ptr p = bp := by rw [ptr_insertAfter, if_pos rfl]
  have hsize : (h.insertAfter p bp).size = h.size := size_insertAfter
  have htouch : (h.insertAfter p bp).OnlyTouch (insert bp S) (insert bp {p}) := by
    intro x hx htouch
    by_contra hno
    simp only [Set.mem_insert_iff, Set.mem_singleton_iff, not_or] at hno
    rw [Heap.Touch, hsize, ptr_insertAfter, if_neg hno.2, if_neg hno.1] at htouch
    exact hl.coalesced x ((Finset.mem_insert.1 hx).resolve_left hno.1) htouch
  have hfree (u : ℕ) : (h.insertAfter p bp).FreeUnit (insert bp S) u ↔
      h.FreeUnit S u ∨ (bp ≤ u ∧ u < bp + h.size bp) := by
    rw [Heap.FreeUnit, hsize]
    simp only [Finset.mem_insert, exists_eq_or_imp]
    exact or_comm
  obtain ⟨T, hT, hl₃, htouch₃, hpT, hfree₃, hroom⟩ := (hl.insertAfter hb hp).mergeBoth
    (Finset.mem_insert_of_mem hp.mem) (Finset.mem_insert_self _ _) hp.lt hb.base_lt hptr htouch
  rw [link_eq hpb fun he => by
    have := hb.pos
    omega]
  refine ⟨T, hT, ⟨hl₃.congr (fun _ _ => rfl) (fun _ _ => rfl) le_rfl, htouch₃, hpT⟩,
    fun u => (hfree₃ u).trans (hfree u), ?_⟩
  rwa [hsize] at hroom

/-- Only the headers of the block, and of the one before it, are written. -/
theorem header_link (hu : u ≠ bp) (hup : u ≠ p) : (h.link bp p).header u = h.header u := by
  have hA : (h.joinNext bp p).header u = h.header u := by
    rw [Heap.joinNext]
    split
    · simp [Heap.setPtr, Heap.setSize, hu]
    · simp [Heap.setPtr, hu]
  have hB : ((h.joinNext bp p).joinPrev bp p).header u = (h.joinNext bp p).header u := by
    rw [Heap.joinPrev]
    split
    · simp [Heap.setPtr, Heap.setSize, hup]
    · simp [Heap.setPtr, hup]
  exact hB.trans hA

/-- What `free` does with a block that is not free. -/
structure Freed (base : ℕ) (h : Heap) (S : Finset ℕ) (bp : ℕ) (h' : Heap) (T : Finset ℕ) :
    Prop where
  freeList : FreeList base h' T
  freeUnit : ∀ u, h'.FreeUnit T u ↔ h.FreeUnit S u ∨ (bp ≤ u ∧ u < bp + h.size bp)
  room : ∃ a ∈ T, h.size bp ≤ h'.size a
  header : ∀ u ∉ S, u ≠ bp → h'.header u = h.header u
  brk : h'.brk = h.brk
  areas : h'.areas = h.areas

theorem FreeList.free (hl : FreeList base h S) (hb : Loose base h S bp) :
    ∃ h' T, h.free (bp + 1) = some h' ∧ Freed base h S bp h' T := by
  obtain ⟨t, ht⟩ := exists_before hl.linked.base_mem hb.base_lt
  obtain ⟨p, hp, hwalk, hplace⟩ := hl.linked.exists_walk hl.freep ht.mem
    ((hb.place_iff hl.toLists ht.mem).2 ht) hl.card_le
  have hbef := (hb.place_iff hl.toLists hp).1 hplace
  obtain ⟨T, -, hlT, hfree, hroom⟩ := hl.link hb hbef
  refine ⟨h.link bp p, T, ?_, hlT, hfree, hroom, fun u hu hub => header_link hub fun he => hu (he ▸ hp),
    brk_link.1, brk_link.2⟩
  rw [Heap.free, Nat.add_sub_cancel, hwalk]
  rfl

/-! ### `malloc` -/

/-- A node other than the first one is in its block. -/
theorem Lists.freeUnit (hl : Lists base h S) (ha : a ∈ S) (hne : a ≠ base) : h.FreeUnit S a :=
  ⟨a, ha, le_rfl, Nat.lt_add_of_pos_right (hl.pos a ha hne)⟩

/-- The blocks do not overlap. -/
theorem Lists.eq_of_unit (hl : Lists base h S) (ha : a ∈ S) (hb : b ∈ S) (hau : a ≤ u)
    (hua : u < a + h.size a) (hbu : b ≤ u) (hub : u < b + h.size b) : a = b := by
  rcases Nat.lt_trichotomy a b with hab | hab | hab
  · have := hl.gap a ha b hb hab
    omega
  · exact hab
  · have := hl.gap b hb a ha hab
    omega

/-- What `malloc` does with a part `a` of a free block. -/
structure Carved (base : ℕ) (h : Heap) (S : Finset ℕ) (n a : ℕ) (h' : Heap) (T : Finset ℕ) :
    Prop where
  freeList : FreeList base h' T
  size : h'.size a = n
  base_lt : base < a
  brk_le : a + n ≤ h.brk
  unit : ∀ u, a ≤ u → u < a + n → h.FreeUnit S u
  freeUnit : ∀ u, h'.FreeUnit T u ↔ h.FreeUnit S u ∧ ¬(a ≤ u ∧ u < a + n)
  header : ∀ u, u ≠ base → ¬h.FreeUnit S u → h'.header u = h.header u
  brk : h'.brk = h.brk
  areas : h'.areas = h.areas

/-- All of a block is taken. -/
theorem FreeList.carveAll (hl : FreeList base h S) (hq : q ∈ S) (hn : 0 < h.size (h.ptr q)) :
    Carved base h S (h.size (h.ptr q)) (h.ptr q)
      { h.setPtr q (h.ptr (h.ptr q)) with freep := q } (S.erase (h.ptr q)) := by
  have hp := hl.linked.next_mem hq
  have hpb : h.ptr q ≠ base := by
    intro he
    rw [he, hl.size_base] at hn
    exact lt_irrefl 0 hn
  have hlt : q < h.ptr q ∧ ∀ x ∈ S, q < x → h.ptr q ≤ x := by
    rcases hl.linked.next q hq with h' | h'
    · exact h'.2
    · exact absurd h'.1 hpb
  have hsize : { h.setPtr q (h.ptr (h.ptr q)) with freep := q }.size = h.size := size_setPtr
  have hptr : { h.setPtr q (h.ptr (h.ptr q)) with freep := q }.ptr =
      update h.ptr q (h.ptr (h.ptr q)) := ptr_setPtr
  have hbase := hl.linked.base_le _ hp
  refine ⟨⟨⟨hptr ▸ hl.linked.erase hq hpb, fun x hx y hy hxy => ?_, hsize ▸ hl.size_base,
    fun x hx hne => ?_, fun x hx => ?_, hl.base_lt⟩, fun x hx htouch => ?_,
    Finset.mem_erase.2 ⟨hlt.1.ne, hq⟩⟩, congrFun hsize _, ?_, hl.brk _ hp,
    fun u hu hu' => ⟨_, hp, hu, hu'⟩, fun u => ?_, fun u hub hu => ?_, rfl, rfl⟩
  · rw [hsize]
    exact hl.gap x (Finset.mem_of_mem_erase hx) y (Finset.mem_of_mem_erase hy) hxy
  · rw [hsize]
    exact hl.pos x (Finset.mem_of_mem_erase hx) hne
  · rw [hsize]
    exact hl.brk x (Finset.mem_of_mem_erase hx)
  · rw [Heap.Touch, hsize, hptr] at htouch
    by_cases hxq : x = q
    · subst hxq
      rw [update_self] at htouch
      have := hl.gap x hq _ hp hlt.1
      rcases hl.linked.next _ hp with h' | h'
      · omega
      · have := hl.linked.base_le x hq
        omega
    · rw [update_of_ne hxq] at htouch
      exact hl.coalesced x (Finset.mem_of_mem_erase hx) htouch
  · omega
  · rw [Heap.FreeUnit, hsize]
    constructor
    · rintro ⟨x, hx, hxu, hux⟩
      obtain ⟨hne, hxS⟩ := Finset.mem_erase.1 hx
      exact ⟨⟨x, hxS, hxu, hux⟩, fun h' => hne (hl.eq_of_unit hxS hp hxu hux h'.1 h'.2)⟩
    · rintro ⟨⟨x, hx, hxu, hux⟩, hno⟩
      refine ⟨x, Finset.mem_erase.2 ⟨?_, hx⟩, hxu, hux⟩
      rintro rfl
      exact hno ⟨hxu, hux⟩
  · have hne : u ≠ q := by
      rintro rfl
      exact hu (hl.freeUnit hq hub)
    exact update_of_ne hne _ _

/-- The upper part of a block is taken. -/
theorem FreeList.carvePart (hl : FreeList base h S) (hq : q ∈ S) (hp : p ∈ S) (hn : 0 < n)
    (hlt : n < h.size p) :
    Carved base h S n (p + (h.size p - n))
      { (h.setSize p (h.size p - n)).setSize (p + (h.size p - n)) n with freep := q } S := by
  have hpb : p ≠ base := by
    rintro rfl
    rw [hl.size_base] at hlt
    exact Nat.not_lt_zero n hlt
  have hbase := hl.linked.base_le p hp
  have hbrk := hl.brk p hp
  generalize hm : h.size p - n = m
  have hnot : p + m ∉ S := fun hmem => by
    have := hl.gap p hp _ hmem (by omega)
    omega
  generalize hh : { (h.setSize p m).setSize (p + m) n with freep := q } = h'
  have hptr : h'.ptr = h.ptr := by
    rw [← hh]
    exact ptr_setSize.trans ptr_setSize
  have hsize (x : ℕ) : h'.size x = if x = p + m then n else if x = p then m else h.size x := by
    rw [← hh]
    change ((h.setSize p m).setSize (p + m) n).size x = _
    simp [update_apply]
  have hsizeS (x : ℕ) (hx : x ∈ S) : h'.size x = if x = p then m else h.size x := by
    have hxm : x ≠ p + m := fun he => hnot (he ▸ hx)
    rw [hsize, if_neg hxm]
  have hle (x : ℕ) (hx : x ∈ S) : h'.size x ≤ h.size x := by
    rw [hsizeS x hx]
    split
    · rename_i he
      subst he
      omega
    · exact le_rfl
  have hbrk' : h'.brk = h.brk := by rw [← hh]; rfl
  refine ⟨⟨⟨hptr ▸ hl.linked, fun x hx y hy hxy => ?_, ?_, fun x hx hne => ?_, fun x hx => ?_, ?_⟩,
    fun x hx htouch => ?_, ?_⟩, ?_, by omega, by omega, fun u hu hu' => ⟨p, hp, by omega, by omega⟩,
    fun u => ?_, fun u hub hu => ?_, hbrk', by rw [← hh]; rfl⟩
  · have := hl.gap x hx y hy hxy
    have := hle x hx
    omega
  · rw [hsizeS base hl.linked.base_mem, if_neg hpb.symm, hl.size_base]
  · have := hl.pos x hx hne
    rw [hsizeS x hx]
    split <;> omega
  · have := hl.brk x hx
    have := hle x hx
    omega
  · rw [hbrk']
    exact hl.base_lt
  · rw [Heap.Touch, hptr, hsizeS x hx] at htouch
    split at htouch
    · rename_i he
      subst he
      have := hl.gap x hx _ (hl.linked.next_mem hx) htouch.1
      omega
    · exact hl.coalesced x hx htouch
  · rw [← hh]
    exact hq
  · rw [hsize, if_pos rfl]
  · constructor
    · rintro ⟨x, hx, hxu, hux⟩
      rw [hsizeS x hx] at hux
      split at hux
      · rename_i he
        subst he
        exact ⟨⟨x, hx, hxu, by omega⟩, by omega⟩
      · rename_i he
        refine ⟨⟨x, hx, hxu, hux⟩, fun h' => he (hl.eq_of_unit hx hp hxu hux ?_ ?_)⟩ <;> omega
    · rintro ⟨⟨x, hx, hxu, hux⟩, hno⟩
      refine ⟨x, hx, hxu, ?_⟩
      rw [hsizeS x hx]
      split
      · rename_i he
        subst he
        omega
      · exact hux
  · have hup : u ≠ p := by
      rintro rfl
      exact hu (hl.freeUnit hp hub)
    have hupm : u ≠ p + m := by
      rintro rfl
      exact hu ⟨p, hp, by omega, by omega⟩
    rw [← hh]
    simp [Heap.setSize, hup, hupm]

theorem FreeList.take (hl : FreeList base h S) (hq : q ∈ S) (hn : 0 < n)
    (hle : n ≤ h.size (h.ptr q)) :
    ∃ a h' T, h.take q n = (a + 1, h') ∧ Carved base h S n a h' T := by
  rw [Heap.take]
  split
  · rename_i he
    subst he
    exact ⟨_, _, _, rfl, hl.carveAll hq hn⟩
  · rename_i hne
    exact ⟨_, _, _, rfl, hl.carvePart hq (hl.linked.next_mem hq) hn (by omega)⟩

end Malloc
