import CourseProjects.FileSystem.Blocks

/-!
# The contents of the inodes

`bmap` finds the block of a byte, and `writei`, `readi` and `itrunc` write, read and free
the contents of an inode with it.

* `Allotted.bmap`: `bmap` allocates what is missing, or there are not enough blocks.
-/

namespace FileSystem

open Bitmap Function Storage Tx Words

variable {v v' : Volume} {O : Finset (Fin ninodes × Option ℕ)} {n m : Fin ninodes} {o : Option ℕ}
  {b k : ℕ}

/-! ### Allocation -/

/-- The panic of `balloc`. -/
def outOfBlocks : Halt := .panic "balloc: out of blocks"

theorem balloc_run (v : Volume) : balloc.run v =
    match v.free with
    | some b => .ok (b, v.alloc b)
    | none => .error outOfBlocks := by
  rw [balloc, get_bind]
  cases v.free <;> rfl

theorem slot_run (v : Volume) (n : Fin ninodes) (k : ℕ) : (slot n k).run v =
    if (v.inode n).addrs k = 0 then
      match v.free with
      | some b => .ok (b, (v.alloc b).setAddr n k b)
      | none => .error outOfBlocks
    else .ok ((v.inode n).addrs k, v) := by
  rw [slot, get_bind]
  split
  · rw [StateT.run_bind, balloc_run]
    cases v.free <;> rfl
  · rfl

theorem Allotted.card_le (h : Allotted v O) : O.card ≤ nblocks := by
  have hle := Finset.card_filter_le (Finset.range fssize) v.Used
  rw [Finset.card_range, h.card_used] at hle
  have hmeta : nmeta + nblocks = fssize := by decide
  omega

/-- A block for a place that has none, if there is one more. -/
theorem Allotted.free_cases (h : Allotted v O) (ho : Unallotted O n o) :
    ((insert (n, o) O).card ≤ nblocks ∧ ∃ b, v.free = some b ∧ b < fssize ∧ ¬v.Used b) ∨
      (nblocks < (insert (n, o) O).card ∧ v.free = none) := by
  rw [Finset.card_insert_of_notMem ho.not_mem]
  cases hf : v.free with
  | some b =>
    have hlt := h.free_isSome_iff.1 (Option.isSome_iff_exists.2 ⟨b, hf⟩)
    exact .inl ⟨hlt, b, rfl, Volume.of_free_eq_some hf⟩
  | none =>
    refine .inr ⟨?_, rfl⟩
    exact not_le.1 fun hlt => Option.not_isSome_iff_eq_none.2 hf (h.free_isSome_iff.2 hlt)

/-- What an inode has after `bmap`: the block, and the indirect block that it needs. -/
def mapped (O : Finset (Fin ninodes × Option ℕ)) (n : Fin ninodes) (k : ℕ) :
    Finset (Fin ninodes × Option ℕ) :=
  insert (n, some k) (if k < ndirect then O else insert (n, none) O)

/-- The volume has got the blocks of `O'`, and the old ones are as they were. -/
structure Grown (v : Volume) (O : Finset (Fin ninodes × Option ℕ)) (v' : Volume)
    (O' : Finset (Fin ninodes × Option ℕ)) : Prop where
  allotted : Allotted v' O'
  subset : O ⊆ O'
  data : ∀ m j, (m, some j) ∈ O → v'.data m j = v.data m j
  size : ∀ m, (v'.inode m).size = (v.inode m).size

theorem Grown.refl (h : Allotted v O) : Grown v O v O :=
  ⟨h, Finset.Subset.refl _, fun _ _ _ => rfl, fun _ => rfl⟩

theorem Grown.trans {v'' : Volume} {O' O'' : Finset (Fin ninodes × Option ℕ)}
    (h : Grown v O v' O') (h' : Grown v' O' v'' O'') : Grown v O v'' O'' :=
  ⟨h'.allotted, h.subset.trans h'.subset,
    fun m j hj => (h'.data m j (h.subset hj)).trans (h.data m j hj),
    fun m => (h'.size m).trans (h.size m)⟩

theorem Allotted.grown_give (h : Allotted v O) (ho : Unallotted O n o) (hb : b < fssize)
    (hfree : ¬v.Used b) : Grown v O (v.give n o b) (insert (n, o) O) where
  allotted := h.give ho hb hfree
  subset := Finset.subset_insert _ _
  data m j hj := by
    rw [h.data_give ho hb hfree (Finset.mem_insert_of_mem hj), if_pos hj]
  size m := Volume.give_size ..

/-- A place that a block may be put at, or that has one. -/
structure Placeable (O : Finset (Fin ninodes × Option ℕ)) (n : Fin ninodes) (o : Option ℕ) :
    Prop where
  lt : ∀ k, o = some k → k < maxfile
  none_mem : ∀ k, o = some k → ndirect ≤ k → (n, none) ∈ O

theorem Placeable.unallotted (h : Placeable O n o) (hmem : (n, o) ∉ O) : Unallotted O n o :=
  ⟨hmem, h.lt, h.none_mem⟩

/-- The block at a place, allocated if necessary, given how it is looked for and put there. -/
def placed (n : Fin ninodes) (o : Option ℕ) (v : Volume) : Except Halt (ℕ × Volume) :=
  if v.place n o = 0 then
    match v.free with
    | some b => .ok (b, v.give n o b)
    | none => .error outOfBlocks
  else .ok (v.place n o, v)

/-- The outcome of an allocation: the volume has grown, or there are too few blocks. -/
inductive Allocates (v : Volume) (O : Finset (Fin ninodes × Option ℕ))
    (O' : Finset (Fin ninodes × Option ℕ)) (n : Fin ninodes) (o : Option ℕ) :
    Except Halt (ℕ × Volume) → Prop
  | ok {v' : Volume} (hle : O'.card ≤ nblocks) (h : Grown v O v' O') :
    Allocates v O O' n o (.ok (v'.place n o, v'))
  | error (hlt : nblocks < O'.card) : Allocates v O O' n o (.error outOfBlocks)

theorem Allotted.placed (h : Allotted v O) (ho : Placeable O n o) :
    Allocates v O (insert (n, o) O) n o (placed n o v) := by
  have hzero : v.place n o = 0 ↔ (n, o) ∉ O := by
    cases o with
    | none => exact not_iff_not.1 ((h.indirect n).trans not_not.symm)
    | some k =>
      exact not_iff_not.1 ((h.addr n k (ho.lt k rfl)
        ((lt_or_ge k ndirect).imp_right (ho.none_mem k rfl))).trans not_not.symm)
  rw [FileSystem.placed]
  split
  · rename_i h0
    have hv := ho.unallotted (hzero.1 h0)
    rcases h.free_cases hv with ⟨hle, b, hf, hb, hfree⟩ | ⟨hlt, hf⟩
    · rw [hf]
      have hok := Allocates.ok (n := n) (o := o) hle (h.grown_give hv hb hfree)
      rwa [hv.place_give hb] at hok
    · rw [hf]
      exact .error hlt
  · rename_i h0
    have hmem := not_not.1 (mt hzero.2 h0)
    rw [Finset.insert_eq_of_mem hmem]
    exact .ok h.card_le (.refl h)

/-- `bmap` allocates the block, and before it the indirect block, if they are missing. -/
theorem Allotted.bmap (h : Allotted v O) (hk : k < maxfile) :
    Allocates v O (mapped O n k) n (some k) ((bmap n k).run v) := by
  by_cases hd : k < ndirect
  · have hrun : (FileSystem.bmap n k).run v = FileSystem.placed n (some k) v := by
      have haddr : v.place n (some k) = (v.inode n).addrs k := if_pos hd
      have hgive (b : ℕ) : v.give n (some k) b = (v.alloc b).setAddr n k b := if_pos hd
      rw [FileSystem.bmap, if_pos hd, slot_run, FileSystem.placed, haddr]
      simp only [hgive]
    rw [hrun, mapped, if_pos hd]
    exact h.placed ⟨fun j hj => by cases hj; exact hk, fun j hj hle => by
      cases hj
      exact absurd hd (not_lt.2 hle)⟩
  · have hlist : k - ndirect < nindirect := by
      have hmax : maxfile = ndirect + nindirect := rfl
      omega
    have hslot : (slot n ndirect).run v = FileSystem.placed n none v := by
      have haddr : v.place n none = (v.inode n).addrs ndirect := rfl
      have hgive (b : ℕ) : v.give n none b = (v.alloc b).setAddr n ndirect b := rfl
      rw [slot_run, FileSystem.placed, haddr]
      simp only [hgive]
    have hind := h.placed (n := n) (o := none) ⟨nofun, nofun⟩
    rw [FileSystem.bmap, if_neg hd, if_pos hlist, StateT.run_bind, hslot, mapped, if_neg hd]
    generalize FileSystem.placed n none v = r at hind
    cases hind with
    | error hlt =>
      refine .error (hlt.trans_le (Finset.card_le_card (Finset.subset_insert _ _)))
    | ok hle hg =>
      rename_i w
      -- The indirect block is there now.
      have hrun : (listed (w.place n none) (k - ndirect)).run w =
          FileSystem.placed n (some k) w := by
        have haddr : w.place n (some k) = word (w.block (w.place n none)) (k - ndirect) := if_neg hd
        have hgive (b : ℕ) : w.give n (some k) b = (w.alloc b).setBlock (w.place n none)
            (setWord ((w.alloc b).block (w.place n none)) (k - ndirect) b) := if_neg hd
        rw [listed, get_bind, FileSystem.placed, haddr]
        split
        · rw [StateT.run_bind, balloc_run]
          simp only [hgive]
          cases w.free <;> rfl
        · rfl
      have hp := hg.allotted.placed (n := n) (o := some k) ⟨fun j hj => by cases hj; exact hk,
        fun _ _ _ => Finset.mem_insert_self _ _⟩
      change Allocates v O _ n (some k) ((listed (w.place n none) (k - ndirect)).run w)
      rw [hrun]
      generalize FileSystem.placed n (some k) w = r at hp
      cases hp with
      | error hlt => exact .error hlt
      | ok hle' hg' => exact .ok hle' (hg.trans hg')

/-! ### How many blocks -/

/-- An inode with so many blocks has one at this place. -/
def Has (c : ℕ) : Option ℕ → Prop
  | some k => k < c
  | none => ndirect < c

instance (c : ℕ) : DecidablePred (Has c)
  | some k => inferInstanceAs (Decidable (k < c))
  | none => inferInstanceAs (Decidable (ndirect < c))

/-- The places of the blocks of all inodes. -/
def places (cnt : Fin ninodes → ℕ) : Finset (Fin ninodes × Option ℕ) :=
  (Finset.univ ×ˢ (Finset.range maxfile).insertNone).filter fun x => Has (cnt x.1) x.2

/-- So many blocks, with the indirect block that they need. -/
def withIndirect (c : ℕ) : ℕ := if c ≤ ndirect then c else c + 1

/-- No inode has more blocks than it may have. -/
def Bounded (cnt : Fin ninodes → ℕ) : Prop := ∀ n, cnt n ≤ maxfile

variable {cnt : Fin ninodes → ℕ}

theorem mem_places (hc : Bounded cnt) : (n, o) ∈ places cnt ↔ Has (cnt n) o := by
  rw [places, Finset.mem_filter, Finset.mem_product]
  refine and_iff_right_of_imp fun h => ⟨Finset.mem_univ _, ?_⟩
  cases o with
  | none => exact Finset.none_mem_insertNone
  | some k => exact Finset.some_mem_insertNone.2 (Finset.mem_range.2 (lt_of_lt_of_le h (hc n)))

theorem some_mem_places (hc : Bounded cnt) : (n, some k) ∈ places cnt ↔ k < cnt n := mem_places hc

theorem card_places (hc : Bounded cnt) : (places cnt).card = ∑ n, withIndirect (cnt n) := by
  rw [places, Finset.card_filter, Finset.sum_product]
  refine Finset.sum_congr rfl fun n _ => ?_
  rw [Finset.sum_insertNone]
  have hrange : (Finset.range maxfile).filter (Has (cnt n) ∘ some) = Finset.range (cnt n) := by
    ext k
    rw [Finset.mem_filter, Finset.mem_range, Finset.mem_range]
    exact and_iff_right_of_imp fun h => lt_of_lt_of_le h (hc n)
  have hsum : ∑ k ∈ Finset.range maxfile, (if Has (cnt n) (some k) then 1 else 0) = cnt n := by
    rw [← Finset.card_filter]
    exact (congrArg Finset.card hrange).trans (Finset.card_range _)
  rw [hsum, withIndirect]
  by_cases h : cnt n ≤ ndirect
  · have hnone : ¬Has (cnt n) none := not_lt.2 h
    rw [if_pos h]
    exact (congrArg (· + cnt n) (if_neg hnone)).trans (Nat.zero_add _)
  · have hnone : Has (cnt n) none := not_le.1 h
    rw [if_neg h]
    exact (congrArg (· + cnt n) (if_pos hnone)).trans (Nat.add_comm _ _)

theorem Bounded.update (hc : Bounded cnt) {c : ℕ} (h : c ≤ maxfile) : Bounded (update cnt n c) := by
  intro m
  rcases eq_or_ne m n with rfl | hm
  · rwa [update_self]
  · rw [update_of_ne hm]
    exact hc m

theorem Has.mono {c c' : ℕ} (hcc : c ≤ c') (h : Has c o) : Has c' o := by
  cases o with
  | none => exact lt_of_lt_of_le h hcc
  | some k => exact lt_of_lt_of_le h hcc

theorem places_mono {cnt' : Fin ninodes → ℕ} (h : ∀ m, cnt m ≤ cnt' m) :
    places cnt ⊆ places cnt' := by
  rw [places, places]
  exact Finset.monotone_filter_right _ fun x _ hx => Has.mono (h x.1) hx

-- From here on, the set is known by its elements only: it is too large to be evaluated.
attribute [irreducible] places

/-- With `bmap`, an inode has the blocks up to that one. -/
theorem mapped_places (hc : Bounded cnt) (hk : k < maxfile) (hle : k ≤ cnt n) :
    mapped (places cnt) n k = places (update cnt n (max (cnt n) (k + 1))) := by
  ext ⟨m, o⟩
  rw [mem_places (hc.update (max_le (hc n) hk)), mapped, Finset.mem_insert]
  have hin : (m, o) ∈ (if k < ndirect then places cnt else insert (n, none) (places cnt)) ↔
      (ndirect ≤ k ∧ m = n ∧ o = none) ∨ Has (cnt m) o := by
    split
    · rename_i hd
      rw [mem_places hc, or_iff_right fun h => absurd hd (not_lt.2 h.1)]
    · rename_i hd
      rw [Finset.mem_insert, mem_places hc, Prod.mk.injEq, and_iff_right (not_lt.1 hd)]
  rw [hin, Prod.mk.injEq]
  rcases eq_or_ne m n with rfl | hm
  · rw [update_self]
    cases o with
    | none => simp [Has]; omega
    | some j => simp [Has]; omega
  · simp [hm]

/-! ### Writing -/

section

variable (v n)

theorem addrs_setSize (m : Fin ninodes) (size : ℕ) :
    ((v.setSize n size).inode m).addrs = (v.inode m).addrs := by
  rcases eq_or_ne m n with rfl | hm
  · simp [Volume.setSize]
  · simp [Volume.setSize, hm]

theorem Volume.setSize_size (m : Fin ninodes) (size : ℕ) :
    ((v.setSize n size).inode m).size = if m = n then size else (v.inode m).size := by
  rcases eq_or_ne m n with rfl | hm
  · simp [Volume.setSize]
  · simp [Volume.setSize, hm]

theorem addr_setSize (m : Fin ninodes) (size j : ℕ) :
    (v.setSize n size).addr m j = v.addr m j := by
  rw [Volume.addr, Volume.addr, addrs_setSize]
  rfl

theorem data_setSize (m : Fin ninodes) (size j : ℕ) :
    (v.setSize n size).data m j = v.data m j := by
  rw [Volume.data, addr_setSize]
  rfl

end

/-- Where the blocks are does not depend on the sizes. -/
theorem Allotted.setSize (h : Allotted v O) (n : Fin ninodes) (size : ℕ) :
    Allotted (v.setSize n size) O := by
  have hplace (x : Fin ninodes × Option ℕ) :
      (v.setSize n size).place x.1 x.2 = v.place x.1 x.2 := by
    rcases x with ⟨m, _ | j⟩
    · exact congrFun (addrs_setSize v n m size) ndirect
    · exact addr_setSize v n m size j
  refine ⟨h.lt, h.none_mem, fun m j hj hj' => ?_, fun m => ?_, fun x hx y hy hxy => ?_,
    fun x hx => ?_, fun b hb => ?_⟩
  · rw [addr_setSize]
    exact h.addr m j hj hj'
  · rw [addrs_setSize]
    exact h.indirect m
  · rw [hplace, hplace] at hxy
    exact h.inj x hx y hy hxy
  · rw [hplace]
    exact h.range x hx
  · simp only [hplace]
    exact h.used b hb

/-- What a block of an inode holds is changed, and nothing else. -/
theorem Allotted.setData (h : Allotted v O) (hk : (n, some k) ∈ O) (x : Block) :
    Allotted (v.setBlock (v.addr n k) x) O ∧
      ∀ m j, (m, some j) ∈ O →
        (v.setBlock (v.addr n k) x).data m j = if m = n ∧ j = k then x else v.data m j := by
  have hplace : v.place n (some k) = v.addr n k := rfl
  -- The block is no indirect one, and none of the map.
  have hind : ∀ m, (m, none) ∈ O → (v.inode m).addrs ndirect ≠ v.addr n k := fun m hm he =>
    nomatch congrArg Prod.snd (h.inj (m, none) hm (n, some k) hk he)
  have haddr : ∀ m j, (j < ndirect ∨ (m, none) ∈ O) →
      (v.setBlock (v.addr n k) x).addr m j = v.addr m j := by
    intro m j hj
    by_cases hlt : j < ndirect
    · simp only [Volume.addr, if_pos hlt]
      rfl
    · simp only [Volume.addr, if_neg hlt]
      refine congrArg (word · _) (update_of_ne ?_ _ _)
      have hne := hind m (hj.resolve_left hlt)
      rwa [Volume.addr] at hne
  have hsame : ∀ y ∈ O, (v.setBlock (v.addr n k) x).place y.1 y.2 = v.place y.1 y.2 := by
    rintro ⟨m, p⟩ hy
    cases p with
    | none => rfl
    | some j => exact haddr m j ((lt_or_ge j ndirect).imp_right (h.none_mem m j hy))
  have hmap : (v.setBlock (v.addr n k) x).block bmapstart = v.block bmapstart :=
    update_of_ne (h.place_ne_map hk).symm _ _
  refine ⟨⟨h.lt, h.none_mem, fun m j hj hj' => ?_, h.indirect, fun y hy z hz hyz => ?_,
    fun y hy => ?_, fun b hb => ?_⟩, fun m j hj => ?_⟩
  · rw [haddr m j hj']
    exact h.addr m j hj hj'
  · rw [hsame y hy, hsame z hz] at hyz
    exact h.inj y hy z hz hyz
  · rw [hsame y hy]
    exact h.range y hy
  · rw [Volume.used_iff hb, hmap, ← Volume.used_iff hb, h.used b hb]
    exact or_congr_right (exists_congr fun y => and_congr_right fun hy => by rw [hsame y hy])
  · have hj' : j < ndirect ∨ (m, none) ∈ O := (lt_or_ge j ndirect).imp_right (h.none_mem m j hj)
    rw [Volume.data, haddr m j hj']
    change update v.block (v.addr n k) x (v.addr m j) = _
    rw [update_apply]
    refine if_congr ⟨fun he => ?_, ?_⟩ rfl rfl
    · have hx := h.inj (m, some j) hj (n, some k) hk he
      cases hx
      exact ⟨rfl, rfl⟩
    · rintro ⟨rfl, rfl⟩
      rfl

/-! ### The loop of `writei` -/

/-- The blocks for so many bytes. -/
def blocksFor (size : ℕ) : ℕ := (size + (bsize - 1)) / bsize

theorem blocksFor_le {size c : ℕ} : blocksFor size ≤ c ↔ size ≤ bsize * c := by
  rw [blocksFor, Nat.div_le_iff_le_mul_add_pred (by decide)]
  exact Nat.add_le_add_iff_right

/-- The blocks that the inodes have after a write. -/
def reaches (cnt : Fin ninodes → ℕ) (n : Fin ninodes) (size : ℕ) : Fin ninodes → ℕ :=
  update cnt n (max (cnt n) (blocksFor size))

/-- The byte of an inode at an offset, whether it is within the size or not. -/
def Volume.byte (v : Volume) (n : Fin ninodes) (i : ℕ) : UInt8 := v.data n (i / bsize) (i % bsize)

/-- The bytes from an offset on are those that are written, and the others are as they were. -/
structure Written (v : Volume) (cnt : Fin ninodes → ℕ) (n : Fin ninodes) (off : ℕ)
    (src : List UInt8) (v' : Volume) : Prop where
  allotted : Allotted v' (places (reaches cnt n (off + src.length)))
  other : ∀ m, m ≠ n → ∀ j < cnt m, v'.data m j = v.data m j
  inside : ∀ i, off ≤ i → i < off + src.length → v'.byte n i = src.getD (i - off) 0
  outside : ∀ i < bsize * cnt n, ¬(off ≤ i ∧ i < off + src.length) → v'.byte n i = v.byte n i
  size : ∀ m, (v'.inode m).size = (v.inode m).size

/-- The outcome of the loop. -/
inductive Writes (v : Volume) (cnt : Fin ninodes → ℕ) (n : Fin ninodes) (off : ℕ)
    (src : List UInt8) : Except Halt (Unit × Volume) → Prop
  | ok {v' : Volume} (hle : (places (reaches cnt n (off + src.length))).card ≤ nblocks)
    (h : Written v cnt n off src v') : Writes v cnt n off src (.ok ((), v'))
  | error (hlt : nblocks < (places (reaches cnt n (off + src.length))).card) :
    Writes v cnt n off src (.error outOfBlocks)

/-- The bytes of a chunk are in one block. -/
theorem chunk_div {off m i : ℕ} (hm : m ≤ bsize - off % bsize) (hi : off ≤ i)
    (hi' : i < off + m) : i / bsize = off / bsize ∧ i % bsize = off % bsize + (i - off) := by
  simp only [bsize] at *
  omega

theorem lt_of_div_lt {i c : ℕ} (h : i / bsize < c) : i < bsize * c :=
  ((Nat.div_lt_iff_lt_mul (by decide)).1 h).trans_eq (Nat.mul_comm _ _)

/-- A byte before a chunk in its block, or after it. -/
theorem not_chunk {off m i : ℕ} (hd : i / bsize = off / bsize) (hi : ¬(off ≤ i ∧ i < off + m)) :
    ¬(off % bsize ≤ i % bsize ∧ i % bsize < off % bsize + m) := by
  simp only [bsize] at *
  omega

/-- The bytes of an inode after a chunk is written. -/
theorem Allotted.byte_chunk {off l : ℕ} {src : List UInt8} (h : Allotted v O)
    (hk : (n, some (off / bsize)) ∈ O) (hl : l ≤ bsize - off % bsize) (hl' : l ≤ src.length)
    {i : ℕ} (hi : (n, some (i / bsize)) ∈ O) :
    (v.setBlock (v.addr n (off / bsize))
      (overwrite (v.block (v.addr n (off / bsize))) (off % bsize) (src.take l))).byte n i =
      if off ≤ i ∧ i < off + l then src.getD (i - off) 0 else v.byte n i := by
  have hlen : (src.take l).length = l := List.length_take_of_le hl'
  rw [Volume.byte, (h.setData hk _).2 n _ hi]
  by_cases hin : off ≤ i ∧ i < off + l
  · obtain ⟨hd, hmod⟩ := chunk_div hl hin.1 hin.2
    rw [if_pos ⟨rfl, hd⟩, if_pos hin, overwrite, hlen, if_pos (by omega), hmod,
      Nat.add_sub_cancel_left, List.getD_eq_getElem?_getD, List.getElem?_take_of_lt (by omega),
      List.getD_eq_getElem?_getD]
  · rw [if_neg hin]
    by_cases hd : i / bsize = off / bsize
    · rw [if_pos ⟨rfl, hd⟩, overwrite, hlen, if_neg (not_chunk hd hin), Volume.byte, hd]
      rfl
    · rw [if_neg fun he => hd he.2]
      rfl

/-- A block with the first bytes in it. -/
def withChunk (w : Volume) (n : Fin ninodes) (off l : ℕ) (src : List UInt8) : Volume :=
  w.setBlock (w.addr n (off / bsize))
    (overwrite (w.block (w.addr n (off / bsize))) (off % bsize) (src.take l))

/-- A chunk in a block that is there now, and then the rest of the bytes. -/
theorem Grown.written {cnt₁ : Fin ninodes → ℕ} {w : Volume} {off l : ℕ} {src : List UInt8}
    (hg : Grown v (places cnt) w (places cnt₁)) (hc : Bounded cnt) (hc₁ : Bounded cnt₁)
    (hother : ∀ m, m ≠ n → cnt₁ m = cnt m) (hk : off / bsize < cnt₁ n)
    (hl : l ≤ bsize - off % bsize) (hl' : l ≤ src.length)
    (hreach : reaches cnt₁ n (off + src.length) = reaches cnt n (off + src.length))
    (h : Written (withChunk w n off l src) cnt₁ n (off + l) (src.drop l) v') :
    Written v cnt n off src v' := by
  have hlen : off + l + (src.drop l).length = off + src.length := by
    rw [List.length_drop]
    omega
  have hmem : (n, some (off / bsize)) ∈ places cnt₁ := (some_mem_places hc₁).2 hk
  have hbyte {i : ℕ} (hi : i / bsize < cnt₁ n) : (withChunk w n off l src).byte n i =
      if off ≤ i ∧ i < off + l then src.getD (i - off) 0 else w.byte n i :=
    hg.allotted.byte_chunk hmem hl hl' ((some_mem_places hc₁).2 hi)
  refine ⟨?_, fun m hm j hj => ?_, fun i hi hi' => ?_, fun i hi hi' => ?_, fun m =>
    (h.size m).trans (hg.size m)⟩
  · have hal := h.allotted
    rwa [hlen, hreach] at hal
  · have hj₁ : (m, some j) ∈ places cnt := (some_mem_places hc).2 hj
    rw [h.other m hm j (by rwa [hother m hm]), withChunk, (hg.allotted.setData hmem _).2 m j
      (hg.subset hj₁), if_neg fun he => hm he.1, hg.data m j hj₁]
  · by_cases hi'' : i < off + l
    · obtain ⟨hd, -⟩ := chunk_div hl hi hi''
      have hlt : i / bsize < cnt₁ n := hd ▸ hk
      have hout := h.outside i (lt_of_div_lt hlt) fun hin => absurd hi'' (not_lt.2 hin.1)
      rw [hout, hbyte hlt, if_pos ⟨hi, hi''⟩]
    · rw [h.inside i (not_lt.1 hi'') (hlen ▸ hi'), List.getD_eq_getElem?_getD,
        List.getElem?_drop, List.getD_eq_getElem?_getD, show l + (i - (off + l)) = i - off by omega]
  · have hlt : i / bsize < cnt n := Nat.div_lt_of_lt_mul hi
    have hmem₀ : (n, some (i / bsize)) ∈ places cnt := (some_mem_places hc).2 hlt
    have hlt₁ : i / bsize < cnt₁ n := (some_mem_places hc₁).1 (hg.subset hmem₀)
    have hout := h.outside i (lt_of_div_lt hlt₁) fun hin => hi' ⟨by omega, by omega⟩
    rw [hout, hbyte hlt₁, if_neg fun hin => hi' ⟨hin.1, by omega⟩]
    exact congrFun (hg.data n _ hmem₀) _

/-- The loop of `writei` puts the bytes into the blocks, or there are not enough of them. -/
theorem Allotted.writeLoop {off : ℕ} {src : List UInt8} (h : Allotted v (places cnt))
    (hc : Bounded cnt) (hoff : off ≤ bsize * cnt n) (hmax : off + src.length ≤ maxfile * bsize) :
    Writes v cnt n off src ((writeLoop n off src).run v) := by
  induction hlen : src.length using Nat.strong_induction_on generalizing v cnt off src with
  | _ len ih =>
  rw [FileSystem.writeLoop]
  split
  · rename_i hnil
    subst hnil
    have hsame : reaches cnt n (off + ([] : List UInt8).length) = cnt := by
      rw [reaches, List.length_nil, Nat.add_zero, max_eq_left (blocksFor_le.2 hoff), update_eq_self]
    refine .ok (hsame.symm ▸ h.card_le) ⟨hsame.symm ▸ h, fun _ _ _ _ => rfl, fun i hi hi' => ?_,
      fun _ _ _ => rfl, fun _ => rfl⟩
    exact absurd hi' (not_lt.2 hi)
  · rename_i hne
    have hpos := List.length_pos_of_ne_nil hne
    have hk : off / bsize < maxfile := Nat.div_lt_of_lt_mul (by rw [Nat.mul_comm]; omega)
    have hkc : off / bsize ≤ cnt n := Nat.div_le_of_le_mul hoff
    have hb := h.bmap (n := n) hk
    rw [mapped_places hc hk hkc] at hb
    have hc₁ := hc.update (n := n) (max_le (hc n) (Nat.succ_le_of_lt hk))
    generalize hcnt₁ : update cnt n (max (cnt n) (off / bsize + 1)) = cnt₁ at hb hc₁
    have hother : ∀ m, m ≠ n → cnt₁ m = cnt m := fun m hm => by rw [← hcnt₁, update_of_ne hm]
    -- The inode reaches as far in the end whether its next block is counted before or not.
    have hreach : reaches cnt₁ n (off + src.length) = reaches cnt n (off + src.length) := by
      have hle : off / bsize + 1 ≤ blocksFor (off + src.length) := by
        refine Nat.lt_of_not_le fun hle => ?_
        have := blocksFor_le.1 hle
        have := Nat.mul_div_le off bsize
        omega
      rw [reaches, reaches, ← hcnt₁, update_self, update_idem, max_assoc, max_eq_right hle]
    rw [StateT.run_bind]
    generalize (FileSystem.bmap n (off / bsize)).run v = r at hb
    cases hb with
    | error hlt =>
      refine .error (hlt.trans_le (Finset.card_le_card (places_mono fun m => ?_)))
      rw [← hreach]
      rcases eq_or_ne m n with rfl | hm
      · rw [reaches, update_self]
        exact le_max_left _ _
      · rw [reaches, update_of_ne hm]
    | ok hle hg =>
      rename_i w
      let l := min src.length (bsize - off % bsize)
      have hl : l ≤ bsize - off % bsize := min_le_right _ _
      have hl' : l ≤ src.length := min_le_left _ _
      have hk₁ : off / bsize < cnt₁ n := by
        rw [← hcnt₁, update_self]
        exact lt_max_of_lt_right (Nat.lt_succ_self _)
      have hend : off + l ≤ bsize * cnt₁ n := by
        have := Nat.div_add_mod off bsize
        have := Nat.mod_lt off (by decide : 0 < bsize)
        have := Nat.mul_le_mul_left bsize (Nat.succ_le_of_lt hk₁)
        rw [Nat.mul_succ] at this
        omega
      have hlen' : off + l + (src.drop l).length = off + src.length := by
        rw [List.length_drop]
        omega
      have hx : Allotted (withChunk w n off l src) (places cnt₁) :=
        (hg.allotted.setData ((some_mem_places hc₁).2 hk₁) _).1
      have hrest := ih (src.drop l).length (hlen ▸ drop_chunk_lt hne off) hx hc₁ hend (by omega) rfl
      change Writes v cnt n off src
        ((FileSystem.writeLoop n (off + l) (src.drop l)).run (withChunk w n off l src))
      generalize (FileSystem.writeLoop n (off + l) (src.drop l)).run _ = r at hrest
      cases hrest with
      | error hlt =>
        rw [hlen', hreach] at hlt
        exact .error hlt
      | ok hle' hw =>
        rw [hlen', hreach] at hle'
        exact .ok hle' (hg.written hc hc₁ hother hk₁ hl hl' hreach hw)

end FileSystem
