import CourseProjects.FileSystem.Inodes
import CourseProjects.Lib.Bitmap
import CourseProjects.Storage.Log

/-!
# The blocks of the inodes

Where the contents of an inode are: in blocks that the inode lists, or its indirect block,
out of those that are marked in the free bit map. The functions of `fs.c` on them run one
after another, as the others do; a call that halts has no volume after it.

* `Allotted.give`: a free block that is put at a place belongs to nobody else, and the contents
  of the other blocks stay.
-/

namespace FileSystem

open Bitmap Function Storage Tx Words

/-- The blocks before the data blocks, `nmeta` of `mkfs.c`. -/
abbrev nmeta : ℕ := fssize - nblocks

/-- Where the free bit map starts, `sb.bmapstart`. -/
abbrev bmapstart : ℕ := nmeta - 1

/-- `BPB`, the bits of a block of the map. -/
abbrev bpb : ℕ := bsize * 8

/-- The part of `struct dinode` that says where the contents are. There are `NDIRECT + 1` block
    numbers, the last one of the indirect block. -/
structure Layout where
  addrs : ℕ → ℕ
  size : ℕ

/-- The blocks of the disk, and the inodes. -/
structure Volume where
  block : ℕ → Block
  inode : Fin ninodes → Layout

namespace Volume

variable (v : Volume)

def setBlock (b : ℕ) (x : Block) : Volume := { v with block := update v.block b x }

def setAddr (n : Fin ninodes) (k a : ℕ) : Volume :=
  { v with inode := update v.inode n { v.inode n with addrs := update (v.inode n).addrs k a } }

def setSize (n : Fin ninodes) (size : ℕ) : Volume :=
  { v with inode := update v.inode n { v.inode n with size := size } }

/-- The bit of a block is set. -/
def Used (b : ℕ) : Prop := Bit (v.block (b / bpb + bmapstart)) (b % bpb)

instance : DecidablePred v.Used := fun _ => inferInstanceAs (Decidable (Bit _ _))

/-- The first block that is free. -/
def free : Option ℕ := (List.range fssize).find? fun b => ¬v.Used b

/-- The block is marked, and `bzero` clears it. -/
def alloc (b : ℕ) : Volume :=
  (v.setBlock (b / bpb + bmapstart) (mark (v.block (b / bpb + bmapstart)) (b % bpb))).setBlock b 0

end Volume

/-- A function of the kernel, on the blocks. -/
abbrev VolumeOp := Tx Volume Halt

def balloc : VolumeOp ℕ := do
  let v ← get
  match v.free with
  | some b => do
    set (v.alloc b)
    pure b
  | none => throw (.panic "balloc: out of blocks")

def bfree (b : ℕ) : VolumeOp Unit := do
  let v ← get
  failIf (¬v.Used b) (.panic "freeing free block")
  set (v.setBlock (b / bpb + bmapstart) (unmark (v.block (b / bpb + bmapstart)) (b % bpb)))

/-- The block at a place of `addrs`, allocated if necessary. -/
def slot (n : Fin ninodes) (k : ℕ) : VolumeOp ℕ := do
  let v ← get
  if (v.inode n).addrs k = 0 then do
    let addr ← balloc
    modify fun v => v.setAddr n k addr
    pure addr
  else pure ((v.inode n).addrs k)

/-- The block that the indirect block `a` lists at a place, allocated if necessary. -/
def listed (a k : ℕ) : VolumeOp ℕ := do
  let v ← get
  if word (v.block a) k = 0 then do
    let addr ← balloc
    modify fun v => v.setBlock a (setWord (v.block a) k addr)
    pure addr
  else pure (word (v.block a) k)

def bmap (n : Fin ninodes) (bn : ℕ) : VolumeOp ℕ :=
  if bn < ndirect then slot n bn
  else if bn - ndirect < nindirect then do
    let a ← slot n ndirect
    listed a (bn - ndirect)
  else throw (.panic "bmap: out of range")

/-- `memmove` into a block: bytes are written from a place on. -/
def overwrite (b : Block) (start : ℕ) (src : List UInt8) : Block := fun i =>
  if start ≤ i ∧ i < start + src.length then src.getD (i - start) 0 else b i

theorem drop_chunk_lt {src : List UInt8} (h : src ≠ []) (off : ℕ) :
    (src.drop (min src.length (bsize - off % bsize))).length < src.length := by
  have hpos := List.length_pos_of_ne_nil h
  have hoff := Nat.mod_lt off (by decide : 0 < bsize)
  rw [List.length_drop]
  omega

/-- The loop of `writei`. -/
def writeLoop (n : Fin ninodes) (off : ℕ) (src : List UInt8) : VolumeOp Unit :=
  if src = [] then pure ()
  else do
    let addr ← bmap n (off / bsize)
    let m := min src.length (bsize - off % bsize)
    modify fun v => v.setBlock addr (overwrite (v.block addr) (off % bsize) (src.take m))
    writeLoop n (off + m) (src.drop m)
termination_by src.length
decreasing_by exact drop_chunk_lt ‹¬src = []› off

/-- `writei`, for an inode that is no device. -/
def writeFile (n : Fin ninodes) (src : List UInt8) (off : ℕ) : VolumeOp ℤ := do
  let v ← get
  if (v.inode n).size < off ∨ maxfile * bsize < off + src.length then pure (-1)
  else do
    writeLoop n off src
    modify fun v =>
      if 0 < src.length ∧ (v.inode n).size < off + src.length then v.setSize n (off + src.length)
      else v
    pure src.length

/-- The loop of `readi`. -/
def readLoop (n : Fin ninodes) (off len : ℕ) : VolumeOp (List UInt8) :=
  if len = 0 then pure []
  else do
    let addr ← bmap n (off / bsize)
    let v ← get
    let m := min len (bsize - off % bsize)
    let rest ← readLoop n (off + m) (len - m)
    pure ((List.range m).map (fun i => v.block addr (off % bsize + i)) ++ rest)
termination_by len
decreasing_by
  have hoff := Nat.mod_lt off (by decide : 0 < bsize)
  omega

/-- `readi`, for an inode that is no device. -/
def readFile (n : Fin ninodes) (off len : ℕ) : VolumeOp (Option (List UInt8)) := do
  let v ← get
  if (v.inode n).size < off ∨ 2 ^ 32 ≤ off + len then pure none
  else do
    let bytes ← readLoop n off (min len ((v.inode n).size - off))
    pure (some bytes)

/-- A direct block of `itrunc`. -/
def freeDirect (n : Fin ninodes) (i : ℕ) : VolumeOp Unit := do
  let v ← get
  if (v.inode n).addrs i = 0 then pure ()
  else do
    bfree ((v.inode n).addrs i)
    modify fun v => v.setAddr n i 0

/-- A block of `itrunc` that the indirect block lists. -/
def freeListed (a j : ℕ) : VolumeOp Unit := do
  let v ← get
  if word (v.block a) j = 0 then pure ()
  else bfree (word (v.block a) j)

/-- `itrunc`. -/
def itrunc (n : Fin ninodes) : VolumeOp Unit := do
  (List.range ndirect).forM (freeDirect n)
  let v ← get
  if (v.inode n).addrs ndirect = 0 then pure ()
  else do
    (List.range nindirect).forM (freeListed ((v.inode n).addrs ndirect))
    bfree ((v.inode n).addrs ndirect)
    modify fun v => v.setAddr n ndirect 0
  modify fun v => v.setSize n 0

/-! ### Where the blocks belong -/

namespace Volume

variable (v : Volume)

/-- The block number of the block `k` of an inode. -/
def addr (n : Fin ninodes) (k : ℕ) : ℕ :=
  if k < ndirect then (v.inode n).addrs k
  else word (v.block ((v.inode n).addrs ndirect)) (k - ndirect)

/-- The block number of a block of an inode, or of its indirect block (`none`). -/
def place (n : Fin ninodes) : Option ℕ → ℕ
  | some k => v.addr n k
  | none => (v.inode n).addrs ndirect

/-- What the block `k` of an inode holds. -/
def data (n : Fin ninodes) (k : ℕ) : Block := v.block (v.addr n k)

/-- A block number is written to a place. -/
def setPlace (n : Fin ninodes) (b : ℕ) : Option ℕ → Volume
  | none => v.setAddr n ndirect b
  | some k =>
    if k < ndirect then v.setAddr n k b
    else
      v.setBlock ((v.inode n).addrs ndirect)
        (setWord (v.block ((v.inode n).addrs ndirect)) (k - ndirect) b)

end Volume

/-- The blocks of the inodes are those of a set of places, each of them is at one place only, and
    the bits of the map are those of these blocks and of the blocks before them. -/
structure Allotted (v : Volume) (O : Finset (Fin ninodes × Option ℕ)) : Prop where
  lt : ∀ n k, (n, some k) ∈ O → k < maxfile
  none_mem : ∀ n k, (n, some k) ∈ O → ndirect ≤ k → (n, none) ∈ O
  addr : ∀ n k, k < maxfile → (k < ndirect ∨ (n, none) ∈ O) →
    (v.addr n k ≠ 0 ↔ (n, some k) ∈ O)
  indirect : ∀ n, (v.inode n).addrs ndirect ≠ 0 ↔ (n, none) ∈ O
  inj : ∀ x ∈ O, ∀ y ∈ O, v.place x.1 x.2 = v.place y.1 y.2 → x = y
  range : ∀ x ∈ O, nmeta ≤ v.place x.1 x.2 ∧ v.place x.1 x.2 < fssize
  used : ∀ b < fssize, v.Used b ↔ b < nmeta ∨ ∃ x ∈ O, v.place x.1 x.2 = b

variable {v : Volume} {O : Finset (Fin ninodes × Option ℕ)} {n m : Fin ninodes} {o p : Option ℕ}
  {b k : ℕ}

/-- The map is in one block. -/
theorem Volume.used_iff (hb : b < fssize) : v.Used b ↔ Bit (v.block bmapstart) b := by
  rw [Volume.Used, Nat.div_eq_of_lt (hb.trans (by decide)), Nat.zero_add,
    Nat.mod_eq_of_lt (hb.trans (by decide))]

/-- As many blocks are used as there are places, and the blocks before them. -/
theorem Allotted.card_used (h : Allotted v O) :
    ((Finset.range fssize).filter v.Used).card = nmeta + O.card := by
  have hinj : Set.InjOn (fun x : Fin ninodes × Option ℕ => v.place x.1 x.2) O :=
    fun x hx y hy hxy => h.inj x hx y hy hxy
  have hset : (Finset.range fssize).filter v.Used =
      Finset.range nmeta ∪ O.image fun x => v.place x.1 x.2 := by
    ext b
    rw [Finset.mem_filter, Finset.mem_union, Finset.mem_range, Finset.mem_range, Finset.mem_image]
    constructor
    · rintro ⟨hb, hu⟩
      exact (h.used b hb).1 hu
    · rintro (hb | ⟨x, hx, rfl⟩)
      · have hb' : b < fssize := hb.trans_le (by decide)
        exact ⟨hb', (h.used b hb').2 (.inl hb)⟩
      · exact ⟨(h.range x hx).2, (h.used _ (h.range x hx).2).2 (.inr ⟨x, hx, rfl⟩)⟩
  have hdisj : Disjoint (Finset.range nmeta) (O.image fun x => v.place x.1 x.2) := by
    rw [Finset.disjoint_left]
    rintro b hb hmem
    obtain ⟨x, hx, rfl⟩ := Finset.mem_image.1 hmem
    exact absurd (Finset.mem_range.1 hb) (Nat.not_lt.2 (h.range x hx).1)
  rw [hset, Finset.card_union_of_disjoint hdisj, Finset.card_range, Finset.card_image_of_injOn hinj]

/-- There is a free block as long as not all of them belong to somebody. -/
theorem Allotted.free_isSome_iff (h : Allotted v O) : v.free.isSome ↔ O.card < nblocks := by
  have hcard := h.card_used
  have hle := Finset.card_filter_le (Finset.range fssize) v.Used
  rw [Finset.card_range] at hle
  have hmeta : nmeta + nblocks = fssize := by decide
  rw [Volume.free, List.find?_isSome]
  constructor
  · rintro ⟨b, hb, hfree⟩
    have hlt : ((Finset.range fssize).filter v.Used).card < (Finset.range fssize).card :=
      Finset.card_lt_card (Finset.filter_ssubset.2
        ⟨b, Finset.mem_range.2 (List.mem_range.1 hb), by simpa using hfree⟩)
    rw [Finset.card_range] at hlt
    omega
  · intro hlt
    have hne : (Finset.range fssize).filter v.Used ≠ Finset.range fssize := fun he => by
      rw [he, Finset.card_range] at hcard
      omega
    obtain ⟨b, hb, hfree⟩ := Finset.filter_ssubset.1
      (Finset.ssubset_iff_subset_ne.2 ⟨Finset.filter_subset _ _, hne⟩)
    exact ⟨b, List.mem_range.2 (Finset.mem_range.1 hb), by simpa using hfree⟩

theorem Volume.of_free_eq_some (h : v.free = some b) : b < fssize ∧ ¬v.Used b := by
  rw [Volume.free] at h
  have hmem := List.mem_of_find?_eq_some h
  exact ⟨List.mem_range.1 hmem, by simpa using List.find?_some h⟩

/-! ### A block is given to an inode -/

theorem Allotted.place_ne_map {x : Fin ninodes × Option ℕ} (h : Allotted v O) (hx : x ∈ O) :
    v.place x.1 x.2 ≠ bmapstart := by
  have hlt := (h.range x hx).1
  have hmap : bmapstart < nmeta := by decide
  exact (hmap.trans_le hlt).ne'

/-- A free block is after those before the data blocks, and belongs to nobody. -/
theorem Allotted.of_free (h : Allotted v O) (hb : b < fssize) (hfree : ¬v.Used b) :
    nmeta ≤ b ∧ ∀ x ∈ O, v.place x.1 x.2 ≠ b := by
  rw [h.used b hb, not_or, not_lt] at hfree
  exact ⟨hfree.1, fun x hx he => hfree.2 ⟨x, hx, he⟩⟩

theorem Volume.block_alloc_self : (v.alloc b).block b = 0 := update_self ..

/-- What is in a block that belongs to somebody stays when a free one is allocated. -/
theorem Allotted.block_alloc {x : Fin ninodes × Option ℕ} (h : Allotted v O) (hx : x ∈ O)
    (hb : b < fssize) (hfree : ¬v.Used b) :
    (v.alloc b).block (v.place x.1 x.2) = v.block (v.place x.1 x.2) := by
  have hmap : b / bpb + bmapstart = bmapstart := by
    rw [Nat.div_eq_of_lt (hb.trans (by decide)), Nat.zero_add]
  rw [Volume.alloc, Volume.setBlock, hmap]
  change update (update v.block _ _) b 0 _ = _
  rw [update_of_ne ((h.of_free hb hfree).2 x hx), update_of_ne (h.place_ne_map hx)]

/-- The map after a block is allocated. -/
theorem Allotted.used_alloc (h : Allotted v O) (hb : b < fssize) (hfree : ¬v.Used b) {c : ℕ}
    (hc : c < fssize) : (v.alloc b).Used c ↔ c = b ∨ v.Used c := by
  have hmap : bmapstart < nmeta := by decide
  have hne : bmapstart ≠ b := (hmap.trans_le (h.of_free hb hfree).1).ne
  rw [Volume.used_iff hc, Volume.used_iff hc, ← bit_mark, Volume.alloc, Volume.setBlock,
    Nat.div_eq_of_lt (hb.trans (by decide)), Nat.zero_add, Nat.mod_eq_of_lt (hb.trans (by decide))]
  change Bit (update (update v.block _ _) b 0 bmapstart) c ↔ _
  rw [update_of_ne hne, update_self]

/-- Where the inode has no block yet, one can be put: at a direct place, or at one that its indirect
    block lists. -/
structure Unallotted (O : Finset (Fin ninodes × Option ℕ)) (n : Fin ninodes) (o : Option ℕ) :
    Prop where
  not_mem : (n, o) ∉ O
  lt : ∀ k, o = some k → k < maxfile
  none_mem : ∀ k, o = some k → ndirect ≤ k → (n, none) ∈ O

/-- A free block is put at such a place. -/
def Volume.give (v : Volume) (n : Fin ninodes) (o : Option ℕ) (b : ℕ) : Volume :=
  (v.alloc b).setPlace n b o

namespace Volume

theorem setAddr_addrs (v : Volume) (n m : Fin ninodes) (k j a : ℕ) :
    ((v.setAddr n k a).inode m).addrs j = if m = n ∧ j = k then a else (v.inode m).addrs j := by
  rw [setAddr]
  rcases eq_or_ne m n with rfl | hm
  · simp only [update_self, true_and]
    rw [update_apply]
  · simp [hm]

theorem setAddr_size (v : Volume) (n m : Fin ninodes) (k a : ℕ) :
    ((v.setAddr n k a).inode m).size = (v.inode m).size := by
  rw [setAddr]
  rcases eq_or_ne m n with rfl | hm
  · simp
  · simp [hm]

theorem setPlace_size (v : Volume) (n m : Fin ninodes) (b : ℕ) (o : Option ℕ) :
    ((v.setPlace n b o).inode m).size = (v.inode m).size := by
  cases o with
  | none => exact setAddr_size ..
  | some k =>
    rw [setPlace]
    split
    · exact setAddr_size ..
    · rfl

theorem give_size (v : Volume) (n m : Fin ninodes) (o : Option ℕ) (b : ℕ) :
    ((v.give n o b).inode m).size = (v.inode m).size :=
  setPlace_size ..

/-- The indirect blocks of the inodes, once a block is put at a place. -/
theorem setPlace_indirect (v : Volume) (n m : Fin ninodes) (b : ℕ) (o : Option ℕ) :
    ((v.setPlace n b o).inode m).addrs ndirect =
      if m = n ∧ o = none then b else (v.inode m).addrs ndirect := by
  cases o with
  | none => simp [setPlace, setAddr_addrs]
  | some k =>
    rw [setPlace]
    split
    · rename_i hk
      rw [setAddr_addrs, if_neg fun h => hk.ne' h.2, if_neg fun h => nomatch h.2]
    · rw [if_neg fun h => nomatch h.2]
      rfl

/-- The direct blocks. -/
theorem setPlace_addr (v : Volume) (n m : Fin ninodes) (b : ℕ) (o : Option ℕ) {j : ℕ}
    (hj : j < ndirect) :
    (v.setPlace n b o).addr m j = if m = n ∧ o = some j then b else v.addr m j := by
  rw [addr, if_pos hj, addr, if_pos hj]
  cases o with
  | none => rw [setPlace, setAddr_addrs, if_neg fun h => hj.ne h.2, if_neg fun h => nomatch h.2]
  | some k =>
    rw [setPlace]
    split
    · rw [setAddr_addrs]
      simp only [Option.some.injEq, eq_comm]
    · rename_i hk
      have hne : ¬(m = n ∧ some k = some j) := fun h => hk (Option.some.inj h.2 ▸ hj)
      rw [if_neg hne]
      rfl

/-- Only an indirect block changes when a block is put at a place. -/
theorem setPlace_block (v : Volume) (n : Fin ninodes) (b : ℕ) (o : Option ℕ) {c : ℕ}
    (hc : ∀ k, o = some k → ndirect ≤ k → c ≠ (v.inode n).addrs ndirect) :
    (v.setPlace n b o).block c = v.block c := by
  cases o with
  | none => rfl
  | some k =>
    rw [setPlace]
    split
    · rfl
    · rename_i hk
      exact update_of_ne (hc k rfl (not_lt.1 hk)) _ _

/-- The block numbers that an indirect block lists. -/
theorem setPlace_word (v : Volume) (n : Fin ninodes) (b : ℕ) (o : Option ℕ) (c : ℕ) {j : ℕ}
    (hj : ndirect ≤ j) :
    word ((v.setPlace n b o).block c) (j - ndirect) =
      if o = some j ∧ c = (v.inode n).addrs ndirect then b % 2 ^ 32
      else word (v.block c) (j - ndirect) := by
  by_cases ho : ∃ k, o = some k ∧ ndirect ≤ k ∧ c = (v.inode n).addrs ndirect
  · obtain ⟨k, rfl, hk, rfl⟩ := ho
    rw [setPlace, if_neg (not_lt.2 hk)]
    change word (update v.block _ _ _) _ = _
    rw [update_self, word_setWord]
    refine if_congr ?_ rfl rfl
    simp only [Option.some.injEq, and_true]
    omega
  · rw [setPlace_block v n b o fun k hk hkn hc => ho ⟨k, hk, hkn, hc⟩,
      if_neg fun h => ho ⟨j, h.1, hj, h.2⟩]

end Volume

/-- The other block numbers stay. -/
theorem Allotted.addr_give (h : Allotted v O) (ho : Unallotted O n o) (hb : b < fssize)
    (hfree : ¬v.Used b) {j : ℕ} (hj : j < ndirect ∨ (m, none) ∈ O) (hne : ¬(m = n ∧ o = some j)) :
    (v.give n o b).addr m j = v.addr m j := by
  by_cases hlt : j < ndirect
  · rw [Volume.give, Volume.setPlace_addr _ _ _ _ _ hlt, if_neg hne]
    simp only [Volume.addr, if_pos hlt]
    rfl
  · have hnone := hj.resolve_left hlt
    have hne' : ¬(m = n ∧ o = none) := by
      rintro ⟨rfl, rfl⟩
      exact ho.not_mem hnone
    have hword : ¬(o = some j ∧ (v.inode m).addrs ndirect = (v.inode n).addrs ndirect) := by
      rintro ⟨rfl, he⟩
      -- The indirect blocks of two inodes are different ones.
      have hn := ho.none_mem j rfl (not_lt.1 hlt)
      exact hne ⟨congrArg Prod.fst (h.inj _ hnone _ hn he), rfl⟩
    simp only [Volume.addr, if_neg hlt]
    rw [Volume.give, Volume.setPlace_indirect, if_neg hne']
    refine (Volume.setPlace_word _ _ _ _ _ (not_lt.1 hlt)).trans ?_
    change (if o = some j ∧ (v.inode m).addrs ndirect = (v.inode n).addrs ndirect then _
      else word ((v.alloc b).block ((v.inode m).addrs ndirect)) _) = _
    rw [if_neg hword]
    exact congrArg (word · _) (h.block_alloc hnone hb hfree)

theorem Allotted.place_give (h : Allotted v O) (ho : Unallotted O n o) (hb : b < fssize)
    (hfree : ¬v.Used b) {x : Fin ninodes × Option ℕ} (hx : x ∈ O) :
    (v.give n o b).place x.1 x.2 = v.place x.1 x.2 := by
  obtain ⟨m, p⟩ := x
  have hne : ¬(m = n ∧ o = p) := by
    rintro ⟨rfl, rfl⟩
    exact ho.not_mem hx
  cases p with
  | none =>
    change ((v.give n o b).inode m).addrs ndirect = _
    rw [Volume.give, Volume.setPlace_indirect, if_neg hne]
    rfl
  | some j =>
    exact h.addr_give ho hb hfree ((lt_or_ge j ndirect).imp_right fun hj => h.none_mem m j hx hj) hne

/-- What a place has that a block is put at. -/
theorem Unallotted.place_give (ho : Unallotted O n o) (hb : b < fssize) :
    (v.give n o b).place n o = b := by
  cases o with
  | none =>
    change ((v.give n none b).inode n).addrs ndirect = b
    rw [Volume.give, Volume.setPlace_indirect, if_pos ⟨rfl, rfl⟩]
  | some k =>
    change (v.give n (some k) b).addr n k = b
    by_cases hk : k < ndirect
    · rw [Volume.give, Volume.setPlace_addr _ _ _ _ _ hk, if_pos ⟨rfl, rfl⟩]
    · have hne : ¬(n = n ∧ some k = none) := fun h => nomatch h.2
      rw [Volume.addr, if_neg hk, Volume.give, Volume.setPlace_indirect, if_neg hne]
      refine (Volume.setPlace_word _ _ _ _ _ (not_lt.1 hk)).trans ?_
      rw [if_pos ⟨rfl, rfl⟩, Nat.mod_eq_of_lt (hb.trans (by decide))]

/-- Blocks that are not indirect ones are not changed by the block number that is put somewhere. -/
theorem Unallotted.block_give (ho : Unallotted O n o) {c : ℕ}
    (hc : (n, none) ∈ O → c ≠ v.place n none) : (v.give n o b).block c = (v.alloc b).block c :=
  Volume.setPlace_block _ _ _ _ fun k hk hkn => hc (ho.none_mem k hk hkn)

/-- A free block that is put at such a place belongs to the inode, and to nobody else. -/
theorem Allotted.give (h : Allotted v O) (ho : Unallotted O n o) (hb : b < fssize)
    (hfree : ¬v.Used b) : Allotted (v.give n o b) (insert (n, o) O) := by
  obtain ⟨hmeta, hother⟩ := h.of_free hb hfree
  have hb0 : b ≠ 0 := (Nat.lt_of_lt_of_le (by decide : 0 < nmeta) hmeta).ne'
  have hself := ho.place_give (v := v) hb
  have hold : ∀ x ∈ O, (v.give n o b).place x.1 x.2 = v.place x.1 x.2 := fun x hx =>
    h.place_give ho hb hfree hx
  refine ⟨fun m j hmj => ?_, fun m j hmj hj => ?_, fun m j hj hj' => ?_, fun m => ?_,
    fun x hx y hy hxy => ?_, fun x hx => ?_, fun c hc => ?_⟩
  · rcases Finset.mem_insert.1 hmj with he | hmj
    · cases he
      exact ho.lt j rfl
    · exact h.lt m j hmj
  · rcases Finset.mem_insert.1 hmj with he | hmj
    · cases he
      exact Finset.mem_insert_of_mem (ho.none_mem j rfl hj)
    · exact Finset.mem_insert_of_mem (h.none_mem m j hmj hj)
  · by_cases he : m = n ∧ o = some j
    · obtain ⟨rfl, rfl⟩ := he
      refine iff_of_true ?_ (Finset.mem_insert_self _ _)
      change (v.give m (some j) b).place m (some j) ≠ 0
      rwa [hself]
    · have hins : (m, some j) ∈ insert (n, o) O ↔ (m, some j) ∈ O := by
        refine Finset.mem_insert.trans (or_iff_right fun h => he ?_)
        cases h
        exact ⟨rfl, rfl⟩
      rw [hins]
      by_cases hj'' : j < ndirect ∨ (m, none) ∈ O
      · rw [h.addr_give ho hb hfree hj'' he]
        exact h.addr m j hj hj''
      · -- The indirect block is the one that is allocated: it lists nothing.
        rw [not_or] at hj''
        have hnew : (m, none) = (n, o) :=
          (Finset.mem_insert.1 (hj'.resolve_left hj''.1)).resolve_right hj''.2
        cases hnew
        refine iff_of_false (fun hne => hne ?_) fun hmem =>
          hj''.2 (h.none_mem n j hmem (not_lt.1 hj''.1))
        have hind : ((v.give n none b).inode n).addrs ndirect = b := hself
        rw [Volume.addr, if_neg hj''.1, hind]
        change word ((v.alloc b).block b) _ = 0
        rw [Volume.block_alloc_self]
        rfl
  · rw [Volume.give, Volume.setPlace_indirect]
    split
    · rename_i he
      obtain ⟨rfl, rfl⟩ := he
      exact iff_of_true hb0 (Finset.mem_insert_self _ _)
    · rename_i he
      refine (h.indirect m).trans (Finset.mem_insert.trans (or_iff_right fun h => he ?_)).symm
      cases h
      exact ⟨rfl, rfl⟩
  · rcases Finset.mem_insert.1 hx with rfl | hx <;> rcases Finset.mem_insert.1 hy with rfl | hy
    · rfl
    · rw [hself, hold y hy] at hxy
      exact absurd hxy.symm (hother y hy)
    · rw [hself, hold x hx] at hxy
      exact absurd hxy (hother x hx)
    · rw [hold x hx, hold y hy] at hxy
      exact h.inj x hx y hy hxy
  · rcases Finset.mem_insert.1 hx with rfl | hx
    · rw [hself]
      exact ⟨hmeta, hb⟩
    · rw [hold x hx]
      exact h.range x hx
  · have hmap : (v.give n o b).block bmapstart = (v.alloc b).block bmapstart :=
      ho.block_give fun hn => (h.place_ne_map hn).symm
    rw [Volume.used_iff hc, hmap, ← Volume.used_iff hc, h.used_alloc hb hfree hc, h.used c hc]
    simp only [Finset.mem_insert, exists_eq_or_imp, hself]
    constructor
    · rintro (rfl | hc | ⟨x, hx, rfl⟩)
      · exact .inr (.inl rfl)
      · exact .inl hc
      · exact .inr (.inr ⟨x, hx, hold x hx⟩)
    · rintro (hc | rfl | ⟨x, hx, rfl⟩)
      · exact .inr (.inl hc)
      · exact .inl rfl
      · exact .inr (.inr ⟨x, hx, (hold x hx).symm⟩)

/-- The contents of the other blocks stay, and those of a new one are zeros. -/
theorem Allotted.data_give (h : Allotted v O) (ho : Unallotted O n o) (hb : b < fssize)
    (hfree : ¬v.Used b) {j : ℕ} (hj : (m, some j) ∈ insert (n, o) O) :
    (v.give n o b).data m j = if (m, some j) ∈ O then v.data m j else 0 := by
  have hplace (hn : (n, none) ∈ O) (hm : (m, some j) ∈ O) : v.place m (some j) ≠ v.place n none :=
    fun he => nomatch congrArg Prod.snd (h.inj _ hm _ hn he)
  split
  · rename_i hm
    have haddr : (v.give n o b).addr m j = v.addr m j := h.place_give ho hb hfree hm
    rw [Volume.data, haddr, Volume.data]
    exact (ho.block_give fun hn => hplace hn hm).trans (h.block_alloc hm hb hfree)
  · rename_i hm
    have hnew := (Finset.mem_insert.1 hj).resolve_right hm
    cases hnew
    have haddr : (v.give n (some j) b).addr n j = b := ho.place_give hb
    have hother : (n, none) ∈ O → b ≠ v.place n none := fun hn =>
      ((h.of_free hb hfree).2 (n, none) hn).symm
    rw [Volume.data, haddr, ho.block_give hother, Volume.block_alloc_self]

end FileSystem
