import CourseProjects.FileSystem.Freeing

/-!
# The inodes as files

Over the blocks, an inode is a list of bytes (`Files`): `writei` writes over it or after it,
`readi` reads a part of it, and `itrunc` empties it. There are enough blocks as long as the lists,
with the indirect blocks that they need, take no more than there are.

* `Lays.writeFile`, `Lays.readFile`, `Lays.itrunc`: the functions on the blocks do what those on
  the lists do.
* `run_files`: so does any number of calls, one after another.
* `writei_files`, `readi_files`: the functions on the inodes of the other modules are those on the
  lists.
-/

namespace FileSystem

open Function Storage Tx

/-- What is in the inodes. -/
abbrev Files := Fin ninodes → List UInt8

namespace Files

/-- The number of blocks of an inode. -/
def count (f : Files) (n : Fin ninodes) : ℕ := blocksFor (f n).length

/-- The number of blocks of all of them, with the indirect blocks. -/
def blocks (f : Files) : ℕ := ∑ n, withIndirect (f.count n)

/-- `writei`, on the bytes. -/
def write (n : Fin ninodes) (src : List UInt8) (off : ℕ) : Tx Files Halt ℤ := do
  let f ← get
  if (f n).length < off ∨ maxfile * bsize < off + src.length then pure (-1)
  else do
    let f' : Files := update f n (splice (f n) src off)
    failIf (nblocks < f'.blocks) outOfBlocks
    set f'
    pure src.length

/-- `readi`, on the bytes. -/
def read (n : Fin ninodes) (off len : ℕ) : Tx Files Halt (Option (List UInt8)) := do
  let f ← get
  if (f n).length < off ∨ 2 ^ 32 ≤ off + len then pure none
  else pure (some (((f n).drop off).take len))

/-- `itrunc`, on the bytes. -/
def trunc (n : Fin ninodes) : Tx Files Halt Unit := modify fun f => update f n []

end Files

/-- The blocks hold the bytes of the inodes: each inode has the blocks that it needs, and no
    others, and no block belongs to two of them. -/
structure Lays (v : Volume) (f : Files) : Prop where
  allotted : Allotted v (places f.count)
  le : ∀ n, (f n).length ≤ maxfile * bsize
  size : ∀ n, (v.inode n).size = (f n).length
  byte : ∀ n, ∀ i < (f n).length, v.byte n i = (f n).getD i 0

variable {v w : Volume} {f : Files} {n m : Fin ninodes} {src : List UInt8} {off len : ℕ}

theorem Lays.bounded (h : Lays v f) : Bounded f.count := fun n =>
  blocksFor_le.2 ((h.le n).trans_eq (Nat.mul_comm _ _))

theorem length_le_count (f : Files) (n : Fin ninodes) : (f n).length ≤ bsize * f.count n :=
  blocksFor_le.1 le_rfl

/-! ### Writing -/

theorem blocksFor_max (a b : ℕ) : blocksFor (max a b) = max (blocksFor a) (blocksFor b) := by
  refine eq_of_forall_ge_iff fun c => ?_
  rw [max_le_iff, blocksFor_le, blocksFor_le, blocksFor_le, max_le_iff]

theorem length_splice_max {data : List UInt8} (h : off ≤ data.length) :
    (splice data src off).length = max data.length (off + src.length) := by
  rw [splice, List.length_append, List.length_append, List.length_take, List.length_drop]
  omega

/-- The bytes after some of them are written. -/
theorem getD_splice {data : List UInt8} (h : off ≤ data.length) (i : ℕ) :
    (splice data src off).getD i 0 =
      if off ≤ i ∧ i < off + src.length then src.getD (i - off) 0 else data.getD i 0 := by
  have hlen : (data.take off).length = off := List.length_take_of_le h
  simp only [splice, List.append_assoc, List.getD_eq_getElem?_getD, List.getElem?_append, hlen,
    List.getElem?_drop]
  by_cases h₁ : i < off
  · rw [if_pos h₁, if_neg fun hi => absurd h₁ (not_lt.2 hi.1), List.getElem?_take_of_lt h₁]
  · rw [if_neg h₁]
    by_cases h₂ : i - off < src.length
    · rw [if_pos h₂, if_pos ⟨not_lt.1 h₁, by omega⟩]
    · rw [if_neg h₂, if_neg fun hi => h₂ (by omega), show
        off + src.length + (i - off - src.length) = i by omega]

/-- The inode after a write. -/
theorem count_update (hoff : off ≤ (f n).length) :
    Files.count (update f n (splice (f n) src off)) = reaches f.count n (off + src.length) := by
  funext m
  rw [Files.count, reaches]
  rcases eq_or_ne m n with rfl | hm
  · rw [update_self, update_self, length_splice_max hoff, blocksFor_max]
    rfl
  · rw [update_of_ne hm, update_of_ne hm]
    rfl

/-- What `writei` does with the size after its loop. -/
def grown (w : Volume) (n : Fin ninodes) (size : ℕ) : Volume :=
  if (w.inode n).size < size then w.setSize n size else w

theorem grown_eq (w : Volume) (n : Fin ninodes) (size : ℕ) :
    (∃ size', grown w n size = w.setSize n size') ∨ grown w n size = w := by
  rw [grown]
  split
  · exact .inl ⟨size, rfl⟩
  · exact .inr rfl

theorem size_grown (w : Volume) (n m : Fin ninodes) (size : ℕ) :
    ((grown w n size).inode m).size =
      if m = n then max (w.inode n).size size else (w.inode m).size := by
  rw [grown]
  split
  · rename_i h
    rw [Volume.setSize_size, max_eq_right h.le]
  · rename_i h
    rw [max_eq_left (not_lt.1 h)]
    split
    · rename_i hm
      rw [hm]
    · rfl

/-- The bytes that are in the blocks after a write, with the new size. -/
theorem Lays.written (h : Lays v f) (hoff : off ≤ (f n).length)
    (hmax : off + src.length ≤ maxfile * bsize) (hw : Written v f.count n off src w) :
    Lays (grown w n (off + src.length)) (update f n (splice (f n) src off)) := by
  have hbyte : ∀ m i, (grown w n (off + src.length)).byte m i = w.byte m i := fun m i => by
    rcases grown_eq w n (off + src.length) with ⟨size, he⟩ | he
    · rw [he, Volume.byte, data_setSize]
      rfl
    · rw [he]
  refine ⟨?_, fun m => ?_, fun m => ?_, fun m i hi => ?_⟩
  · rw [count_update hoff]
    rcases grown_eq w n (off + src.length) with ⟨size, he⟩ | he
    · rw [he]
      exact hw.allotted.setSize n size
    · rw [he]
      exact hw.allotted
  · rcases eq_or_ne m n with rfl | hm
    · rw [update_self, length_splice_max hoff]
      exact max_le (h.le m) hmax
    · rw [update_of_ne hm]
      exact h.le m
  · rw [size_grown, hw.size, hw.size, h.size, h.size]
    rcases eq_or_ne m n with rfl | hm
    · rw [update_self, length_splice_max hoff, if_pos rfl]
    · rw [update_of_ne hm, if_neg hm]
  · rw [hbyte]
    rcases eq_or_ne m n with rfl | hm
    · rw [update_self, length_splice_max hoff] at hi
      rw [update_self, getD_splice hoff]
      split
      · rename_i hin
        exact hw.inside i hin.1 hin.2
      · rename_i hout
        have hlt : i < (f m).length := by omega
        rw [hw.outside i (hlt.trans_le (length_le_count f m)) hout, h.byte m i hlt]
    · rw [update_of_ne hm] at hi ⊢
      have hj : i / bsize < f.count m := Nat.div_lt_of_lt_mul (hi.trans_le (length_le_count f m))
      rw [← h.byte m i hi, Volume.byte, hw.other m hm _ hj]
      rfl

theorem Files.write_run (n : Fin ninodes) (src : List UInt8) (off : ℕ) (f : Files) :
    (Files.write n src off).run f =
      if (f n).length < off ∨ maxfile * bsize < off + src.length then .ok (-1, f)
      else if nblocks < Files.blocks (update f n (splice (f n) src off)) then .error outOfBlocks
      else .ok (src.length, update f n (splice (f n) src off)) := by
  rw [Files.write, get_bind]
  split
  · rfl
  · rw [StateT.run_bind, failIf]
    split
    · rfl
    · rfl

/-- `writei` on the blocks. -/
theorem Lays.writeFile (n : Fin ninodes) (src : List UInt8) (off : ℕ) :
    Refines Lays (writeFile n src off) (Files.write n src off) := by
  intro v f h
  rw [FileSystem.writeFile, get_bind, Files.write_run, h.size]
  by_cases hbad : (f n).length < off ∨ maxfile * bsize < off + src.length
  · rw [if_pos hbad, if_pos hbad]
    exact .ok _ h
  rw [if_neg hbad, if_neg hbad]
  rw [not_or, not_lt, not_lt] at hbad
  obtain ⟨hoff, hmax⟩ := hbad
  have hloop : Writes v f.count n off src ((writeLoop n off src).run v) :=
    h.allotted.writeLoop h.bounded (hoff.trans (length_le_count f n)) hmax
  have hbounded : Bounded (reaches f.count n (off + src.length)) :=
    h.bounded.update (max_le (h.bounded n) (blocksFor_le.2 (hmax.trans_eq (Nat.mul_comm _ _))))
  have hcard : (places (reaches f.count n (off + src.length))).card =
      Files.blocks (update f n (splice (f n) src off)) := by
    rw [card_places hbounded, Files.blocks, count_update hoff]
  rw [StateT.run_bind]
  generalize (writeLoop n off src).run v = r at hloop
  cases hloop with
  | error hlt =>
    rw [hcard] at hlt
    rw [if_pos hlt]
    exact .error outOfBlocks
  | ok hle hw =>
    rename_i w
    rw [hcard] at hle
    rw [if_neg (not_lt.2 hle)]
    have hlays := h.written hoff hmax hw
    have hsize : (w.inode n).size = (f n).length := (hw.size n).trans (h.size n)
    -- The size grows only when something is written.
    have hgrown : (if 0 < src.length ∧ (w.inode n).size < off + src.length then
        w.setSize n (off + src.length) else w) = grown w n (off + src.length) :=
      if_congr (and_iff_right_of_imp fun hlt => by omega) rfl rfl
    rw [← hgrown] at hlays
    exact .ok (src.length : ℤ) hlays

/-! ### Reading -/

/-- `bmap` of a block that is there. -/
theorem Allotted.bmap_of_mem {O : Finset (Fin ninodes × Option ℕ)} {k : ℕ} (h : Allotted v O)
    (hk : (n, some k) ∈ O) : (FileSystem.bmap n k).run v = .ok (v.addr n k, v) := by
  have hlt := h.lt n k hk
  have hne := (h.addr n k hlt ((lt_or_ge k ndirect).imp_right (h.none_mem n k hk))).2 hk
  by_cases hd : k < ndirect
  · rw [Volume.addr, if_pos hd] at hne ⊢
    rw [FileSystem.bmap, if_pos hd, slot_run, if_neg hne]
  · have hlist : k - ndirect < nindirect := by
      have hmax : maxfile = ndirect + nindirect := rfl
      omega
    have hind := (h.indirect n).2 (h.none_mem n k hk (not_lt.1 hd))
    rw [Volume.addr, if_neg hd] at hne ⊢
    rw [FileSystem.bmap, if_neg hd, if_pos hlist, StateT.run_bind, slot_run, if_neg hind]
    change (listed _ _).run v = _
    rw [listed, get_bind, if_neg hne]
    rfl

/-- The loop of `readi`. -/
theorem Lays.readLoop (h : Lays v f) (hle : off + len ≤ (f n).length) :
    (readLoop n off len).run v = .ok (((f n).drop off).take len, v) := by
  induction hl : len using Nat.strong_induction_on generalizing off len with
  | _ l ih =>
  subst hl
  rw [FileSystem.readLoop]
  split
  · rename_i h0
    rw [h0, List.take_zero]
    rfl
  · rename_i h0
    have hk : off / bsize < f.count n :=
      Nat.div_lt_of_lt_mul (by have := length_le_count f n; omega)
    have hpos : 0 < bsize - off % bsize := Nat.sub_pos_of_lt (Nat.mod_lt _ (by decide))
    let m := min len (bsize - off % bsize)
    have hm : m ≤ len := min_le_left _ _
    have hrest : (FileSystem.readLoop n (off + m) (len - m)).run v =
        .ok (((f n).drop (off + m)).take (len - m), v) := ih _ (by omega) (by omega) rfl
    have hchunk : (List.range m).map (fun i => v.block (v.addr n (off / bsize)) (off % bsize + i)) =
        ((f n).drop off).take m := by
      refine List.ext_getElem (by simp; omega) fun i hi hi' => ?_
      rw [List.length_map, List.length_range] at hi
      obtain ⟨hd, hmod⟩ := chunk_div (min_le_right len _) (Nat.le_add_right off i)
        (Nat.add_lt_add_left hi off)
      have hbyte := h.byte n (off + i) (by omega)
      rw [Volume.byte, hd, hmod, Nat.add_sub_cancel_left, Volume.data] at hbyte
      rw [List.getElem_map, List.getElem_range, hbyte, List.getElem_take, List.getElem_drop,
        List.getD_eq_getElem _ _ (by omega)]
    have hsplit : ((f n).drop off).take m ++ ((f n).drop (off + m)).take (len - m) =
        ((f n).drop off).take len := by
      rw [← List.drop_drop, ← List.take_add, Nat.add_sub_cancel' hm]
    have haddr := h.allotted.bmap_of_mem ((some_mem_places h.bounded).2 hk)
    refine bind_eq_ok.2 ⟨_, v, haddr, ?_⟩
    rw [get_bind]
    refine bind_eq_ok.2 ⟨_, v, hrest, ?_⟩
    rw [hchunk, hsplit]
    rfl

/-- `readi` on the blocks. -/
theorem Lays.readFile (n : Fin ninodes) (off len : ℕ) :
    Refines Lays (readFile n off len) (Files.read n off len) := by
  intro v f h
  rw [FileSystem.readFile, Files.read, get_bind, get_bind, h.size]
  by_cases hbad : (f n).length < off ∨ 2 ^ 32 ≤ off + len
  · rw [if_pos hbad, if_pos hbad]
    exact .ok _ h
  · rw [if_neg hbad, if_neg hbad]
    rw [not_or, not_lt] at hbad
    have hloop : (FileSystem.readLoop n off (min len ((f n).length - off))).run v =
        .ok (((f n).drop off).take (min len ((f n).length - off)), v) := h.readLoop (by omega)
    have htake : ((f n).drop off).take (min len ((f n).length - off)) =
        ((f n).drop off).take len := by
      rw [← List.length_drop, ← List.take_take, List.take_length]
    rw [htake] at hloop
    rw [StateT.run_bind, hloop]
    exact .ok _ h

/-! ### Truncating -/

theorem places_filter {cnt : Fin ninodes → ℕ} (hc : Bounded cnt) :
    ((places cnt).filter fun x => x.1 ≠ n) = places (update cnt n 0) := by
  ext ⟨m, o⟩
  rw [Finset.mem_filter, mem_places hc, mem_places (hc.update (Nat.zero_le _))]
  rcases eq_or_ne m n with rfl | hm
  · rw [update_self]
    refine iff_of_false (fun h => h.2 rfl) fun h => ?_
    cases o with
    | none => exact Nat.not_lt_zero _ h
    | some k => exact Nat.not_lt_zero _ h
  · rw [update_of_ne hm]
    exact and_iff_left hm

/-- `itrunc` on the blocks. -/
theorem Lays.itrunc (n : Fin ninodes) : Refines Lays (itrunc n) (Files.trunc n) := by
  intro v f h
  obtain ⟨w, hrun, hal, hdata, hsize⟩ := h.allotted.itrunc n
  rw [hrun]
  suffices hlays : Lays w (update f n []) from .ok () hlays
  refine ⟨?_, fun m => ?_, fun m => ?_, fun m i hi => ?_⟩
  · have hcount : Files.count (update f n []) = update f.count n 0 := by
      funext m
      rcases eq_or_ne m n with rfl | hm
      · rw [Files.count, update_self, update_self]
        rfl
      · rw [Files.count, update_of_ne hm, update_of_ne hm]
        rfl
    rwa [places_filter h.bounded, ← hcount] at hal
  · rcases eq_or_ne m n with rfl | hm
    · rw [update_self]
      exact Nat.zero_le _
    · rw [update_of_ne hm]
      exact h.le m
  · rw [hsize]
    rcases eq_or_ne m n with rfl | hm
    · rw [update_self, if_pos rfl]
      rfl
    · rw [update_of_ne hm, if_neg hm, h.size]
  · rcases eq_or_ne m n with rfl | hm
    · rw [update_self] at hi
      exact absurd hi (Nat.not_lt_zero i)
    · rw [update_of_ne hm] at hi ⊢
      have hj : i / bsize < f.count m := Nat.div_lt_of_lt_mul (hi.trans_le (length_le_count f m))
      rw [← h.byte m i hi, Volume.byte, hdata m _ ((some_mem_places h.bounded).2 hj) hm]
      rfl

/-! ### Calls one after another -/

/-- A call of one of the functions. -/
inductive Access
  | write (n : Fin ninodes) (src : List UInt8) (off : ℕ)
  | read (n : Fin ninodes) (off len : ℕ)
  | trunc (n : Fin ninodes)

/-- What a call of `readi` returns, and the bytes that it has copied. -/
def copied : Option (List UInt8) → ℤ × List UInt8
  | some dst => (dst.length, dst)
  | none => (-1, [])

def Access.onBlocks : Access → VolumeOp (ℤ × List UInt8)
  | .write n src off => do
    let r ← writeFile n src off
    pure (r, [])
  | .read n off len => do
    let r ← readFile n off len
    pure (copied r)
  | .trunc n => do
    itrunc n
    pure (0, [])

def Access.onFiles : Access → Tx Files Halt (ℤ × List UInt8)
  | .write n src off => do
    let r ← Files.write n src off
    pure (r, [])
  | .read n off len => do
    let r ← Files.read n off len
    pure (copied r)
  | .trunc n => do
    Files.trunc n
    pure (0, [])

theorem Access.refines (e : Access) : Refines Lays e.onBlocks e.onFiles := by
  cases e with
  | write n src off => exact (Lays.writeFile n src off).bind fun r => .pure (r, [])
  | read n off len => exact (Lays.readFile n off len).bind fun r => .pure (copied r)
  | trunc n => exact (Lays.itrunc n).bind fun _ => .pure (0, [])

/-- Any number of calls return on the blocks what they return on the lists, and they halt when the
    lists take more blocks than there are. -/
theorem run_files (es : List Access) (h : Lays v f) :
    Agree Lays ((es.mapM Access.onBlocks).run v) ((es.mapM Access.onFiles).run f) :=
  Refines.mapM Access.refines es v f h

/-- A volume whose inodes are all empty. -/
def Volume.empty : Volume where
  block b := if b = bmapstart then fun i => if i < 7 then 255 else if i = 7 then 7 else 0 else 0
  inode _ := ⟨fun _ => 0, 0⟩

theorem lays_empty : Lays Volume.empty fun _ => [] := by
  have hcount : (Files.count fun _ => []) = fun _ => 0 := by
    funext n
    rw [Files.count]
    decide
  have hc : Bounded fun _ => 0 := fun _ => Nat.zero_le _
  have hmem {n : Fin ninodes} {o : Option ℕ} : (n, o) ∉ places (Files.count fun _ => []) := by
    rw [hcount, mem_places hc]
    cases o with
    | none => exact Nat.not_lt_zero ndirect
    | some k => exact Nat.not_lt_zero k
  have hbits : ∀ b < fssize, Volume.empty.Used b ↔ b < nmeta := by decide +kernel
  refine ⟨⟨fun _ _ h => absurd h hmem, fun _ _ h => absurd h hmem, fun m k hk hk' => ?_,
    fun m => iff_of_false (fun h => h rfl) hmem, fun _ h => absurd h hmem, fun _ h => absurd h hmem,
    fun b hb => ?_⟩, fun _ => Nat.zero_le _, fun _ => rfl,
    fun _ i hi => absurd hi (Nat.not_lt_zero i)⟩
  · refine iff_of_false (fun h => h ?_) hmem
    exact if_pos (hk'.resolve_right hmem)
  · rw [hbits b hb]
    refine (or_iff_left ?_).symm
    rintro ⟨x, hx, -⟩
    exact hmem hx

/-- Three bytes are written over two blocks, read back, and freed. -/
theorem run_files_boundary :
    ∃ v f, ([Access.write 2 (List.replicate 511 65) 0, .write 2 [66, 67, 68] 511, .read 2 510 9,
        .trunc 2, .read 2 0 9].mapM Access.onBlocks).run Volume.empty =
      .ok ([(511, []), (3, []), (4, [65, 66, 67, 68]), (0, []), (0, [])], v) ∧ Lays v f := by
  refine (run_files _ lays_empty).of_value ?_
  decide +kernel

/-! ### The inodes of the other modules -/

/-- What is in the inodes of a disk. -/
def files (disk : ℕ → Dinode) : Files := fun n => (disk n).data

theorem used_eq_blocks (s : Fs) : s.used = (files s.disk).blocks := by
  exact (Fin.sum_univ_eq_sum_range (fun n => (s.disk n).blocks) ninodes).symm

theorem files_setDisk (s : Fs) (n : Fin ninodes) (d : Dinode) :
    files (s.setDisk n d).disk = update (files s.disk) n d.data := by
  funext m
  rcases eq_or_ne m n with rfl | hm
  · rw [update_self]
    exact congrArg Dinode.data (update_self ..)
  · rw [update_of_ne hm]
    exact congrArg Dinode.data (update_of_ne (Fin.val_ne_of_ne hm) _ _)

variable {s : Fs} {ip : Fin ninode}

/-- The state after bytes are written. -/
def Fs.written (s : Fs) (ip : Fin ninode) (src : List UInt8) (off : ℕ) : Fs :=
  s.setDisk (s.icache ip).inum { s.inode ip with data := splice (s.inode ip).data src off }

theorem writei_run (hd : (s.inode ip).type ≠ .dev) (src : List UInt8) (off : ℕ) :
    (writei ip src off).run s =
      if (s.inode ip).size < off ∨ maxfile * bsize < off + src.length then .ok (-1, s)
      else if nblocks < (s.written ip src off).used then .error outOfBlocks
      else .ok (src.length, s.written ip src off) := by
  have hrun : (writei ip src off).run s =
      (if (s.inode ip).size < off ∨ maxfile * bsize < off + src.length then pure (-1)
      else do
        failIf (nblocks < (s.written ip src off).used) outOfBlocks
        set (s.written ip src off)
        pure (src.length : ℤ) : Op ℤ).run s := by
    rw [writei, get_bind, if_neg hd]
    rfl
  rw [hrun]
  split
  · rfl
  · rw [StateT.run_bind, failIf]
    split
    · rfl
    · rfl

/-- `writei` of the other modules is that on the lists, for an inode that is no device. -/
theorem writei_files (hn : (s.icache ip).inum = n) (hd : (s.inode ip).type ≠ .dev)
    (src : List UInt8) (off : ℕ) :
    Agree (fun s f => files s.disk = f) ((writei ip src off).run s)
      ((Files.write n src off).run (files s.disk)) := by
  have hdata : (s.inode ip).data = files s.disk n := congrArg (fun m => (s.disk m).data) hn
  have hset : files (s.written ip src off).disk =
      update (files s.disk) n (splice (files s.disk n) src off) := by
    rw [Fs.written, hn, files_setDisk, hdata]
  rw [writei_run hd, Files.write_run, Dinode.size, used_eq_blocks, hset, hdata]
  split
  · exact .ok _ rfl
  · split
    · exact .error outOfBlocks
    · exact .ok (src.length : ℤ) hset

/-- `readi` of the other modules is that on the lists. -/
theorem readi_files (hd : (s.disk n).type ≠ .dev) (typed : List UInt8) (hlt : off + len < 2 ^ 32) :
    (Files.read n off len).run (files s.disk) =
      .ok (readi (s.disk n) typed off len, files s.disk) := by
  rw [Files.read, get_bind, readi, if_neg hd]
  by_cases h : (s.disk n).size < off
  · rw [if_pos h, if_pos (.inl h)]
    rfl
  · rw [if_neg h, if_neg fun h' => h'.elim h (not_le.2 hlt)]
    rfl

end FileSystem
