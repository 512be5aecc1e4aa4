import CourseProjects.Lib.CString

/-!
# The disk

The inodes as they are on the disk, and what is in them. An inode that the kernel holds in
memory is written through, so there is one copy of it here. A directory is a file of
entries of sixteen bytes, `struct dirent`.

* `Dirent.ofBytes_bytes`: an entry is read back as it was written;
* `entries_splice_set`, `entries_splice_end`: the entries after one of them is written.
-/

namespace FileSystem

open CString

/-! ### Inodes -/

/-- What `type` of an inode says: it is free, or `T_DIR`, `T_FILE`, `T_DEV`. -/
inductive InodeType
  | free
  | dir
  | file
  | dev
  deriving DecidableEq

/-- The size of a block. -/
abbrev bsize : ℕ := 512

/-- The number of direct blocks of an inode. -/
abbrev ndirect : ℕ := 7

/-- The number of blocks that the indirect block of an inode lists. -/
abbrev nindirect : ℕ := bsize / 4

/-- The greatest number of blocks of a file. -/
abbrev maxfile : ℕ := ndirect + nindirect

/-- The number of inodes, `NINODES`. -/
abbrev ninodes : ℕ := 200

/-- The number of data blocks, `FSSIZE` less the blocks before them. -/
abbrev nblocks : ℕ := 941

/-- The inode of the root directory. -/
abbrev rootino : ℕ := 1

/-- A number as a `short` holds it. -/
def short (x : ℤ) : ℤ := x.bmod (2 ^ 16)

/-- `struct dinode`, with what its blocks hold up to its size. Of `owner` there are the bytes
up to the first zero: `strncpy` fills the array with zeros. -/
structure Dinode where
  type : InodeType
  major : ℤ
  minor : ℤ
  nlink : ℤ
  permission : UInt32
  owner : List UInt8
  data : List UInt8

namespace Dinode

/-- An inode of zeros. -/
def zero : Dinode where
  type := .free
  major := 0
  minor := 0
  nlink := 0
  permission := 0
  owner := []
  data := []

/-- The number of bytes. -/
def size (d : Dinode) : ℕ := d.data.length

/-- The blocks that an inode takes, with its indirect block. -/
def blocks (d : Dinode) : ℕ :=
  let n := (d.size + (bsize - 1)) / bsize
  if n ≤ ndirect then n else n + 1

end Dinode

/-- What `writei` leaves: bytes written over others, or after the last one. -/
def splice (data src : List UInt8) (off : ℕ) : List UInt8 :=
  data.take off ++ src ++ data.drop (off + src.length)

/-! ### Directory entries -/

/-- The bytes of a name, `DIRSIZ`. -/
abbrev dirsiz : ℕ := 14

/-- `struct dirent`, sixteen bytes, with the name up to its first zero byte. -/
structure Dirent where
  inum : ℕ
  name : List UInt8
  deriving DecidableEq

/-- The name `.`. -/
def dot : List UInt8 := [46]

/-- The name `..`. -/
def dotdot : List UInt8 := [46, 46]

def namecmp (s t : List UInt8) : ℤ := strncmp (ofList s) (ofList t) dirsiz

/-- An entry from its bytes, the lower byte of the number first. -/
def Dirent.ofBytes (b : List UInt8) : Dirent where
  inum := (b.getD 0 0).toNat + 256 * (b.getD 1 0).toNat
  name := cstr (ofList (b.drop 2)) dirsiz

/-- The bytes of an entry, with a name that `strncpy` copied. -/
def Dirent.bytes (de : Dirent) : List UInt8 :=
  UInt8.ofNat de.inum :: UInt8.ofNat (de.inum / 256) :: padded (ofList de.name) dirsiz

/-- An entry of zeros, with which `unlink` overwrites another one. -/
def zeroDirent : List UInt8 := List.replicate 16 0

/-- The bytes of the entry at a place. -/
def direntAt (data : List UInt8) (i : ℕ) : List UInt8 :=
  (data.drop (16 * i)).take 16

/-- The entries of a directory that are there in full. -/
def entries (data : List UInt8) : List Dirent :=
  (List.range (data.length / 16)).map fun i => .ofBytes (direntAt data i)

/-- What a path may have as an element: not empty, no zero byte and no longer than a name. -/
structure IsName (name : List UInt8) : Prop where
  ne_nil : name ≠ []
  nonul : 0 ∉ name
  length_le : name.length ≤ dirsiz

variable {name data b : List UInt8} {i n : ℕ} {de : Dirent}

/-! ### Names -/

/-- A list of bytes that are not zero is the string that it gives. -/
theorem cstr_ofList (h : 0 ∉ name) (hn : name.length ≤ n) : cstr (ofList name) n = name := by
  induction name generalizing n with
  | nil =>
    cases n with
    | zero => rfl
    | succ n => rfl
  | cons c name ih =>
    cases n with
    | zero => exact absurd hn (by simp)
    | succ n =>
      rw [List.mem_cons, not_or] at h
      have ht : tail (ofList (c :: name)) = ofList name := by
        funext k
        simp [tail, ofList]
      rw [cstr, ht, ih h.2 (by simpa using hn)]
      exact if_neg fun hc => h.1 (hc.symm)

/-- Two names are compared as a whole. -/
theorem namecmp_eq_zero_iff {s t : List UInt8} (hs : 0 ∉ s) (hs' : s.length ≤ dirsiz)
    (ht : 0 ∉ t) (ht' : t.length ≤ dirsiz) : namecmp s t = 0 ↔ s = t := by
  rw [namecmp, strncmp_eq_zero_iff, cstr_ofList hs hs', cstr_ofList ht ht']

theorem length_padded (s : Str) (n : ℕ) : (padded s n).length = n := by
  induction n generalizing s with
  | zero => rfl
  | succ n ih =>
    rw [padded]
    split
    · exact List.length_replicate
    · rw [List.length_cons, ih]

/-! ### Entries -/

theorem Dirent.length_bytes (de : Dirent) : de.bytes.length = 16 := by
  rw [Dirent.bytes, List.length_cons, List.length_cons, length_padded]

theorem length_zeroDirent : zeroDirent.length = 16 := List.length_replicate

/-- An entry is read back as it was written. -/
theorem Dirent.ofBytes_bytes (hi : de.inum < 2 ^ 16) (h : 0 ∉ de.name)
    (hn : de.name.length ≤ dirsiz) : ofBytes de.bytes = de := by
  have hinum : (UInt8.ofNat de.inum).toNat + 256 * (UInt8.ofNat (de.inum / 256)).toNat =
      de.inum := by
    rw [UInt8.toNat_ofNat', UInt8.toNat_ofNat']
    omega
  have hname : cstr (ofList (padded (ofList de.name) dirsiz)) dirsiz = de.name := by
    rw [cstr_padded, cstr_ofList h hn]
  rw [ofBytes, bytes]
  exact congrArg₂ Dirent.mk hinum hname

theorem Dirent.ofBytes_zero : (ofBytes zeroDirent).inum = 0 := rfl

theorem length_entries : (entries data).length = data.length / 16 := by
  rw [entries, List.length_map, List.length_range]

theorem getElem?_entries : (entries data)[i]? =
    if i < data.length / 16 then some (.ofBytes (direntAt data i)) else none := by
  rw [entries, List.getElem?_map]
  split
  · rename_i h
    rw [List.getElem?_range h, Option.map_some]
  · rename_i h
    rw [List.getElem?_eq_none (by rw [List.length_range]; omega), Option.map_none]

/-! ### Writing an entry -/

theorem length_splice (hb : b.length = 16) (hi : 16 * i ≤ data.length) :
    (splice data b (16 * i)).length = max data.length (16 * i + 16) := by
  rw [splice, List.length_append, List.length_append, List.length_take, List.length_drop, hb]
  omega

theorem direntAt_splice_self (hb : b.length = 16) (hi : 16 * i ≤ data.length) :
    direntAt (splice data b (16 * i)) i = b := by
  rw [direntAt, splice, List.append_assoc, List.drop_left' (List.length_take_of_le hi),
    List.take_left' hb]

theorem direntAt_splice_of_lt {j : ℕ} (hi : 16 * i ≤ data.length) (hj : j < i) :
    direntAt (splice data b (16 * i)) j = direntAt data j := by
  have hlen : (data.take (16 * i)).length = 16 * i := List.length_take_of_le hi
  have hdrop : ((data.take (16 * i)).drop (16 * j)).length = 16 * i - 16 * j := by
    rw [List.length_drop, hlen]
  rw [direntAt, splice, List.append_assoc, List.drop_append_of_le_length (by rw [hlen]; omega),
    List.take_append_of_le_length (by rw [hdrop]; omega), List.drop_take, List.take_take,
    min_eq_left (by omega), direntAt]

theorem direntAt_splice_of_gt {j : ℕ} (hb : b.length = 16)
    (hi : 16 * i ≤ data.length) (hj : i < j) :
    direntAt (splice data b (16 * i)) j = direntAt data j := by
  have hlen : (data.take (16 * i) ++ b).length = 16 * i + 16 := by
    rw [List.length_append, List.length_take_of_le hi, hb]
  have hj' : 16 * i + 16 + (16 * j - (16 * i + 16)) = 16 * j := by omega
  rw [direntAt, splice, List.drop_append, hlen, List.drop_eq_nil_of_le (by rw [hlen]; omega),
    List.nil_append, List.drop_drop, hb, hj', direntAt]

/-- An entry takes the place of another one. -/
theorem entries_splice_set (hb : b.length = 16) (hi : i < (entries data).length) :
    entries (splice data b (16 * i)) = (entries data).set i (.ofBytes b) := by
  rw [length_entries] at hi
  have hi' : 16 * i + 16 ≤ data.length := by omega
  have hlen : (splice data b (16 * i)).length = data.length := by
    rw [length_splice hb (by omega), max_eq_left hi']
  refine List.ext_getElem? fun j => ?_
  rw [getElem?_entries, hlen, List.getElem?_set, length_entries, getElem?_entries]
  rcases Nat.lt_trichotomy j i with hj | rfl | hj
  · rw [if_neg hj.ne', direntAt_splice_of_lt (by omega) hj]
  · rw [if_pos hi, if_pos rfl, if_pos hi, direntAt_splice_self hb (by omega)]
  · rw [if_neg hj.ne, direntAt_splice_of_gt hb (by omega) hj]

/-- An entry is written after the last one. -/
theorem entries_splice_end (hb : b.length = 16) (hi : data.length = 16 * i) :
    entries (splice data b (16 * i)) = entries data ++ [.ofBytes b] := by
  have hlen : (splice data b (16 * i)).length = 16 * (i + 1) := by
    rw [length_splice hb hi.ge, hi, max_eq_right (by omega), Nat.mul_succ]
  have hn : (entries data).length = i := by
    rw [length_entries, hi, Nat.mul_div_cancel_left _ (by decide)]
  refine List.ext_getElem? fun j => ?_
  rw [getElem?_entries, hlen, Nat.mul_div_cancel_left _ (by decide)]
  rcases Nat.lt_trichotomy j i with hj | rfl | hj
  · rw [if_pos (by omega), List.getElem?_append_left (by omega), getElem?_entries, ← length_entries,
      hn, if_pos hj, direntAt_splice_of_lt hi.ge hj]
  · rw [if_pos (by omega), direntAt_splice_self hb hi.ge,
      List.getElem?_append_right hn.le, hn, Nat.sub_self]
    rfl
  · rw [if_neg (by omega), List.getElem?_eq_none]
    rw [List.length_append, hn]
    exact hj

end FileSystem
