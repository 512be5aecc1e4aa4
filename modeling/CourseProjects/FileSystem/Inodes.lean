import CourseProjects.FileSystem.Disk
import CourseProjects.FileSystem.Users
import CourseProjects.Lib.Transaction

/-!
# Inodes and paths

The state of the file system and the functions of `fs.c` on it: the cache of inodes with
their references and locks, the allocation of inodes, the entries of directories and the
paths. A function is a transaction: it returns with a new state, or the kernel halts
(`Halt`), or the caller waits for a lock forever. The system calls run one after another.
-/

namespace FileSystem

open CString Function

/-! ### The state -/

/-- Why a call does not return: `panic`, the use of a null pointer (it ends in a panic), or a
lock that nobody gives back. -/
inductive Halt
  | panic (message : String)
  | nullPointer
  | sleeping

/-- The entries of the cache of inodes, `NINODE`. -/
abbrev ninode : ℕ := 50

/-- The open files of the system, `NFILE`. -/
abbrev nfile : ℕ := 100

/-- The descriptors of a process, `NOFILE`. -/
abbrev nofile : ℕ := 16

/-- The processes, `NPROC`. -/
abbrev nproc : ℕ := 64

instance : NeZero nproc := ⟨by decide⟩

/-- An entry of the cache of inodes: the number of the inode, the pointers to the entry, its
lock, and whether the inode has been read from the disk. -/
structure Slot where
  inum : ℕ
  ref : ℤ
  locked : Bool
  valid : Bool

/-- What a file in use is: `FD_NONE` before `open` is done with it, `FD_PIPE`, `FD_INODE`. -/
inductive FileType
  | none
  | pipe
  | inode (ip : Fin ninode)
  deriving DecidableEq

/-- `struct file` while it is in use. -/
structure File where
  type : FileType
  ref : ℤ
  readable : Bool
  writable : Bool
  off : ℕ

/-- The disk, the inodes in memory, the open files (none where `ref` is zero), the descriptors
and the current directories of the processes, and the users. How often an inode has been
allocated, `births`, is there for the statements. -/
structure Fs where
  disk : ℕ → Dinode
  births : ℕ → ℕ
  icache : Fin ninode → Slot
  ftable : Fin nfile → Option File
  ofile : Fin nproc → Fin nofile → Option (Fin nfile)
  cwd : Fin nproc → Option (Fin ninode)
  info : UserInfo

/-- A function of the kernel. -/
abbrev Op := Tx Fs Halt

namespace Fs

variable (s : Fs)

/-- The inode that an entry of the cache holds. -/
def inode (ip : Fin ninode) : Dinode := s.disk (s.icache ip).inum

def setSlot (ip : Fin ninode) (v : Slot) : Fs := { s with icache := update s.icache ip v }

def setDisk (n : ℕ) (d : Dinode) : Fs := { s with disk := update s.disk n d }

/-- The blocks in use. -/
def used : ℕ := ((List.range ninodes).map fun n => (s.disk n).blocks).sum

end Fs

open Tx

/-! ### The cache of inodes -/

/-- The inode behind a pointer. -/
def inode (ip : Fin ninode) : Op Dinode := do
  let s ← get
  pure (s.inode ip)

/-- Fields of an inode are changed, and `iupdate` writes it to the disk. -/
def iupdate (ip : Fin ninode) (f : Dinode → Dinode) : Op Unit :=
  modify fun s => s.setDisk (s.icache ip).inum (f (s.inode ip))

/-- The entry that holds an inode. -/
def Fs.cached (s : Fs) (inum : ℕ) : Option (Fin ninode) :=
  (List.finRange ninode).find? fun ip => 0 < (s.icache ip).ref ∧ (s.icache ip).inum = inum

/-- The first entry without a reference. -/
def Fs.empty (s : Fs) : Option (Fin ninode) :=
  (List.finRange ninode).find? fun ip => (s.icache ip).ref = 0

def iget (inum : ℕ) : Op (Fin ninode) := do
  let s ← get
  match s.cached inum with
  | some ip => do
    set (s.setSlot ip { s.icache ip with ref := (s.icache ip).ref + 1 })
    pure ip
  | none =>
    match s.empty with
    | some ip => do
      set (s.setSlot ip { s.icache ip with inum := inum, ref := 1, valid := false })
      pure ip
    | none => throw (.panic "iget: no inodes")

def idup (ip : Fin ninode) : Op (Fin ninode) := do
  let s ← get
  set (s.setSlot ip { s.icache ip with ref := (s.icache ip).ref + 1 })
  pure ip

def ilock (ip : Fin ninode) : Op Unit := do
  let s ← get
  failIf ((s.icache ip).ref < 1) (.panic "ilock")
  failIf ((s.icache ip).locked = true) .sleeping
  -- the inode is read from the disk
  failIf ((s.icache ip).valid = false ∧ (s.inode ip).type = .free) (.panic "ilock: no type")
  set (s.setSlot ip { s.icache ip with locked := true, valid := true })

def iunlock (ip : Fin ninode) : Op Unit := do
  let s ← get
  failIf ((s.icache ip).locked = false ∨ (s.icache ip).ref < 1) (.panic "iunlock")
  set (s.setSlot ip { s.icache ip with locked := false })

/-- The inode without links and with no other pointer to it: it is truncated and freed. -/
def Fs.Last (s : Fs) (ip : Fin ninode) : Prop :=
  (s.icache ip).valid = true ∧ (s.inode ip).nlink = 0 ∧ (s.icache ip).ref = 1

instance (s : Fs) (ip : Fin ninode) : Decidable (s.Last ip) := inferInstanceAs (Decidable (_ ∧ _))

def iput (ip : Fin ninode) : Op Unit := do
  let s ← get
  failIf ((s.icache ip).locked = true) .sleeping
  if s.Last ip then
    set ((s.setDisk (s.icache ip).inum { s.inode ip with type := .free, data := [] }).setSlot ip
      { s.icache ip with ref := (s.icache ip).ref - 1, valid := false })
  else
    set (s.setSlot ip { s.icache ip with ref := (s.icache ip).ref - 1 })

def iunlockput (ip : Fin ninode) : Op Unit := do
  iunlock ip
  iput ip

/-- The first free inode of the disk. -/
def Fs.freeInode (s : Fs) : Option ℕ :=
  (List.range' 1 (ninodes - 1)).find? fun n => (s.disk n).type = .free

def ialloc (type : InodeType) : Op (Fin ninode) := do
  let s ← get
  match s.freeInode with
  | some inum => do
    set { s.setDisk inum { Dinode.zero with type := type } with
      births := update s.births inum (s.births inum + 1) }
    iget inum
  | none => throw (.panic "ialloc: no inodes")

/-! ### Reading and writing -/

/-- The only device with a driver, `CONSOLE`. -/
abbrev console : ℤ := 1

/-- The bytes that are read, when it is not an error: `typed` is what the console has. -/
def readi (d : Dinode) (typed : List UInt8) (off n : ℕ) : Option (List UInt8) :=
  if d.type = .dev then if d.major = console then some (typed.take n) else none
  else if d.size < off then none
  else some ((d.data.drop off).take n)

def writei (ip : Fin ninode) (src : List UInt8) (off : ℕ) : Op ℤ := do
  let s ← get
  if (s.inode ip).type = .dev then
    pure (if (s.inode ip).major = console then src.length else -1)
  else if (s.inode ip).size < off ∨ maxfile * bsize < off + src.length then
    pure (-1)
  else do
    let d := { s.inode ip with data := splice (s.inode ip).data src off }
    let s' := s.setDisk (s.icache ip).inum d
    failIf (nblocks < s'.used) (.panic "balloc: out of blocks")
    set s'
    pure src.length

/-! ### Directories -/

/-- The place of the entry with a name. -/
def findEntry (name : List UInt8) (data : List UInt8) : Option ℕ :=
  (entries data).findIdx? fun de => de.inum ≠ 0 ∧ namecmp name de.name = 0

/-- An entry, by its place. -/
def entryAt (data : List UInt8) (i : ℕ) : Dirent := .ofBytes (direntAt data i)

/-- The inode with a name, and the place of its entry. -/
def dirlookup (dp : Fin ninode) (name : List UInt8) : Op (Option (Fin ninode × ℕ)) := do
  let d ← inode dp
  failIf (d.type ≠ .dir) (.panic "dirlookup not DIR")
  match findEntry name d.data with
  | some i => do
    let ip ← iget (entryAt d.data i).inum
    pure (some (ip, i))
  | none => do
    -- the last entry is not there in full
    failIf (d.size % 16 ≠ 0) (.panic "dirlookup read")
    pure none

/-- The place of the first entry that is not in use, or else after the last one. -/
def emptyEntry (data : List UInt8) : ℕ := (entries data).findIdx fun de => de.inum = 0

def dirlink (dp : Fin ninode) (name : List UInt8) (inum : ℕ) : Op ℤ := do
  match ← dirlookup dp name with
  | some (ip, _) => do
    iput ip
    pure (-1)
  | none => do
    -- all the entries have been read once already
    let d ← inode dp
    let r ← writei dp (Dirent.bytes ⟨inum, name⟩) (16 * emptyEntry d.data)
    failIf (r ≠ 16) (.panic "dirlink")
    pure 0

/-! ### Permissions -/

/-- `MODE_RUSR`. -/
abbrev modeRusr : UInt32 := 32

/-- `MODE_WUSR`. -/
abbrev modeWusr : UInt32 := 16

/-- `MODE_XUSR`. -/
abbrev modeXusr : UInt32 := 8

/-- `MODE_ROTH`. -/
abbrev modeRoth : UInt32 := 4

/-- `MODE_WOTH`. -/
abbrev modeWoth : UInt32 := 2

/-- `MODE_XOTH`. -/
abbrev modeXoth : UInt32 := 1

/-- The current user is the owner of an inode. -/
def UserInfo.Owns (t : UserInfo) (d : Dinode) : Prop := strncmp (ofList d.owner) t.getNow 16 = 0

/-- The current user is `root`. -/
def UserInfo.IsRoot (t : UserInfo) : Prop := strncmp (ofList root) t.getNow 16 = 0

instance (t : UserInfo) (d : Dinode) : Decidable (t.Owns d) := inferInstanceAs (Decidable (_ = _))

instance (t : UserInfo) : Decidable t.IsRoot := inferInstanceAs (Decidable (_ = _))

def getModeBit (t : UserInfo) (d : Dinode) (ownMode othMode : UInt32) : ℤ :=
  if t.initial = false then 1
  else if t.Owns d ∨ t.IsRoot then
    -- `own_mode&(ip->permission)==0` compares the permission first
    if ownMode &&& (if d.permission = 0 then 1 else 0) ≠ 0 then 0 else 1
  else if othMode &&& d.permission = 0 then 0
  else 1

/-! ### Paths -/

/-- A string that a call takes from its process, up to the zero byte that ends it. -/
structure CharPtr where
  bytes : List UInt8
  nonul : 0 ∉ bytes

/-- The string as it is in the memory. -/
def CharPtr.str (c : CharPtr) : Str := ofList c.bytes

/-- The letter /. -/
abbrev slash : UInt8 := 47

/-- The next element of a path, and the path after it. -/
def skipelem (path : List UInt8) : Option (List UInt8 × List UInt8) :=
  match path.dropWhile (· = slash) with
  | [] => none
  | s => some ((s.takeWhile (· ≠ slash)).take dirsiz,
      (s.dropWhile (· ≠ slash)).dropWhile (· = slash))

/-- The elements that the calls of `skipelem` give one after the other, at most `n`. -/
def elements : ℕ → List UInt8 → List (List UInt8)
  | 0, _ => []
  | n + 1, path =>
    match skipelem path with
    | none => []
    | some (name, path) => name :: elements n path

/-- The loop of `namex` over the elements of a path. -/
def namexLoop (nameiparent : Bool) :
    List (List UInt8) → Fin ninode → Op (Option (Fin ninode × List UInt8))
  | [], ip =>
    if nameiparent then do
      iput ip
      pure none
    else
      pure (some (ip, []))
  | name :: rest, ip => do
    ilock ip
    let s ← get
    if (s.inode ip).type ≠ .dir then do
      iunlockput ip
      pure none
    else if getModeBit s.info (s.inode ip) modeXusr modeXoth = 0 then do
      iunlockput ip
      pure none
    else if nameiparent ∧ rest = [] then do
      -- one level early
      iunlock ip
      pure (some (ip, name))
    else
      match ← dirlookup ip name with
      | none => do
        iunlockput ip
        pure none
      | some (next, _) => do
        iunlockput ip
        namexLoop nameiparent rest next

/-- Where a path of process `p` starts. -/
def start (p : Fin nproc) (path : List UInt8) : Op (Fin ninode) := do
  if path.head? = some slash then
    iget rootino
  else
    let s ← get
    let cwd ← ofOption .nullPointer (s.cwd p)
    idup cwd

def namex (p : Fin nproc) (path : CharPtr) (nameiparent : Bool) :
    Op (Option (Fin ninode × List UInt8)) := do
  let ip ← start p path.bytes
  namexLoop nameiparent (elements path.bytes.length path.bytes) ip

def namei (p : Fin nproc) (path : CharPtr) : Op (Option (Fin ninode)) := do
  let r ← namex p path false
  pure (r.map Prod.fst)

def nameiparent (p : Fin nproc) (path : CharPtr) : Op (Option (Fin ninode × List UInt8)) :=
  namex p path true

end FileSystem
