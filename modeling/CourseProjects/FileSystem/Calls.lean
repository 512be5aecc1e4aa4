import CourseProjects.FileSystem.Inodes
import CourseProjects.Lib.Trace

/-!
# The system calls on files

The functions of `sysfile.c`, `exec` and the calls on the users with what they do to the
files. `step` runs one call of a process to its end.
-/

namespace FileSystem

open CString Function Tx

/-! ### Files and descriptors -/

namespace Fs

variable (s : Fs)

/-- The first file structure that is not in use. -/
def filealloc : Option (Fin nfile) := (List.finRange nfile).find? fun f => (s.ftable f).isNone

/-- The first descriptor of a process that is not in use. -/
def fdalloc (p : Fin nproc) : Option (Fin nofile) :=
  (List.finRange nofile).find? fun fd => (s.ofile p fd).isNone

def setFile (f : Fin nfile) (v : Option File) : Fs := { s with ftable := update s.ftable f v }

def setOfile (p : Fin nproc) (fd : Fin nofile) (f : Option (Fin nfile)) : Fs :=
  { s with ofile := update s.ofile p (update (s.ofile p) fd f) }

/-- The descriptor that a call names, with its file. -/
def argfd (p : Fin nproc) (fd : ℤ) : Option (Fin nofile × Fin nfile) :=
  (List.finRange nofile).findSome? fun i =>
    if (i.val : ℤ) = fd then (s.ofile p i).map fun f => (i, f) else none

end Fs

/-- Without its last pointer the file is closed. Pipes are not in this state. -/
def fileclose (f : Fin nfile) : Op Unit := do
  let s ← get
  let v ← ofOption (.panic "fileclose") (s.ftable f)
  failIf (v.ref < 1) (.panic "fileclose")
  if 1 < v.ref then
    set (s.setFile f (some { v with ref := v.ref - 1 }))
  else do
    set (s.setFile f none)
    match v.type with
    | .inode ip => iput ip
    | .pipe => pure ()
    | .none => pure ()

def filedup (f : Fin nfile) : Op Unit := do
  let s ← get
  let v ← ofOption (.panic "filedup") (s.ftable f)
  failIf (v.ref < 1) (.panic "filedup")
  set (s.setFile f (some { v with ref := v.ref + 1 }))

def sysDup (p : Fin nproc) (fd : ℤ) : Op ℤ := do
  let s ← get
  match s.argfd p fd with
  | none => pure (-1)
  | some (_, f) =>
    match s.fdalloc p with
    | none => pure (-1)
    | some fd => do
      set (s.setOfile p fd (some f))
      filedup f
      pure fd.val

def sysClose (p : Fin nproc) (fd : ℤ) : Op ℤ := do
  let s ← get
  match s.argfd p fd with
  | none => pure (-1)
  | some (fd, f) => do
    set (s.setOfile p fd none)
    fileclose f
    pure 0

/-! ### Links -/

def sysLink (p : Fin nproc) (old new : CharPtr) : Op ℤ := do
  match ← namei p old with
  | none => pure (-1)
  | some ip => do
    ilock ip
    let d ← inode ip
    if d.type = .dir then do
      iunlockput ip
      pure (-1)
    else do
      iupdate ip fun d => { d with nlink := short (d.nlink + 1) }
      iunlock ip
      let bad : Op ℤ := do
        ilock ip
        iupdate ip fun d => { d with nlink := short (d.nlink - 1) }
        iunlockput ip
        pure (-1)
      match ← nameiparent p new with
      | none => bad
      | some (dp, name) => do
        ilock dp
        let s ← get
        let r ← dirlink dp name (s.icache ip).inum
        iunlockput dp
        if r < 0 then bad
        else do
          iput ip
          pure 0

/-- No entry but the first two is in use. -/
def isdirempty (d : Dinode) : Bool := ((entries d.data).drop 2).all fun de => de.inum = 0

/-- `isdirempty` of a directory whose last entry is not there in full. -/
def isdiremptyPanics (d : Dinode) : Prop := isdirempty d ∧ 32 < d.size ∧ d.size % 16 ≠ 0

instance (d : Dinode) : Decidable (isdiremptyPanics d) := inferInstanceAs (Decidable (_ ∧ _))

/-- The link `..` of a directory that is removed. -/
def dropDotdot (type : InodeType) (dp : Fin ninode) : Op Unit :=
  if type = .dir then iupdate dp fun d => { d with nlink := short (d.nlink - 1) } else pure ()

def sysUnlink (p : Fin nproc) (path : CharPtr) : Op ℤ := do
  match ← nameiparent p path with
  | none => pure (-1)
  | some (dp, name) => do
    ilock dp
    let s ← get
    if getModeBit s.info (s.inode dp) modeWusr modeWoth = 0 then do
      iunlockput dp
      pure (-1)
    else if namecmp name dot = 0 ∨ namecmp name dotdot = 0 then do
      iunlockput dp
      pure (-1)
    else
      match ← dirlookup dp name with
      | none => do
        iunlockput dp
        pure (-1)
      | some (ip, i) => do
        ilock ip
        let d ← inode ip
        failIf (d.nlink < 1) (.panic "unlink: nlink < 1")
        failIf (d.type = .dir ∧ isdiremptyPanics d) (.panic "isdirempty: readi")
        if d.type = .dir ∧ isdirempty d = false then do
          iunlockput ip
          iunlockput dp
          pure (-1)
        else do
          let _ ← writei dp zeroDirent (16 * i)
          dropDotdot d.type dp
          iunlockput dp
          iupdate ip fun d => { d with nlink := short (d.nlink - 1) }
          iunlockput ip
          pure 0

/-! ### New inodes -/

/-- `create` when the name is there: only a file is opened, and only for writing. -/
def createFound (type : InodeType) (dp ip : Fin ninode) : Op (Option (Fin ninode)) := do
  iunlockput dp
  ilock ip
  let s ← get
  if type = .file ∧ (s.inode ip).type = .file then
    if getModeBit s.info (s.inode ip) modeWusr modeWoth ≠ 1 then do
      iunlockput ip
      pure none
    else
      pure (some ip)
  else do
    iunlockput ip
    pure none

/-- The entries `.` and `..`, when the new inode is a directory. -/
def createDots (type : InodeType) (dp ip : Fin ninode) : Op Unit :=
  if type = .dir then do
    iupdate dp fun d => { d with nlink := short (d.nlink + 1) }
    let s ← get
    let r ← dirlink ip dot (s.icache ip).inum
    failIf (r < 0) (.panic "create dots")
    let r ← dirlink ip dotdot (s.icache dp).inum
    failIf (r < 0) (.panic "create dots")
  else pure ()

/-- `create` when the name is not there. -/
def createNew (type : InodeType) (major minor : ℤ) (dp : Fin ninode) (name : List UInt8) :
    Op (Option (Fin ninode)) := do
  let s ← get
  if getModeBit s.info (s.inode dp) modeWusr modeWoth ≠ 1 then do
    iunlockput dp
    pure none
  else do
    let ip ← ialloc type
    ilock ip
    iupdate ip fun d => { d with major := short major, minor := short minor, nlink := 1 }
    createDots type dp ip
    let s ← get
    let r ← dirlink dp name (s.icache ip).inum
    failIf (r < 0) (.panic "create: dirlink")
    iunlockput dp
    pure (some ip)

/-- The inode that `create` returns is locked. -/
def create (p : Fin nproc) (path : CharPtr) (type : InodeType) (major minor : ℤ) :
    Op (Option (Fin ninode)) := do
  match ← nameiparent p path with
  | none => pure none
  | some (dp, name) => do
    ilock dp
    match ← dirlookup dp name with
    | some (ip, _) => createFound type dp ip
    | none => createNew type major minor dp name

/-- The owner of an inode is set, and its permission. -/
def setOwner (ip : Fin ninode) (owner : Str) (permission : UInt32) : Op Unit :=
  iupdate ip fun d => { d with owner := cstr owner 16, permission := permission }

/-! ### Opening -/

/-- `O_RDONLY`. -/
abbrev oRdonly : UInt32 := 0

/-- `O_WRONLY`. -/
abbrev oWronly : UInt32 := 1

/-- `O_RDWR`. -/
abbrev oRdwr : UInt32 := 2

/-- `O_CREATE`. -/
abbrev oCreate : UInt32 := 0x200

/-- The inode that is opened, locked. -/
def openInode (p : Fin nproc) (path : CharPtr) (omode : UInt32) : Op (Option (Fin ninode)) := do
  if omode &&& oCreate ≠ 0 then
    match ← create p path .file 0 0 with
    | none => pure none
    | some ip => do
      let s ← get
      setOwner ip s.info.getNow (modeRusr ||| modeWusr ||| modeRoth)
      pure (some ip)
  else
    match ← namei p path with
    | none => pure none
    | some ip => do
      ilock ip
      let d ← inode ip
      if d.type = .dir ∧ omode ≠ oRdonly then do
        iunlockput ip
        pure none
      else
        pure (some ip)

/-- The file of a descriptor that `open` returns. -/
def openFile (ip : Fin ninode) (omode : UInt32) : File where
  type := .inode ip
  ref := 1
  readable := omode &&& oWronly = 0
  writable := omode &&& oWronly ≠ 0 ∨ omode &&& oRdwr ≠ 0
  off := 0

def sysOpen (p : Fin nproc) (path : CharPtr) (omode : UInt32) : Op ℤ := do
  match ← openInode p path omode with
  | none => pure (-1)
  | some ip => do
    let s ← get
    if (omode = oWronly ∨ omode = oRdwr) ∧
        getModeBit s.info (s.inode ip) modeWusr modeWoth = 0 then do
      iunlockput ip
      pure (-1)
    else if (omode = oRdonly ∨ omode = oRdwr) ∧
        getModeBit s.info (s.inode ip) modeRusr modeRoth = 0 then do
      iunlockput ip
      pure (-1)
    else
      match s.filealloc, s.fdalloc p with
      | some f, some fd => do
        iunlock ip
        modify fun s => (s.setFile f (some (openFile ip omode))).setOfile p fd (some f)
        pure fd.val
      | _, _ => do
        -- `fileclose` gives back the file structure, which has no type yet
        iunlockput ip
        pure (-1)

def sysMkdir (p : Fin nproc) (path : CharPtr) : Op ℤ := do
  match ← create p path .dir 0 0 with
  | none => pure (-1)
  | some ip => do
    let s ← get
    setOwner ip s.info.getNow (modeRusr ||| modeWusr ||| modeXusr ||| modeRoth ||| modeXoth)
    iunlockput ip
    pure 0

def sysMknod (p : Fin nproc) (path : CharPtr) (major minor : ℤ) : Op ℤ := do
  match ← create p path .dev major minor with
  | none => pure (-1)
  | some ip => do
    -- the owner is not set
    iupdate ip fun d => { d with
      permission := modeRusr ||| modeWusr ||| modeXusr ||| modeRoth ||| modeWoth ||| modeXoth }
    iunlockput ip
    pure 0

/-! ### Using inodes -/

def sysChdir (p : Fin nproc) (path : CharPtr) : Op ℤ := do
  match ← namei p path with
  | none => pure (-1)
  | some ip => do
    ilock ip
    let s ← get
    if (s.inode ip).type ≠ .dir then do
      iunlockput ip
      pure (-1)
    else if getModeBit s.info (s.inode ip) modeXusr modeXoth ≠ 1 then do
      iunlockput ip
      pure (-1)
    else do
      iunlock ip
      let cwd ← ofOption .nullPointer (s.cwd p)
      iput cwd
      modify fun s => { s with cwd := update s.cwd p (some ip) }
      pure 0

/-- `exec`, up to the new image: the program is read and the inode given back on every path.
What comes out of it, `r`, depends on the program and on the memory. -/
def exec (p : Fin nproc) (path : CharPtr) (r : ℤ) : Op ℤ := do
  match ← namei p path with
  | none => pure (-1)
  | some ip => do
    ilock ip
    let s ← get
    if getModeBit s.info (s.inode ip) modeXusr modeXoth = 0 then do
      iunlockput ip
      pure (-1)
    else do
      iunlockput ip
      pure r

def sysChmod (p : Fin nproc) (path : CharPtr) (mode : UInt32) : Op ℤ := do
  match ← namei p path with
  | none => pure (-1)
  | some ip => do
    ilock ip
    let s ← get
    if ¬ s.info.Owns (s.inode ip) ∧ ¬ s.info.IsRoot then do
      iunlockput ip
      pure (-1)
    else do
      iupdate ip fun d => { d with permission := mode }
      iunlockput ip
      pure 0

/-! ### Users -/

/-- The path `/userS`. -/
def userSPath : CharPtr := ⟨[47, 117, 115, 101, 114, 83], by decide⟩

/-- The path `tmp`. -/
def tmpPath : CharPtr := ⟨[116, 109, 112], by decide⟩

/-- The table of the users is changed. -/
def setInfo (t : UserInfo) : Op Unit := modify fun s => { s with info := t }

/-- The table is written to the file, as far as that goes. -/
def updateUserS (userS : Fin ninode) : Op Unit := do
  let s ← get
  let _ ← writei userS s.info.bytes 0
  pure ()

/-- The first part of `sys_myopen`: the file `userS` is made when it is not there. -/
def makeUserS (p : Fin nproc) : Op (Fin ninode) := do
  match ← namei p userSPath with
  | some userS => pure userS
  | none => do
    let userS ← create p userSPath .file 0 0
    let userS ← ofOption .nullPointer userS
    setOwner userS (ofList root) (modeRusr ||| modeWusr)
    iunlockput userS
    pure userS

/-- The second part: the table is read from the file and written to it. -/
def loadUsers (p : Fin nproc) (typed : List UInt8) : Op Unit := do
  let userS ← namei p userSPath
  let userS ← ofOption .nullPointer userS
  ilock userS
  let s ← get
  setInfo (s.info.myopen ((readi (s.inode userS) typed 0 privSize).getD []))
  updateUserS userS
  iunlockput userS

/-- The last part: the directory `tmp` is removed again. -/
def removeTmp (p : Fin nproc) : Op ℤ := do
  match ← nameiparent p tmpPath with
  | none => pure (-1)
  | some (dp, name) => do
    ilock dp
    match ← dirlookup dp name with
    | none => do
      iunlockput dp
      pure (-1)
    | some (ip, i) => do
      ilock ip
      let d ← inode ip
      failIf (d.nlink ≤ 0) (.panic "nlink size is low")
      failIf (d.type = .dir ∧ isdiremptyPanics d) (.panic "isdirempty: readi")
      if d.type = .dir ∧ isdirempty d = false then do
        iunlockput dp
        pure (-1)
      else do
        let r ← writei dp zeroDirent (16 * i)
        failIf (r ≠ 16) (.panic "unlink writei")
        dropDotdot d.type dp
        iupdate ip fun d => { d with nlink := short (d.nlink - 1) }
        iunlockput dp
        -- a second time
        iupdate ip fun d => { d with nlink := short (d.nlink - 1) }
        iunlockput ip
        pure 0

def sysMyopen (p : Fin nproc) (typed : List UInt8) : Op ℤ := do
  let userS ← makeUserS p
  iput userS
  loadUsers p typed
  let ip ← create p tmpPath .dir 0 0
  let ip ← ofOption .nullPointer ip
  iunlockput ip
  removeTmp p

/-- The home directory of a new user, when there is none. -/
def makeHome (p : Fin nproc) (username : CharPtr) : Op Unit := do
  match ← namei p username with
  | some ip => iput ip
  | none => do
    let ip ← create p username .dir 0 0
    let ip ← ofOption .nullPointer ip
    setOwner ip username.str (modeRusr ||| modeWusr ||| modeXusr ||| modeRoth ||| modeXoth)
    iunlockput ip

def sysAddUser (p : Fin nproc) (username password : CharPtr) : Op ℤ := do
  let s ← get
  if ¬ s.info.IsRoot then pure (-1)
  else
    match ← namei p userSPath with
    | none => pure (-1)
    | some userS => do
      ilock userS
      iunlock userS
      ilock userS
      let s ← get
      let r := s.info.addUser username.str password.str
      if r.1 ≠ 0 then do
        iunlockput userS
        pure (-1)
      else do
        setInfo r.2
        updateUserS userS
        iunlockput userS
        makeHome p username
        pure 0

def sysDeleteUser (p : Fin nproc) (username : CharPtr) : Op ℤ := do
  let s ← get
  if ¬ s.info.IsRoot then pure (-1)
  else do
    let userS ← namei p userSPath
    let userS ← ofOption .nullPointer userS
    ilock userS
    let s ← get
    let r := s.info.deleteUser username.str
    -- there is no `iput` on either path
    if r.1 ≠ 0 then do
      iunlock userS
      pure (-1)
    else do
      setInfo r.2
      updateUserS userS
      iunlock userS
      pure 0

def sysLogin (id pwd : CharPtr) : Op ℤ := do
  let s ← get
  setInfo (s.info.login id.str pwd.str).2
  pure (s.info.login id.str pwd.str).1

def sysLogout : Op ℤ := do
  let s ← get
  setInfo s.info.logout.2
  pure s.info.logout.1

/-! ### Runs -/

/-- The system calls. -/
inductive Call
  | openPath (path : CharPtr) (omode : UInt32)
  | dup (fd : ℤ)
  | close (fd : ℤ)
  | mkdir (path : CharPtr)
  | mknod (path : CharPtr) (major minor : ℤ)
  | link (old new : CharPtr)
  | unlink (path : CharPtr)
  | chdir (path : CharPtr)
  | chmod (path : CharPtr) (mode : UInt32)
  | exec (path : CharPtr) (r : ℤ)
  | myopen (typed : List UInt8)
  | addUser (username password : CharPtr)
  | deleteUser (username : CharPtr)
  | login (id pwd : CharPtr)
  | logout

/-- A system call of process `p`. -/
def Call.op (p : Fin nproc) : Call → Op ℤ
  | .openPath path omode => sysOpen p path omode
  | .dup fd => sysDup p fd
  | .close fd => sysClose p fd
  | .mkdir path => sysMkdir p path
  | .mknod path major minor => sysMknod p path major minor
  | .link old new => sysLink p old new
  | .unlink path => sysUnlink p path
  | .chdir path => sysChdir p path
  | .chmod path mode => sysChmod p path mode
  | .exec path r => FileSystem.exec p path r
  | .myopen typed => sysMyopen p typed
  | .addUser username password => sysAddUser p username password
  | .deleteUser username => sysDeleteUser p username
  | .login id pwd => sysLogin id pwd
  | .logout => sysLogout

/-- The state after a call that returns. -/
def step (s : Fs) (e : Fin nproc × Call) : Option Fs :=
  match (e.2.op e.1).run s with
  | .ok (_, s') => some s'
  | .error _ => none

theorem step_eq_some {s s' : Fs} {p : Fin nproc} {c : Call} :
    step s (p, c) = some s' ↔ ∃ r, (c.op p).run s = .ok (r, s') := by
  rw [step]
  cases h : (c.op p).run s with
  | error e => simp
  | ok r => simp [Prod.ext_iff, eq_comm]

end FileSystem
