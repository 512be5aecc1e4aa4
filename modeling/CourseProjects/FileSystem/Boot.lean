import CourseProjects.FileSystem.Calls

/-!
# Boot

The image of the disk that `mkfs` makes, and the state in which the first process starts.
-/

namespace FileSystem

/-- An inode as `mkfs` makes it. -/
def mkfsInode (type : InodeType) (data : List UInt8) : Dinode where
  type := type
  major := 0
  minor := 0
  nlink := 1
  permission := modeRusr ||| modeWusr ||| modeXusr ||| modeRoth ||| modeXoth
  owner := root
  data := data

/-- The entries of the root directory, filled up to a block. -/
def mkfsRoot (names : List (List UInt8)) : List UInt8 :=
  let des := ⟨rootino, dot⟩ :: ⟨rootino, dotdot⟩ :: names.zipIdx.map fun a => ⟨a.2 + 2, a.1⟩
  let data := des.flatMap Dirent.bytes
  data ++ List.replicate ((data.length / bsize + 1) * bsize - data.length) 0

/-- The image of the disk with some files in the root directory, by their names. -/
def mkfs (files : List (List UInt8 × List UInt8)) (n : ℕ) : Dinode :=
  if n = rootino then mkfsInode .dir (mkfsRoot (files.map Prod.fst))
  else if n = 0 then .zero
  else
    match files[n - 2]? with
    | some file => mkfsInode .file file.2
    | none => .zero

/-- The state when the system has been booted from a disk: the current directory of the first
process is the root directory, and there is nothing else. -/
def boot (disk : ℕ → Dinode) : Fs where
  disk := disk
  births := fun _ => 0
  icache := fun ip => if ip = 0 then ⟨rootino, 1, false, false⟩ else ⟨0, 0, false, false⟩
  ftable := fun _ => none
  ofile := fun _ _ => none
  cwd := fun p => if p = 0 then some 0 else none
  info := .zero

end FileSystem
