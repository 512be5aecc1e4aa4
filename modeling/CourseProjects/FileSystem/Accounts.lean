import CourseProjects.FileSystem.Calls
import CourseProjects.Lib.Ledger

/-!
# The accounts of the calls

What a call does to the references and the locks of the inodes adds up from what `iget`,
`idup`, `ilock`, `iunlock` and `iput` do. So it does to anything else that these functions
keep: the results here are about any ledger (`Accounting`) in which `iget` and `idup` cost a
reference to the inode, `ilock` its lock, `iunlock` and `iput` give them back, and all else on
inodes but the change of the owner or the permission costs nothing.

* `namei_costs`, `create_costs`: a path costs a reference to the inode that is returned, and
  `create` its lock.
-/

namespace FileSystem

open Tx

/-- The change of an inode leaves its owner and its permission. -/
def KeepsRights (f : Dinode → Dinode) : Prop :=
  ∀ d, (f d).owner = d.owner ∧ (f d).permission = d.permission

/-- A ledger of the references `ref` and the locks `lock` of the inodes. -/
structure Accounting {L : Type} [AddCommGroup L] (R : L → Fs → Fs → Prop)
    (ref lock : Fin ninode → L) : Prop extends Ledger R where
  iget (n : ℕ) : Costs R (iget n) ref
  idup (ip : Fin ninode) : Costs R (idup ip) ref
  ilock (ip : Fin ninode) : Costs R (ilock ip) fun _ => lock ip
  iunlock (ip : Fin ninode) : Costs R (iunlock ip) fun _ => -lock ip
  iput (ip : Fin ninode) : Costs R (iput ip) fun _ => -ref ip
  ialloc (type : InodeType) : Costs R (ialloc type) ref
  writei (ip : Fin ninode) (src : List UInt8) (off : ℕ) : Costs R (writei ip src off) 0
  iupdate (ip : Fin ninode) {f : Dinode → Dinode} (hf : KeepsRights f) : Costs R (iupdate ip f) 0

variable {L : Type} [AddCommGroup L] {R : L → Fs → Fs → Prop} {ref lock : Fin ninode → L}

/-- The reference to an inode that is returned with something else. -/
def refOf (ref : Fin ninode → L) {α : Type} (r : Option (Fin ninode × α)) : L :=
  r.elim 0 fun r => ref r.1

namespace Accounting

variable (hR : Accounting R ref lock)
include hR

/-! ### Directories and paths -/

theorem pure {α : Type} {a : α} {q : α → L} (h : q a = 0) : Costs R (pure a : Op α) q :=
  costs_pure hR.toLedger h

theorem bind {α β : Type} {x : Op α} {f : α → Op β} {q : α → L} {r : β → L} (hx : Costs R x q)
    (hf : ∀ a, Costs R (f a) fun b => r b - q a) : Costs R (x >>= f) r :=
  hx.bind hR.toLedger hf

theorem seq {α β : Type} {x : Op α} {f : α → Op β} {r : β → L} (hx : Costs R x 0)
    (hf : ∀ a, Costs R (f a) r) : Costs R (x >>= f) r :=
  hx.seq hR.toLedger hf

theorem get : Costs R (get : Op Fs) 0 := costs_get hR.toLedger

theorem failIf {c : Prop} [Decidable c] {e : Halt} : Costs R (failIf c e : Op Unit) 0 :=
  costs_failIf hR.toLedger

theorem inode (ip : Fin ninode) : Costs R (inode ip) 0 :=
  hR.seq hR.get fun _ => hR.pure rfl

theorem iunlockput (ip : Fin ninode) : Costs R (iunlockput ip) fun _ => -(ref ip + lock ip) :=
  hR.bind (hR.iunlock ip) fun _ => (hR.iput ip).congr fun _ => by abel

/-- The end of a path of the code on which an inode is given back. -/
theorem release {α : Type} {ip : Fin ninode} {a : α} {q : α → L} (h : q a = -(ref ip + lock ip)) :
    Costs R (FileSystem.iunlockput ip >>= fun _ => Pure.pure a) q :=
  hR.bind (hR.iunlockput ip) fun _ => hR.pure (by rw [h, sub_self])

theorem dirlookup (dp : Fin ninode) (name : List UInt8) :
    Costs R (dirlookup dp name) (refOf ref) := by
  refine hR.seq (hR.inode dp) fun d => hR.seq hR.failIf fun _ => ?_
  split
  · exact hR.bind (hR.iget _) fun ip => hR.pure (sub_self _)
  · exact hR.seq hR.failIf fun _ => hR.pure rfl

theorem dirlink (dp : Fin ninode) (name : List UInt8) (n : ℕ) : Costs R (dirlink dp name n) 0 := by
  refine hR.bind (hR.dirlookup dp name) fun r => ?_
  rcases r with _ | ⟨ip, i⟩
  · refine hR.seq (hR.inode dp) fun d => hR.seq (hR.writei _ _ _) fun r =>
      hR.seq hR.failIf fun _ => hR.pure ?_
    simp [refOf]
  · refine hR.bind (hR.iput ip) fun _ => hR.pure ?_
    simp [refOf]

theorem namexLoop (b : Bool) (names : List (List UInt8)) (ip : Fin ninode) :
    Costs R (namexLoop b names ip) fun r => refOf ref r - ref ip := by
  induction names generalizing ip with
  | nil =>
    cases b with
    | true => exact hR.bind (hR.iput ip) fun _ => hR.pure (by simp [refOf])
    | false => exact hR.pure (by simp [refOf])
  | cons name rest ih =>
    refine hR.bind (hR.ilock ip) fun _ => hR.seq hR.get fun s => ?_
    split
    · exact hR.release (by simp only [refOf, Option.elim]; abel)
    · split
      · exact hR.release (by simp only [refOf, Option.elim]; abel)
      · split
        · refine hR.bind (hR.iunlock ip) fun _ => hR.pure ?_
          simp only [refOf, Option.elim]
          abel
        · refine hR.bind (hR.dirlookup ip name) fun r => ?_
          rcases r with _ | ⟨next, i⟩
          · exact hR.release (by simp only [refOf, Option.elim]; abel)
          · refine hR.bind (hR.iunlockput ip) fun _ => (ih next).congr fun r => ?_
            simp only [refOf, Option.elim]
            abel

theorem start (p : Fin nproc) (path : List UInt8) : Costs R (start p path) ref := by
  unfold FileSystem.start
  split
  · exact hR.iget _
  · exact hR.seq hR.get fun s => hR.seq (costs_ofOption hR.toLedger) fun cwd => hR.idup cwd

theorem namex (p : Fin nproc) (path : CharPtr) (b : Bool) : Costs R (namex p path b) (refOf ref) :=
  hR.bind (hR.start p path.bytes) fun ip => hR.namexLoop b _ ip

theorem nameiparent (p : Fin nproc) (path : CharPtr) :
    Costs R (nameiparent p path) (refOf ref) :=
  hR.namex p path true

/-- A path costs a reference to its inode. -/
theorem namei_costs (p : Fin nproc) (path : CharPtr) :
    Costs R (namei p path) fun r => r.elim 0 ref := by
  refine hR.bind (hR.namex p path false) fun r => hR.pure ?_
  cases r with
  | none => exact sub_self _
  | some r => exact sub_self _

/-! ### New inodes -/

theorem createFound (type : InodeType) (dp ip : Fin ninode) :
    Costs R (createFound type dp ip) fun r =>
      r.elim 0 (fun ip => ref ip + lock ip) - (ref dp + lock dp) - ref ip := by
  refine hR.bind (hR.iunlockput dp) fun _ => hR.bind (hR.ilock ip) fun _ =>
    hR.seq hR.get fun s => ?_
  split
  · split
    · exact hR.release (by simp only [Option.elim]; abel)
    · exact hR.pure (by simp only [Option.elim]; abel)
  · exact hR.release (by simp only [Option.elim]; abel)

theorem createDots (type : InodeType) (dp ip : Fin ninode) : Costs R (createDots type dp ip) 0 := by
  unfold FileSystem.createDots
  split
  · refine hR.seq (hR.iupdate dp fun _ => ⟨rfl, rfl⟩) fun _ => hR.seq hR.get fun s => ?_
    refine hR.seq (hR.dirlink _ _ _) fun _ => hR.seq hR.failIf fun _ => ?_
    refine hR.seq (hR.dirlink _ _ _) fun _ => ?_
    exact hR.failIf
  · exact hR.pure rfl

theorem createNew (type : InodeType) (major minor : ℤ) (dp : Fin ninode) (name : List UInt8) :
    Costs R (createNew type major minor dp name) fun r =>
      r.elim 0 (fun ip => ref ip + lock ip) - (ref dp + lock dp) := by
  refine hR.seq hR.get fun s => ?_
  split
  · exact hR.release (by simp only [Option.elim]; abel)
  · refine hR.bind (hR.ialloc type) fun ip => hR.bind (hR.ilock ip) fun _ =>
      hR.seq (hR.iupdate ip fun _ => ⟨rfl, rfl⟩) fun _ => ?_
    refine hR.seq (hR.createDots type dp ip) fun _ => hR.seq hR.get fun s => ?_
    refine hR.seq (hR.dirlink _ _ _) fun _ => hR.seq hR.failIf fun _ => ?_
    refine hR.bind (hR.iunlockput dp) fun _ => hR.pure ?_
    simp only [Option.elim]
    abel

/-- `create` costs a reference to its inode and the lock of the inode. -/
theorem create_costs (p : Fin nproc) (path : CharPtr) (type : InodeType) (major minor : ℤ) :
    Costs R (create p path type major minor) fun r => r.elim 0 fun ip => ref ip + lock ip := by
  refine hR.bind (hR.nameiparent p path) fun r => ?_
  rcases r with _ | ⟨dp, name⟩
  · exact hR.pure (sub_self _)
  · refine hR.bind (hR.ilock dp) fun _ => hR.bind (hR.dirlookup dp name) fun r => ?_
    rcases r with _ | ⟨ip, i⟩
    · refine (hR.createNew type major minor dp name).congr fun r => ?_
      simp only [refOf, Option.elim]
      abel
    · refine (hR.createFound type dp ip).congr fun r => ?_
      simp only [refOf, Option.elim]
      abel

/-! ### Calls that keep the rights -/

theorem link (p : Fin nproc) (old new : CharPtr) : Costs R (sysLink p old new) 0 := by
  refine hR.bind (hR.namei_costs p old) fun r => ?_
  rcases r with _ | ip
  · exact hR.pure (by simp only [Option.elim, Pi.zero_apply]; abel)
  · refine hR.bind (hR.ilock ip) fun _ => hR.seq (hR.inode ip) fun d => ?_
    split
    · exact hR.release (by simp only [Option.elim, Pi.zero_apply]; abel)
    · refine hR.seq (hR.iupdate ip fun _ => ⟨rfl, rfl⟩) fun _ => hR.bind (hR.iunlock ip) fun _ => ?_
      have hbad : Costs R (FileSystem.ilock ip >>= fun _ =>
          FileSystem.iupdate ip (fun d => { d with nlink := short (d.nlink - 1) }) >>= fun _ =>
          FileSystem.iunlockput ip >>= fun _ => Pure.pure (-1)) fun _ : ℤ => -ref ip := by
        refine hR.bind (hR.ilock ip) fun _ => hR.seq (hR.iupdate ip fun _ => ⟨rfl, rfl⟩) fun _ => ?_
        exact hR.release (by abel)
      refine hR.bind (hR.nameiparent p new) fun r => ?_
      rcases r with _ | ⟨dp, name⟩
      · exact hbad.congr fun _ => by simp only [refOf, Option.elim, Pi.zero_apply]; abel
      · refine hR.bind (hR.ilock dp) fun _ => hR.seq hR.get fun s => ?_
        refine hR.seq (hR.dirlink dp name _) fun r => hR.bind (hR.iunlockput dp) fun _ => ?_
        split
        · exact hbad.congr fun _ => by simp only [refOf, Option.elim, Pi.zero_apply]; abel
        · refine hR.bind (hR.iput ip) fun _ => hR.pure ?_
          simp only [refOf, Option.elim, Pi.zero_apply]
          abel

theorem dropDotdot (type : InodeType) (dp : Fin ninode) : Costs R (dropDotdot type dp) 0 := by
  unfold FileSystem.dropDotdot
  split
  · exact hR.iupdate dp fun _ => ⟨rfl, rfl⟩
  · exact hR.pure rfl

theorem unlink (p : Fin nproc) (path : CharPtr) : Costs R (sysUnlink p path) 0 := by
  refine hR.bind (hR.nameiparent p path) fun r => ?_
  rcases r with _ | ⟨dp, name⟩
  · exact hR.pure (by simp only [refOf, Option.elim, Pi.zero_apply]; abel)
  · refine hR.bind (hR.ilock dp) fun _ => hR.seq hR.get fun s => ?_
    split
    · exact hR.release (by simp only [refOf, Option.elim, Pi.zero_apply]; abel)
    · split
      · exact hR.release (by simp only [refOf, Option.elim, Pi.zero_apply]; abel)
      · refine hR.bind (hR.dirlookup dp name) fun r => ?_
        rcases r with _ | ⟨ip, i⟩
        · exact hR.release (by simp only [refOf, Option.elim, Pi.zero_apply]; abel)
        · refine hR.bind (hR.ilock ip) fun _ => hR.seq (hR.inode ip) fun d => ?_
          refine hR.seq hR.failIf fun _ => hR.seq hR.failIf fun _ => ?_
          split
          · refine hR.bind (hR.iunlockput ip) fun _ => hR.release ?_
            simp only [refOf, Option.elim, Pi.zero_apply]
            abel
          · refine hR.seq (hR.writei _ _ _) fun _ => hR.seq (hR.dropDotdot _ dp) fun _ => ?_
            refine hR.bind (hR.iunlockput dp) fun _ =>
              hR.seq (hR.iupdate ip fun _ => ⟨rfl, rfl⟩) fun _ => hR.release ?_
            simp only [refOf, Option.elim, Pi.zero_apply]
            abel

theorem exec (p : Fin nproc) (path : CharPtr) (r : ℤ) : Costs R (exec p path r) 0 := by
  refine hR.bind (hR.namei_costs p path) fun o => ?_
  rcases o with _ | ip
  · exact hR.pure (by simp only [Option.elim, Pi.zero_apply]; abel)
  · refine hR.bind (hR.ilock ip) fun _ => hR.seq hR.get fun s => ?_
    split
    · exact hR.release (by simp only [Option.elim, Pi.zero_apply]; abel)
    · exact hR.release (by simp only [Option.elim, Pi.zero_apply]; abel)

theorem updateUserS (userS : Fin ninode) : Costs R (updateUserS userS) 0 :=
  hR.seq hR.get fun _ => hR.seq (hR.writei _ _ _) fun _ => hR.pure rfl

/-- The inode that `open` goes on with, without `O_CREATE`. -/
theorem openInode (p : Fin nproc) (path : CharPtr) {omode : UInt32} (h : omode &&& oCreate = 0) :
    Costs R (openInode p path omode) fun r => r.elim 0 fun ip => ref ip + lock ip := by
  unfold FileSystem.openInode
  rw [if_neg (not_not.2 h)]
  refine hR.bind (hR.namei_costs p path) fun r => ?_
  rcases r with _ | ip
  · exact hR.pure (by simp only [Option.elim]; abel)
  · refine hR.bind (hR.ilock ip) fun _ => hR.seq (hR.inode ip) fun d => ?_
    split
    · exact hR.release (by simp only [Option.elim]; abel)
    · exact hR.pure (by simp only [Option.elim]; abel)

end Accounting
end FileSystem
