import Xv6.Files.Calls
import Xv6.Library.Counting
import Xv6.Library.Shift

/-!
# What calls do to the reference counts of inodes

The programs over inodes change the counts by an amount that depends only on
what they return: a program that returns an inode took one reference to it, and
otherwise nothing changed. How far a program got before it failed does not
matter.
-/

namespace Xv6.Files

open Prog (Ensures Shifts)
open Count (one perhaps perhaps_none perhaps_some)

variable {lim : Limits} {ip dp : Fin lim.ninode}

def refs (s : Fs lim) (ip : Fin lim.ninode) : Int := (s.inode ip).ref

/-- Every panic but those of the file table. -/
def Benign (panic : Panic) : Prop := panic ≠ .filedup ∧ panic ≠ .fileclose
  deriving Decidable

variable {α : Type}

abbrev Takes (prog : FsM lim α) (taken : α → Fin lim.ninode → Int) : Prop :=
  Shifts Benign refs prog taken

abbrev Keeps (prog : FsM lim α) : Prop := Takes prog fun _ => 0

theorem modifyInode_takes {f : Inode → Inode} (n : Int)
    (moves : ∀ entry, (f entry).ref = entry.ref + n) :
    Takes (modifyInode ip f) fun _ => Pi.single ip n := by
  refine .of_modify fun s => funext fun other => ?_
  rcases eq_or_ne other ip with rfl | different
  · simp [refs, moves]
  · simp [refs, Function.update_of_ne different, Pi.single_eq_of_ne different]

theorem modifyInode_keeps {f : Inode → Inode} (same : ∀ entry, (f entry).ref = entry.ref) :
    Keeps (modifyInode ip f) :=
  (modifyInode_takes 0 fun entry => by rw [same, add_zero]).congr fun _ => Pi.single_zero ip

theorem modifyCopy_keeps {f : Dinode → Dinode} : Keeps (modifyCopy ip f) :=
  modifyInode_keeps fun _ => rfl

theorem modifyDinode_keeps {inum : Nat} {dinode : Dinode} :
    Keeps (modifyDinode inum dinode : FsM lim Unit) :=
  .of_modify fun _ => (add_zero _).symm

theorem iupdate_keeps : Keeps (iupdate ip) := .get fun _ => modifyDinode_keeps

theorem outcome_keeps : Keeps (outcome : FsM lim Int) := fun s => by
  refine Ensures.bind (Ensures.get ?_)
  split
  · exact .pure (add_zero _).symm
  · exact .of_eq rfl (add_zero _).symm

theorem beginOp_keeps : Keeps (beginOp : FsM lim Unit) :=
  .of_modify fun _ => (add_zero _).symm

theorem endOp_keeps : Keeps (endOp : FsM lim Unit) :=
  .of_modify fun _ => (add_zero _).symm

theorem addRef_takes :
    Takes (modifyInode ip fun entry => { entry with ref := entry.ref + 1 }) fun _ => one ip :=
  modifyInode_takes 1 fun _ => rfl

theorem iget_takes {dev inum : Nat} : Takes (iget dev inum : FsM lim _) one := fun s => by
  refine Ensures.bind (Ensures.get ?_)
  split
  next ip cached =>
    exact (Shifts.bind addRef_takes fun _ => Shifts.pure (sub_self _)) s
  next =>
    split
    next => exact .throw (by decide)
    next ip empty =>
      -- the slot was free, so its count was zero
      have unused : (s.inode ip).ref = 0 := by simpa using List.find?_some empty
      refine Ensures.bind (Ensures.of_modify (Ensures.pure (funext fun other => ?_)))
      rcases eq_or_ne other ip with rfl | different
      · simp [refs, one, unused]
      · simp [refs, one, Function.update_of_ne different, Pi.single_eq_of_ne different]

theorem idup_takes : Takes (idup ip) one :=
  .bind addRef_takes fun _ => .pure (sub_self _)

variable {type : FileType}

theorem ialloc_takes {dev : Nat} :
    Takes (ialloc dev type : FsM lim _) perhaps := by
  refine .get fun s => ?_
  split
  next => exact .pure rfl
  next inum _ =>
    refine .after modifyDinode_keeps fun _ => ?_
    exact .bind iget_takes fun ip => .pure (sub_self _)

theorem acquiresleep_keeps : Keeps (acquiresleep ip) := by
  refine .get fun s => .ite (fun _ => .throw (by decide)) fun _ => ?_
  exact modifyInode_keeps fun _ => rfl

theorem releasesleep_keeps : Keeps (releasesleep ip) := modifyInode_keeps fun _ => rfl

theorem ilock_keeps : Keeps (ilock ip) := by
  refine .get fun s => .ite (fun _ => .throw (by decide)) fun _ => ?_
  refine .after acquiresleep_keeps fun _ => .ite (fun _ => .pure rfl) fun _ => ?_
  refine .get fun s => .after (modifyInode_keeps fun _ => rfl) fun _ => ?_
  exact .ite (fun _ => .throw (by decide)) fun _ => .pure rfl

theorem iunlock_keeps : Keeps (iunlock ip) :=
  .get fun _ => .ite (fun _ => .throw (by decide)) fun _ => releasesleep_keeps

theorem itrunc_keeps : Keeps (itrunc ip) :=
  .after modifyCopy_keeps fun _ => iupdate_keeps

theorem iput_takes : Takes (iput ip) fun _ => -one ip := by
  refine .get fun s => .after (.ite (fun _ => ?_) fun _ => .pure rfl) fun _ => ?_
  · refine .after acquiresleep_keeps fun _ => .after itrunc_keeps fun _ => ?_
    refine .after modifyCopy_keeps fun _ => .after iupdate_keeps fun _ => ?_
    exact .after (modifyInode_keeps fun _ => rfl) fun _ => releasesleep_keeps
  · exact (modifyInode_takes (-1) fun _ => rfl).congr fun _ => Pi.single_neg ip 1

theorem iunlockput_takes : Takes (iunlockput ip) fun _ => -one ip :=
  .after iunlock_keeps fun _ => iput_takes

theorem Takes.release {β : Type} {f : Unit → FsM lim β} {taken : β → Fin lim.ninode → Int}
    (rest : Takes (f ()) fun b => taken b + one ip) : Takes (iunlockput ip >>= f) taken :=
  .bind iunlockput_takes fun _ => rest.congr fun _ => (sub_neg_eq_add _ _).symm

theorem Takes.put {β : Type} {f : Unit → FsM lim β} {taken : β → Fin lim.ninode → Int}
    (rest : Takes (f ()) fun b => taken b + one ip) : Takes (iput ip >>= f) taken :=
  .bind iput_takes fun _ => rest.congr fun _ => (sub_neg_eq_add _ _).symm

variable {name : Path}

theorem dirlookup_takes :
    Takes (dirlookup dp name) fun found => perhaps (found.map Prod.fst) := by
  refine .get fun s => .ite (fun _ => .throw (by decide)) fun _ => ?_
  split
  next => exact .pure rfl
  next off _ => exact .bind iget_takes fun ip => .pure (sub_self _)

theorem writeDirent_keeps {off : Nat} {de : Dirent} : Keeps (writeDirent dp off de) := by
  refine .get fun s => .ite (fun _ => .pure rfl) fun _ => ?_
  refine .after (.ite (fun _ => .pure rfl) fun _ => outcome_keeps) fun block => ?_
  refine .ite (fun _ => ?_) fun _ => ?_
  · exact .after iupdate_keeps fun _ => .pure rfl
  · refine .after modifyCopy_keeps fun _ => ?_
    exact .after iupdate_keeps fun _ => .pure rfl

theorem dirlink_keeps {inum : Nat} : Keeps (dirlink dp name inum) := by
  refine .bind dirlookup_takes fun found => ?_
  rcases found with _ | ⟨ip, off⟩
  · refine .get fun s => ?_
    exact writeDirent_keeps.congr fun _ => (sub_zero _).symm
  · exact Takes.put (.pure (by simp))

theorem nonNull_keeps {pointer : Option α} : Keeps (nonNull pointer : FsM lim α) := by
  cases pointer with
  | none => exact .throw (by decide)
  | some a => exact .pure rfl

/-- Resolution gives up the inode it starts from. -/
theorem namexFrom_takes {parent : Bool} {path : List Path} :
    Takes (namexFrom parent path ip) fun found => perhaps (found.map Prod.fst) - one ip := by
  induction path generalizing ip with
  | nil =>
    unfold namexFrom
    refine .ite (fun _ => Takes.put (.pure ?_)) fun _ => .pure ?_
    · simp
    · simp
  | cons name rest ih =>
    unfold namexFrom
    refine .after ilock_keeps fun _ => .get fun s => .ite (fun _ => ?_) fun _ => ?_
    · exact Takes.release (.pure (by simp))
    refine .ite (fun _ => ?_) fun _ => .bind dirlookup_takes fun found => ?_
    · exact .after iunlock_keeps fun _ => .pure (by simp)
    rcases found with _ | ⟨next, off⟩
    · exact Takes.release (.pure (by simp))
    · exact Takes.release (ih.congr fun found => by simp only [Option.map_some, perhaps_some]; abel)

theorem namex_takes {cwd : Option (Fin lim.ninode)} {path : Path} {parent : Bool} :
    Takes (namex cwd path parent) fun found => perhaps (found.map Prod.fst) := by
  have starts : Takes (if path.head? = some slash then iget rootDev rootIno
      else do idup (← nonNull cwd) : FsM lim (Fin lim.ninode)) one :=
    .ite (fun _ => iget_takes) fun _ => .after nonNull_keeps fun _ => idup_takes
  exact .bind starts fun ip => namexFrom_takes

theorem namei_takes {cwd : Option (Fin lim.ninode)} {path : Path} :
    Takes (namei cwd path) perhaps :=
  .bind namex_takes fun _ => .pure (sub_self _)

theorem nameiparent_takes {cwd : Option (Fin lim.ninode)} {path : Path} :
    Takes (nameiparent cwd path) fun found => perhaps (found.map Prod.fst) := namex_takes

section Calls

variable {cwd : Option (Fin lim.ninode)} {path : Path}

theorem linkName_keeps {new : Path} : Keeps (linkName cwd new ip) := by
  refine .bind nameiparent_takes fun found => ?_
  rcases found with _ | ⟨dp, name⟩
  · exact .pure (by simp)
  refine .after ilock_keeps fun _ => .get fun s => .ite (fun _ => ?_) fun _ => ?_
  · exact Takes.release (.pure (by simp))
  · exact .after dirlink_keeps fun linked => Takes.release (.pure (by simp))

theorem sysLink_keeps {old new : Path} : Keeps (sysLink cwd old new) := by
  refine .after beginOp_keeps fun _ => .bind namei_takes fun found => ?_
  rcases found with _ | ip
  · exact .after endOp_keeps fun _ => .pure (by simp)
  refine .after ilock_keeps fun _ => .get fun s => .ite (fun _ => ?_) fun _ => ?_
  · exact Takes.release (.after endOp_keeps fun _ => .pure (by simp))
  refine .after modifyCopy_keeps fun _ => .after iupdate_keeps fun _ => ?_
  refine .after iunlock_keeps fun _ => .after linkName_keeps fun linked => ?_
  refine .ite (fun _ => ?_) fun _ => ?_
  · exact Takes.put (.after endOp_keeps fun _ => .pure (by simp))
  · refine .after ilock_keeps fun _ => .after modifyCopy_keeps fun _ => ?_
    refine .after iupdate_keeps fun _ => Takes.release ?_
    exact .after endOp_keeps fun _ => .pure (by simp)

theorem sysUnlink_keeps : Keeps (sysUnlink cwd path) := by
  refine .after beginOp_keeps fun _ => .bind nameiparent_takes fun found => ?_
  rcases found with _ | ⟨dp, name⟩
  · exact .after endOp_keeps fun _ => .pure (by simp)
  refine .after ilock_keeps fun _ => .ite (fun _ => ?_) fun _ => ?_
  · exact Takes.release (.after endOp_keeps fun _ => .pure (by simp))
  refine .bind dirlookup_takes fun found => ?_
  rcases found with _ | ⟨ip, off⟩
  · exact Takes.release (.after endOp_keeps fun _ => .pure (by simp))
  refine .after ilock_keeps fun _ => .get fun s => ?_
  refine .ite (fun _ => .throw (by decide)) fun _ => .ite (fun _ => ?_) fun _ => ?_
  · refine Takes.release (Takes.release (.after endOp_keeps fun _ => .pure ?_))
    simp only [Option.map_some, perhaps_some]
    abel
  refine .after writeDirent_keeps fun _ => .after (.ite (fun _ => ?_) fun _ => ?_) fun _ => ?_
  · exact .after modifyCopy_keeps fun _ => iupdate_keeps
  · exact .pure rfl
  refine Takes.release (.after modifyCopy_keeps fun _ => .after iupdate_keeps fun _ => ?_)
  refine Takes.release (.after endOp_keeps fun _ => .pure ?_)
  simp only [Option.map_some, perhaps_some]
  abel

theorem createDots_keeps : Keeps (createDots ip dp type) := by
  refine .ite (fun _ => .get fun s => ?_) fun _ => .pure rfl
  refine .after dirlink_keeps fun linked => .ite (fun _ => ?_) fun _ => .pure rfl
  exact .get fun s => dirlink_keeps

variable {major minor : Int}

theorem createIn_takes :
    Takes (createIn dp name type major minor) fun made => perhaps made - one dp := by
  refine .get fun s => .bind ialloc_takes fun made => ?_
  rcases made with _ | ip
  · exact Takes.release (.pure (by simp))
  refine .after ilock_keeps fun _ => .after modifyCopy_keeps fun _ => ?_
  refine .after iupdate_keeps fun _ => .after ?_ fun linked => ?_
  · refine .after createDots_keeps fun dots => .ite (fun _ => ?_) fun _ => .pure rfl
    exact .get fun s => dirlink_keeps
  refine .ite (fun _ => ?_) fun _ => ?_
  · refine .after (.ite (fun _ => ?_) fun _ => .pure rfl) fun _ => ?_
    · exact .after modifyCopy_keeps fun _ => iupdate_keeps
    · exact Takes.release (.pure (by simp))
  · refine .after modifyCopy_keeps fun _ => .after iupdate_keeps fun _ => ?_
    exact Takes.release (Takes.release (.pure (by simp)))

theorem create_takes :
    Takes (create cwd path type major minor) perhaps := by
  refine .bind nameiparent_takes fun found => ?_
  rcases found with _ | ⟨dp, name⟩
  · exact .pure (by simp)
  refine .after ilock_keeps fun _ => .bind dirlookup_takes fun found => ?_
  rcases found with _ | ⟨ip, off⟩
  · exact createIn_takes.congr fun made => by simp
  refine Takes.release (.after ilock_keeps fun _ => .get fun s => ?_)
  refine .ite (fun _ => .pure (by simp)) fun _ => Takes.release (.pure ?_)
  simp only [Option.map_some, perhaps_some, perhaps_none]
  abel

theorem openInode_takes {omode : Nat} : Takes (openInode cwd path omode) perhaps := by
  refine .ite (fun _ => create_takes) fun _ => .bind namei_takes fun found => ?_
  rcases found with _ | ip
  · exact .pure (by simp)
  refine .after ilock_keeps fun _ => .get fun s => .ite (fun _ => ?_) fun _ => ?_
  · exact Takes.release (.pure (by simp))
  · exact .pure (by simp)

theorem made_keeps {made : Option (Fin lim.ninode)} :
    Takes (match made with
      | none => do
        endOp
        return -1
      | some ip => do
        iunlockput ip
        endOp
        return 0 : FsM lim Int) fun _ => -perhaps made := by
  rcases made with _ | ip
  · exact .after endOp_keeps fun _ => .pure (by simp)
  · exact Takes.release (.after endOp_keeps fun _ => .pure (by simp))

theorem sysMkdir_keeps {path : Option Path} : Keeps (sysMkdir cwd path) := by
  refine .after beginOp_keeps fun _ => ?_
  cases path with
  | none => exact .after endOp_keeps fun _ => .pure rfl
  | some path => exact .bind create_takes fun made => made_keeps.congr fun _ => (zero_sub _).symm

theorem sysMknod_keeps {path : Option Path} :
    Keeps (sysMknod cwd path major minor) := by
  refine .after beginOp_keeps fun _ => ?_
  cases path with
  | none => exact .after endOp_keeps fun _ => .pure rfl
  | some path => exact .bind create_takes fun made => made_keeps.congr fun _ => (zero_sub _).symm

theorem chdirInode_takes : Takes (chdirInode cwd path) perhaps := by
  refine .bind namei_takes fun found => ?_
  rcases found with _ | ip
  · exact .pure (by simp)
  refine .after ilock_keeps fun _ => .get fun s => .ite (fun _ => ?_) fun _ => ?_
  · exact Takes.release (.pure (by simp))
  · exact .after iunlock_keeps fun _ => .pure (by simp)

theorem exec_keeps : Keeps (exec cwd path) := by
  refine .after beginOp_keeps fun _ => .bind namei_takes fun found => ?_
  rcases found with _ | ip
  · exact .after endOp_keeps fun _ => .pure (by simp)
  refine .after ilock_keeps fun _ => .after outcome_keeps fun loaded => ?_
  refine Takes.release (.after endOp_keeps fun _ => .ite (fun _ => .pure ?_) fun _ => ?_)
  · simp
  refine .after outcome_keeps fun built => .ite (fun _ => .pure ?_) fun _ => ?_
  · simp
  · exact outcome_keeps.congr fun _ => by simp

theorem sysExec_keeps : Keeps (sysExec cwd path) :=
  .after outcome_keeps fun _ => .ite (fun _ => .pure rfl) fun _ => exec_keeps

end Calls

end Xv6.Files
