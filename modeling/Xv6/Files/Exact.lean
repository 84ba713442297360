import Xv6.Files.FileTable

/-!
# Reference counts are exact

Every call leaves a state that owes nothing: the count of a file is the number
of descriptors for it, the count of an inode is the number of open files and
current directories that refer to it, and an end of a pipe is open if and only
if an open file is that end.
-/

namespace Xv6.Files

open Finset
open List
open Function
open Count (one perhaps tally perhaps_none perhaps_some perhaps_apply)
open Prog (Ensures)

variable {lim : Limits} {s s' : State lim} {owed : Debt lim} {f : Fin lim.nfile}
  {p : Fin lim.nproc}

/-! ## Reading and writing -/

theorem moveOff_spec {r : Int} (owes : Owes owed s) :
    Ensures Benign (if r > 0 then modifyFile f fun file => { file with off := file.off + r }
      else pure ()) s fun _ s' => Owes owed s' := by
  refine .ite (fun _ => .of_modify ?_) fun _ => .pure owes
  refine Owes.congr (owes.setFile ?_) ?_
  · exact owes.sound.closed f
  · simp [File.inode?, File.pipeEnd?]

theorem fileread_spec (owes : Owes owed s) :
    Ensures Benign (fileread f) s fun _ s' => Owes owed s' := by
  refine .bind (.get (.ite (fun _ => .pure owes) fun _ => ?_))
  split
  next => exact (onFs_keeps outcome_keeps owes).mono fun _ _ => And.left
  next =>
    refine .ite (fun _ => ?_) fun _ => .pure owes
    exact (onFs_keeps outcome_keeps owes).mono fun _ _ => And.left
  next =>
    refine owes.after nonNull_keeps fun ip _ owes => ?_
    refine owes.after ilock_keeps fun _ _ owes => ?_
    refine owes.after outcome_keeps fun r _ owes => ?_
    refine .seq (moveOff_spec owes) fun _ _ owes => ?_
    exact owes.after iunlock_keeps fun _ _ owes => .pure owes
  next => exact .throw (by decide)

theorem filewriteFrom_spec {ip : Fin lim.ninode} {n i : Int} {fuel : Nat} (owes : Owes owed s) :
    Ensures Benign (filewriteFrom f ip n fuel i) s fun _ s' => Owes owed s' := by
  induction fuel generalizing s i with
  | zero => exact .pure owes
  | succ fuel ih =>
    refine .ite (fun _ => ?_) fun _ => .pure owes
    refine owes.after beginOp_keeps fun _ _ owes => ?_
    refine owes.after ilock_keeps fun _ _ owes => ?_
    refine owes.after outcome_keeps fun r _ owes => ?_
    refine .seq (moveOff_spec owes) fun _ _ owes => ?_
    refine owes.after iunlock_keeps fun _ _ owes => ?_
    refine owes.after endOp_keeps fun _ _ owes => ?_
    exact .ite (fun _ => .pure owes) fun _ => ih owes

theorem filewrite_spec {n : Int} (owes : Owes owed s) :
    Ensures Benign (filewrite f n) s fun _ s' => Owes owed s' := by
  refine .bind (.get (.ite (fun _ => .pure owes) fun _ => ?_))
  split
  next => exact (onFs_keeps outcome_keeps owes).mono fun _ _ => And.left
  next =>
    refine .ite (fun _ => ?_) fun _ => .pure owes
    exact (onFs_keeps outcome_keeps owes).mono fun _ _ => And.left
  next =>
    refine owes.after nonNull_keeps fun ip _ owes => ?_
    exact .seq (filewriteFrom_spec owes) fun _ _ owes => .pure owes
  next => exact .throw (by decide)

theorem sysRead_settles {number : Int} (owes : Owes 0 s) : Settles (sysRead p number) s := by
  refine .seq argfd_spec ?_
  rintro (_ | ⟨slot, f⟩) s' ⟨rfl, -⟩
  · exact .pure owes
  · exact fileread_spec owes

theorem sysWrite_settles {number n : Int} (owes : Owes 0 s) : Settles (sysWrite p number n) s := by
  refine .seq argfd_spec ?_
  rintro (_ | ⟨slot, f⟩) s' ⟨rfl, -⟩
  · exact .pure owes
  · exact filewrite_spec owes

/-! ## Opening and changing directory -/

theorem openFile_spec (owes : Owes owed s) (settled : owed.2.2 = 0) (busy : Busy s p) :
    Ensures Benign (openFile p) s fun r s' => Owes owed s' ∧
      ∀ f fd, r = some (f, fd) → (s'.file f).ref = 1 ∧ (s'.file f).type = .none := by
  refine .seq (filealloc_spec owes) fun allocated s₁ result => ?_
  rcases allocated with _ | f
  · exact .pure ⟨result ▸ owes, nofun⟩
  obtain ⟨-, ref, type, owes₁, frame⟩ := result
  refine .seq fdalloc_spec ?_
  rintro (_ | fd) s₂ result
  · obtain rfl : s₂ = s₁ := result
    refine .seq (fileclose_spec owes₁ ref.ge (by simp [settled])) fun _ s₃ closed => ?_
    exact .pure ⟨closed.1.congr (add_sub_cancel_right _ _), nofun⟩
  · obtain ⟨unused, rfl⟩ := result
    refine .pure ⟨(owes₁.withOfile (busy.congr frame.proc) fd (some f)).congr ?_, ?_⟩
    · simp [unused, add_assoc]
    · rintro f' fd' same
      cases same
      exact ⟨ref, type⟩

/-- The file takes over the reference to its inode. -/
theorem initFile_spec {ip : Fin lim.ninode} {copy : Dinode} {omode : Nat} (owes : Owes owed s)
    (ref : (s.file f).ref = 1) (type : (s.file f).type = .none) :
    Ensures Benign (initFile f ip copy omode) s fun _ s' => Owes (owed - (0, one ip, 0)) s' := by
  refine .bind (.ite (fun _ => ?_) fun _ => ?_)
  all_goals
    refine .of_modify (.of_modify (Owes.congr ((owes.setFile ?_).setFile ?_) ?_))
    · simp [ref]
    · simp [ref]
    · simp [File.inode?, File.pipeEnd?, ref, type, add_assoc, sub_eq_add_neg]

theorem sysOpen_settles {path : Path} {omode : Nat} (owes : Owes 0 s) (busy : Busy s p) :
    Settles (sysOpen p path omode) s := by
  refine .bind (.get ?_)
  refine .seq (onFs_keeps beginOp_keeps owes) ?_
  rintro _ _ ⟨owes₁, fs₁, rfl⟩
  refine .seq (onFs_spec openInode_takes owes₁) ?_
  rintro (_ | ip) _ ⟨owes₂, fs₂, rfl⟩
  · exact owes₂.after endOp_keeps fun _ _ owes => .pure owes
  -- the inode is given back
  have undo : ∀ {s' : State lim}, Owes (0, one ip, 0) s' → Settles (do
      onFs (iunlockput ip)
      onFs endOp
      return (-1 : Int)) s' := by
    intro s' owes
    refine .seq (onFs_spec iunlockput_takes owes) ?_
    rintro _ _ ⟨owes, -⟩
    refine owes.after endOp_keeps fun _ _ owes => .pure ?_
    exact owes.congr (by simp)
  have holds : Owes (0, one ip, 0) { s with fs := fs₂ } := owes₂.congr (zero_add _)
  refine .bind (.get (.ite (fun _ => undo holds) fun _ => ?_))
  refine .seq (openFile_spec holds rfl busy) ?_
  rintro opened s₃ ⟨owes₃, result⟩
  rcases opened with _ | ⟨f, fd⟩
  · exact undo owes₃
  obtain ⟨ref, type⟩ := result f fd rfl
  refine .seq (initFile_spec owes₃ ref type) fun _ s₄ owes₄ => ?_
  have settled : Owes 0 s₄ := owes₄.congr (sub_self _)
  have truncated : Settles (if omode &&& oTrunc ≠ 0 ∧ (fs₂.inode ip).copy.type = .file then
      onFs (itrunc ip) else pure ()) s₄ :=
    .ite (fun _ => (onFs_keeps itrunc_keeps settled).mono fun _ _ => And.left) fun _ =>
      .pure settled
  refine .seq truncated fun _ s₅ owes₅ => ?_
  refine owes₅.after iunlock_keeps fun _ _ owes => ?_
  exact owes.after endOp_keeps fun _ _ owes => .pure owes

variable {cwd : Option (Fin lim.ninode)}

theorem putCwd_takes :
    Takes (do iput (← nonNull cwd)) fun _ => -perhaps cwd := by
  cases cwd with
  | none => exact fun s => .throw (by decide)
  | some ip => exact iput_takes

theorem setCwd_owes (owes : Owes owed s) (busy : Busy s p) :
    Owes (owed + (0, perhaps (s.proc p).cwd - perhaps cwd, 0))
      { s with proc := update s.proc p { s.proc p with cwd := cwd } } := by
  refine owes.setProc ?_ ?_
  · rintro (unused | zombie)
    · exact absurd unused busy.1
    · exact absurd zombie busy.2
  · rw [debt_setCwd, owes.debt]

theorem sysChdir_settles {path : Option Path} (owes : Owes 0 s) (busy : Busy s p) :
    Settles (sysChdir p path) s := by
  refine .bind (.get ?_)
  refine .seq (onFs_keeps beginOp_keeps owes) ?_
  rintro _ _ ⟨owes₁, fs₁, rfl⟩
  cases path with
  | none => exact owes₁.after endOp_keeps fun _ _ owes => .pure owes
  | some path =>
    refine .seq (onFs_spec chdirInode_takes owes₁) ?_
    rintro (_ | ip) _ ⟨owes₂, fs₂, rfl⟩
    · exact owes₂.after endOp_keeps fun _ _ owes => .pure owes
    refine .seq (onFs_spec putCwd_takes owes₂) ?_
    rintro _ _ ⟨owes₃, fs₃, rfl⟩
    refine .seq (onFs_keeps endOp_keeps owes₃) ?_
    rintro _ _ ⟨owes₄, fs₄, rfl⟩
    refine .bind (.of_modify (.pure ?_))
    refine (setCwd_owes owes₄ busy).congr ?_
    change (0 : Debt lim) + (0, one ip, 0) + (0, -perhaps (s.proc p).cwd, 0) +
      (0, perhaps (s.proc p).cwd - one ip, 0) = 0
    have cancel : one ip + -perhaps (s.proc p).cwd + (perhaps (s.proc p).cwd - one ip) = 0 := by
      abel
    simp [cancel]

/-! ## Processes -/

theorem allocproc_spec (owes : Owes owed s) :
    Ensures Benign allocproc s fun r s' => Owes owed s' ∧
      ∀ np, r = some np → Busy s' np ∧ (∀ fd, (s'.proc np).ofile fd = none) ∧
        (s'.proc np).cwd = none := by
  refine .bind (.get ?_)
  split
  next => exact .pure ⟨owes, nofun⟩
  next np found =>
    have unused : (s.proc np).state = .unused := by simpa using find?_some found
    obtain ⟨noFiles, noCwd⟩ := owes.sound.idle np (.inl unused)
    have counted : Owes owed { s with nextpid := s.nextpid + 1 } :=
      ⟨⟨owes.sound.closed, owes.sound.idle, owes.sound.freed⟩, owes.debt⟩
    refine .bind (.of_modify (.bind (.of_modify (.pure ⟨?_, ?_⟩))))
    · refine counted.keepProc ?_ ?_ ?_
      · simp
      · rfl
      · rfl
    · intro np' same
      obtain rfl : np = np' := Option.some.inj same
      refine ⟨?_, ?_, ?_⟩
      · simp [Busy]
      · simpa using noFiles
      · simpa using noCwd

theorem freeproc_spec {q : Fin lim.nproc} (owes : Owes owed s)
    (noFiles : ∀ fd, (s.proc q).ofile fd = none) (noCwd : (s.proc q).cwd = none) :
    Ensures Benign (freeproc q) s fun _ s' => Owes owed s' := by
  refine .of_modify (owes.keepProc ?_ ?_ ?_)
  · exact fun _ => ⟨noFiles, noCwd⟩
  · rfl
  · rfl

theorem forkFile_spec {np : Fin lim.nproc} {fd : Fin lim.nofile} (owes : Owes 0 s)
    (unused : (s.proc np).ofile fd = none) (busy : Busy s np) :
    Ensures Benign (forkFile p np fd) s fun _ s' => Owes 0 s' ∧ Busy s' np ∧
      (s'.proc np).cwd = (s.proc np).cwd ∧
      ∀ other, other ≠ fd → (s'.proc np).ofile other = (s.proc np).ofile other := by
  refine .bind (.get ?_)
  split
  next => exact .pure ⟨owes, busy, rfl, fun _ _ => rfl⟩
  next f slotted =>
    have live := owes.slot_open slotted le_rfl
    refine .seq (filedup_spec owes live) fun r s₁ result => ?_
    obtain ⟨rfl, owes₁, frame, -⟩ := result
    refine setOfile_spec.mono ?_
    rintro _ _ rfl
    refine ⟨(owes₁.withOfile (busy.congr frame.proc) fd (some r)).congr ?_,
      (busy.congr frame.proc).withOfile, ?_, fun other different => ?_⟩
    · simp [frame.proc, unused]
    · simp [State.withOfile, frame.proc]
    · rw [withOfile_ofile, update_of_ne different, frame.proc]

theorem forkFiles_spec {np : Fin lim.nproc} (owes : Owes 0 s) (busy : Busy s np)
    (noFiles : ∀ fd, (s.proc np).ofile fd = none) (noCwd : (s.proc np).cwd = none) :
    Ensures Benign ((finRange lim.nofile).forM (forkFile p np)) s fun _ s' =>
      Owes 0 s' ∧ Busy s' np ∧ (s'.proc np).cwd = none := by
  let inv (items : List (Fin lim.nofile)) (s : State lim) : Prop :=
    (items.Nodup ∧ ∀ fd ∈ items, (s.proc np).ofile fd = none) ∧
      Owes 0 s ∧ Busy s np ∧ (s.proc np).cwd = none
  have start : inv (finRange lim.nofile) s :=
    ⟨⟨nodup_finRange _, fun fd _ => noFiles fd⟩, owes, busy, noCwd⟩
  refine (Ensures.forM inv ?_ start).mono fun _ s' result => result.2
  rintro fd items s ⟨⟨nodup, unused⟩, owes, busy, cwd⟩
  refine (forkFile_spec owes (unused fd (by simp)) busy).mono ?_
  rintro _ s' ⟨owes', busy', cwd', same⟩
  obtain ⟨absent, nodup'⟩ := nodup_cons.mp nodup
  refine ⟨⟨nodup', fun other member => ?_⟩, owes', busy', cwd'.trans cwd⟩
  rw [same other fun equal => absent (equal ▸ member)]
  exact unused other (mem_cons_of_mem _ member)

theorem fork_settles (owes : Owes 0 s) : Settles (fork p) s := by
  refine .seq (allocproc_spec owes) fun r s₁ ⟨owes₁, result⟩ => ?_
  rcases r with _ | np
  · exact .pure owes₁
  obtain ⟨busy, noFiles, noCwd⟩ := result np rfl
  refine .seq (onFs_keeps outcome_keeps owes₁) ?_
  rintro page _ ⟨owes₂, fs, rfl⟩
  refine .ite (fun _ => ?_) fun _ => ?_
  · exact .seq (freeproc_spec owes₂ noFiles noCwd) fun _ _ owes => .pure owes
  refine .seq (forkFiles_spec owes₂ busy noFiles noCwd) fun _ s₃ result => ?_
  obtain ⟨owes₃, busy₃, noCwd₃⟩ := result
  refine .bind (.get (.seq (onFs_keeps nonNull_keeps owes₃) ?_))
  rintro ip _ ⟨owes₄, fs₄, rfl⟩
  refine .seq (onFs_spec idup_takes owes₄) ?_
  rintro cwd _ ⟨owes₅, fs₅, rfl⟩
  -- the child takes over the reference to its directory
  have settled : Owes 0 { s₃ with
      fs := fs₅, proc := update s₃.proc np { s₃.proc np with cwd := some cwd } } := by
    refine (setCwd_owes owes₅ busy₃).congr ?_
    simp [noCwd₃]
  refine .bind (.of_modify (.bind (.get (.bind (.of_modify (.bind (.of_modify (.pure ?_))))))))
  refine (settled.keepProc ?_ ?_ ?_).keepProc ?_ ?_ ?_
  · simp [busy₃.1, busy₃.2]
  · rfl
  · rfl
  · simp
  · rfl
  · rfl

theorem exitFile_spec {fd : Fin lim.nofile} (owes : Owes 0 s) (busy : Busy s p) :
    Ensures Benign (exitFile p fd) s fun _ s' => Owes 0 s' ∧ Busy s' p ∧
      (s'.proc p).cwd = (s.proc p).cwd ∧
      (s'.proc p).ofile = update (s.proc p).ofile fd none := by
  refine .bind (.get ?_)
  split
  next unused =>
    exact .pure ⟨owes, busy, rfl, (update_eq_self_iff.mpr unused.symm).symm⟩
  next f slotted =>
    have live := owes.slot_open slotted le_rfl
    refine .seq (fileclose_spec owes live rfl) fun _ s₁ ⟨owes₁, frame⟩ => ?_
    have busy₁ := busy.congr frame.proc
    refine setOfile_spec.mono ?_
    rintro _ _ rfl
    refine ⟨(owes₁.withOfile busy₁ fd none).congr ?_, busy₁.withOfile, ?_, ?_⟩
    · simp [frame.proc, slotted]
    · simp [State.withOfile, frame.proc]
    · rw [withOfile_ofile, frame.proc]

theorem exitFiles_spec (owes : Owes 0 s) (busy : Busy s p) :
    Ensures Benign ((finRange lim.nofile).forM (exitFile p)) s fun _ s' =>
      (∀ fd, (s'.proc p).ofile fd = none) ∧ Owes 0 s' ∧ Busy s' p := by
  let inv (items : List (Fin lim.nofile)) (s : State lim) : Prop :=
    (∀ fd, fd ∉ items → (s.proc p).ofile fd = none) ∧ Owes 0 s ∧ Busy s p
  have start : inv (finRange lim.nofile) s :=
    ⟨fun fd absent => absurd (mem_finRange fd) absent, owes, busy⟩
  refine (Ensures.forM inv ?_ start).mono fun _ s' ⟨closed, rest⟩ =>
    ⟨fun fd => closed fd nofun, rest⟩
  rintro fd items s ⟨closed, owes, busy⟩
  refine (exitFile_spec owes busy).mono ?_
  rintro _ s' ⟨owes', busy', -, files⟩
  refine ⟨fun other absent => ?_, owes', busy'⟩
  rw [files]
  rcases eq_or_ne other fd with rfl | different
  · exact update_self ..
  · rw [update_of_ne different]
    exact closed other (by simp [different, absent])

theorem reparent_spec (owes : Owes owed s) :
    Ensures Benign (reparent p) s fun _ s' => Owes owed s' ∧
      (s'.proc p).ofile = (s.proc p).ofile ∧ (s'.proc p).cwd = (s.proc p).cwd := by
  refine .of_modify ⟨owes.keepProcs (fun q => ?_) (fun q => ?_) fun q => ?_, ?_, ?_⟩
  all_goals
    dsimp only
    split <;> rfl

theorem exit_settles {status : Int} (owes : Owes 0 s) (busy : Busy s p) :
    Settles (exit p status) s := by
  refine .bind (.get (.ite (fun _ => .throw (by decide)) fun _ => ?_))
  refine .seq (exitFiles_spec owes busy) fun _ s₁ ⟨noFiles, owes₁, busy₁⟩ => ?_
  refine .bind (.get (.seq (onFs_spec putFile_takes owes₁) ?_))
  rintro _ _ ⟨owes₂, fs, rfl⟩
  have settled : Owes 0 { s₁ with
      fs := fs, proc := update s₁.proc p { s₁.proc p with cwd := none } } := by
    refine (setCwd_owes owes₂ busy₁).congr ?_
    simp
  refine .bind (.of_modify (.seq (reparent_spec settled) ?_))
  rintro _ s₃ ⟨owes₃, files₃, cwd₃⟩
  refine .bind (.of_modify (.pure (owes₃.keepProc (fun _ => ⟨?_, ?_⟩) ?_ ?_)))
  · intro fd
    simpa [files₃] using noFiles fd
  · simp [cwd₃]
  · rfl
  · rfl

theorem wait_settles {addr : Nat} (owes : Owes 0 s) : Settles (wait p addr) s := by
  refine .bind (.get ?_)
  split
  next pp found =>
    have zombie : (s.proc pp).state = .zombie := by
      have := find?_some found
      simp only [decide_eq_true_eq] at this
      exact this.2
    obtain ⟨noFiles, noCwd⟩ := owes.sound.idle pp (.inr zombie)
    have copied : Ensures Benign (if addr ≠ 0 then onFs outcome else pure 1) s fun _ s' =>
        Owes 0 s' ∧ ∃ fs, s' = { s with fs := fs } :=
      .ite (fun _ => onFs_keeps outcome_keeps owes) fun _ => .pure ⟨owes, s.fs, rfl⟩
    refine .seq copied ?_
    rintro r _ ⟨owes₁, fs, rfl⟩
    refine .ite (fun _ => .pure owes₁) fun _ => ?_
    exact .seq (freeproc_spec owes₁ noFiles noCwd) fun _ _ owes => .pure owes
  next => exact .ite (fun _ => .pure owes) fun _ => .throw (by decide)

/-! ## Runs -/

theorem byProc_settles (call : Option (Fin lim.ninode) → FsM lim Int)
    (keeps : ∀ cwd, Keeps (call cwd)) (owes : Owes 0 s) : Settles (byProc p call) s :=
  .bind (.get ((onFs_keeps (keeps _) owes).mono fun _ _ => And.left))

theorem syscall_settles {call : Call} (owes : Owes 0 s) (busy : Busy s p) :
    Settles (syscall p call) s := by
  cases call with
  | fork => exact fork_settles owes
  | exit status => exact exit_settles owes busy
  | wait addr => exact wait_settles owes
  | «open» path omode =>
    cases path with
    | none => exact .pure owes
    | some path => exact sysOpen_settles owes busy
  | close fd => exact sysClose_settles owes busy
  | dup fd => exact sysDup_settles owes busy
  | pipe => exact sysPipe_settles owes busy
  | chdir path => exact sysChdir_settles owes busy
  | exec path =>
    cases path with
    | none => exact .pure owes
    | some path => exact byProc_settles (fun cwd => sysExec cwd path) (fun _ => sysExec_keeps) owes
  | read fd => exact sysRead_settles owes
  | write fd n => exact sysWrite_settles owes
  | link old new =>
    cases old with
    | none => exact .pure owes
    | some old =>
      cases new with
      | none => exact .pure owes
      | some new =>
        exact byProc_settles (fun cwd => sysLink cwd old new) (fun _ => sysLink_keeps) owes
  | unlink path =>
    cases path with
    | none => exact .pure owes
    | some path =>
      exact byProc_settles (fun cwd => sysUnlink cwd path) (fun _ => sysUnlink_keeps) owes
  | mkdir path => exact byProc_settles (fun cwd => sysMkdir cwd path) (fun _ => sysMkdir_keeps) owes
  | mknod path major minor =>
    exact byProc_settles (fun cwd => sysMknod cwd path major minor) (fun _ => sysMknod_keeps) owes

theorem execute_settles {label : Label lim} (owes : Owes 0 s)
    (running : (s.proc label.proc).state = .runnable) :
    (∀ s', execute s label = .next s' → Owes 0 s') ∧
      ∀ panic, execute s label = .fault panic → Benign panic := by
  have started : Owes 0 { s with fs := { s.fs with outcomes := label.outcomes } } :=
    Owes.congr (owes.setFs (add_zero (refs s.fs)).symm) (add_zero _)
  have busy : Busy s label.proc := by
    unfold Busy
    simp [running]
  have settles : Settles (syscall label.proc label.call) _ := syscall_settles started busy
  unfold execute
  refine ⟨fun s' moved => ?_, fun panic stopped => ?_⟩
  · split at moved
    next r s₁ run =>
      cases moved
      exact settles.of_ok run
    all_goals cases moved
  · split at stopped
    next => cases stopped
    next => cases stopped
    next panic' run =>
      cases stopped
      exact settles.of_error run

variable {image : Nat → Dinode}

theorem initial_owes (initial : Initial image s) : Owes 0 s := by
  obtain ⟨root, cwd, -, -, ref, -, unused⟩ := initial.root
  have slots : s.slots = fun _ => none := by
    funext ⟨p, fd⟩
    rcases eq_or_ne p s.initproc with rfl | other
    · exact initial.none fd
    · exact (initial.others p other).2.1 fd
  have cwds : (fun p => (s.proc p).cwd) = update (fun _ => none) s.initproc (some root) := by
    funext p
    rcases eq_or_ne p s.initproc with rfl | other
    · rw [update_self, cwd]
    · rw [update_of_ne other, (initial.others p other).2.2]
  have noInodes : (fun f => (s.file f).inode?) = fun _ => none := by
    funext f
    simp [File.inode?, initial.files f]
  have noEnds : (fun f => (s.file f).pipeEnd?) = fun _ => none := by
    funext f
    simp [File.pipeEnd?, initial.files f]
  refine ⟨⟨fun f _ => (initial.files f).2, fun p idle => ?_, ?_⟩, ?_⟩
  · rcases eq_or_ne p s.initproc with rfl | other
    · simp [initial.running] at idle
    · exact (initial.others p other).2
  · intro pi made
    rw [initial.pipes] at made
    exact absurd made (Nat.not_lt_zero _)
  · refine Prod.ext (funext fun f => ?_) (Prod.ext (funext fun ip => ?_) (funext fun side => ?_))
    · simp [debt, fileDebt, slots, (initial.files f).1]
    · simp only [debt, inodeDebt, noInodes, cwds, Count.tally_update, Count.tally_none]
      rcases eq_or_ne ip root with rfl | other
      · simp [refs, ref, Count.one_apply]
      · simp [refs, unused ip other, Count.one_apply, other]
    · simp [debt, pipeDebt, noEnds, initial.pipes]

theorem reachable_owes (reachable : (fileSystem lim image).Reachable s) :
    Owes 0 s := by
  refine TransitionSystem.Reachable.invariant (motive := Owes 0) (fun s => initial_owes) ?_
    reachable
  intro s label s' _ owes running moved
  exact (execute_settles owes running).1 s' moved

/-- Every count is the number of references, and every end of a pipe that is
open is open for a file. -/
structure Exact (s : State lim) : Prop where
  file : ∀ f, (s.file f).ref = (univ.filter fun slot : Fin lim.nproc × Fin lim.nofile =>
    (s.proc slot.1).ofile slot.2 = some f).card
  inode : ∀ ip, (s.fs.inode ip).ref =
    (univ.filter fun f => 0 < (s.file f).ref ∧
      ((s.file f).type = .inode ∨ (s.file f).type = .device) ∧ (s.file f).ip = some ip).card +
    (univ.filter fun p => (s.proc p).cwd = some ip).card
  readopen : ∀ pi < s.npipe, (s.pipe pi).readopen = true ↔ ∃ f, 0 < (s.file f).ref ∧
    (s.file f).type = .pipe ∧ (s.file f).pipe = pi ∧ (s.file f).writable = false
  writeopen : ∀ pi < s.npipe, (s.pipe pi).writeopen = true ↔ ∃ f, 0 < (s.file f).ref ∧
    (s.file f).type = .pipe ∧ (s.file f).pipe = pi ∧ (s.file f).writable = true
  freed : ∀ pi < s.npipe, (s.pipe pi).freed =
    if (s.pipe pi).readopen = false ∧ (s.pipe pi).writeopen = false then 1 else 0
  idle : ∀ p, (s.proc p).state = .unused ∨ (s.proc p).state = .zombie →
    (∀ fd, (s.proc p).ofile fd = none) ∧ (s.proc p).cwd = none
  openFiles : countOpenFiles s =
    (univ.filter fun f => ∃ p fd, (s.proc p).ofile fd = some f).card

theorem foldl_count {Item : Type} (test : Item → Prop) [DecidablePred test] (items : List Item)
    (count : Nat) :
    items.foldl (fun count item => if test item then count + 1 else count) count =
      count + (items.filter test).length := by
  induction items generalizing count with
  | nil => rfl
  | cons item items ih =>
    rw [foldl_cons, ih]
    by_cases holds : test item
    · simp [holds, Nat.add_assoc, Nat.add_comm]
    · simp [holds]

theorem countOpenFiles_eq :
    countOpenFiles s = (univ.filter fun f => 0 < (s.file f).ref).card := by
  rw [countOpenFiles, foldl_count fun f => 0 < (s.file f).ref, Nat.zero_add]
  rfl

theorem Owes.exact (owes : Owes 0 s) : Exact s := by
  have files : ∀ f, (s.file f).ref = tally s.slots f := fun f =>
    sub_eq_zero.mp (congrFun (congrArg Prod.fst owes.debt) f)
  have inodes : ∀ ip, refs s.fs ip = tally (fun f => (s.file f).inode?) ip +
      tally (fun p => (s.proc p).cwd) ip := fun ip => by
    have counted : inodeDebt s ip = 0 := congrFun (congrArg (fun d => d.2.1) owes.debt) ip
    unfold inodeDebt at counted
    omega
  have ends : ∀ pi < s.npipe, ∀ writable, (s.pipe pi).opened writable = true ↔
      ∃ f, (s.file f).pipeEnd? = some (pi, writable) := fun pi made writable => by
    have counted : pipeDebt s (pi, writable) = 0 :=
      congrFun (congrArg (fun d => d.2.2) owes.debt) (pi, writable)
    rw [← Count.tally_pos]
    unfold pipeDebt at counted
    split at counted
    next opened => exact ⟨fun _ => by omega, fun _ => opened.2⟩
    next closed => exact ⟨fun opened => absurd ⟨made, opened⟩ closed, fun _ => by omega⟩
  have isInode : ∀ f ip, (s.file f).inode? = some ip ↔ 0 < (s.file f).ref ∧
      ((s.file f).type = .inode ∨ (s.file f).type = .device) ∧ (s.file f).ip = some ip := by
    intro f ip
    unfold File.inode?
    split
    next live => simp [live]
    next dead =>
      simp only [reduceCtorEq, false_iff]
      tauto
  have isEnd : ∀ f pi writable, (s.file f).pipeEnd? = some (pi, writable) ↔ 0 < (s.file f).ref ∧
      (s.file f).type = .pipe ∧ (s.file f).pipe = pi ∧ (s.file f).writable = writable := by
    intro f pi writable
    unfold File.pipeEnd?
    split
    next live => simp [live]
    next dead =>
      simp only [reduceCtorEq, false_iff]
      tauto
  refine ⟨files, fun ip => ?_, fun pi made => ?_, fun pi made => ?_, fun pi made => ?_,
    owes.sound.idle, ?_⟩
  · refine (inodes ip).trans (congrArg₂ (· + ·) (congrArg Nat.cast (congrArg card ?_)) rfl)
    exact filter_congr fun f _ => isInode f ip
  · simpa only [isEnd] using! ends pi made false
  · simpa only [isEnd] using! ends pi made true
  · rw [owes.sound.freed pi made]
    cases (s.pipe pi).readopen <;> cases (s.pipe pi).writeopen <;> rfl
  · rw [countOpenFiles_eq]
    refine congrArg card (filter_congr fun f _ => ?_)
    rw [files, Count.tally_pos, Prod.exists]
    rfl

/-- Whatever calls processes make, in whatever order and with whatever outcome,
the counts are exact, and a file is never duplicated or closed that is not open. -/
theorem references_exact (reachable : (fileSystem lim image).Reachable s) :
    Exact s ∧ ∀ label, (fileSystem lim image).allowed s label →
      (fileSystem lim image).step s label ≠ .fault .filedup ∧
      (fileSystem lim image).step s label ≠ .fault .fileclose := by
  have owes := reachable_owes reachable
  refine ⟨owes.exact, fun label running => ⟨fun stopped => ?_, fun stopped => ?_⟩⟩
  · exact ((execute_settles owes running).2 _ stopped).1 rfl
  · exact ((execute_settles owes running).2 _ stopped).2 rfl

/-- The first process makes a file, a pipe and a child; then it closes the file
and the read end of the pipe. -/
def shareRun : List (Label .xv6) :=
  [⟨0, .open (some [slash, 97]) (oCreate ||| oRdwr), []⟩, ⟨0, .pipe, [1, 1]⟩, ⟨0, .fork, [1]⟩,
    ⟨0, .close 0, []⟩, ⟨0, .close 1, []⟩]

theorem references_exact_share : ∃ s, (fileSystem .xv6 emptyImage).Reachable s ∧
    (s.proc 1).state = .runnable ∧ (s.file 0).ref = 1 ∧ (s.file 2).ref = 2 ∧ Exact s := by
  obtain ⟨s, reachable, runnable, closed, shared⟩ := (fileSystem .xv6 emptyImage).exists_reachable
    (boot_initial emptyImage 0 0) shareRun (motive := fun s => (s.proc 1).state = .runnable ∧
      (s.file 0).ref = 1 ∧ (s.file 2).ref = 2) (by decide +kernel)
  exact ⟨s, reachable, runnable, closed, shared, (references_exact reachable).1⟩

end Xv6.Files
