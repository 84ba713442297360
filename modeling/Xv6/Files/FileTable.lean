import Xv6.Files.Debt

/-!
# The file table and the descriptors

What the functions of `kernel/file.c` and the allocation of pipes and
descriptors owe, and the calls that only use these.
-/

namespace Xv6.Files

open File
open Function
open Count (one perhaps tally perhaps_none perhaps_some perhaps_apply)
open Prog (Ensures)

variable {lim : Limits} {s s' s'' : State lim} {owed : Debt lim} {f g : Fin lim.nfile}
  {p : Fin lim.nproc}

/-! ## The file table -/

/-- Only files in `touched`, pipes and inodes changed. -/
structure OnFiles (touched : Set (Fin lim.nfile)) (s s' : State lim) : Prop where
  proc : s'.proc = s.proc
  initproc : s'.initproc = s.initproc
  others : ∀ g ∉ touched, s'.file g = s.file g

namespace OnFiles

variable {touched touched' : Set (Fin lim.nfile)}

theorem trans (first : OnFiles touched s s') (second : OnFiles touched s' s'') :
    OnFiles touched s s'' :=
  ⟨second.proc.trans first.proc, second.initproc.trans first.initproc,
    fun g outside => (second.others g outside).trans (first.others g outside)⟩

theorem mono (frame : OnFiles touched s s') (subset : touched ⊆ touched') : OnFiles touched' s s' :=
  ⟨frame.proc, frame.initproc, fun g outside => frame.others g fun inside =>
    outside (subset inside)⟩

theorem setFile {file : File lim} :
    OnFiles {f} s { s with file := update s.file f file } :=
  ⟨rfl, rfl, fun _ other => update_of_ne other file s.file⟩

end OnFiles

theorem onFs_spec {α : Type} {prog : FsM lim α} {taken : α → Fin lim.ninode → Int}
    (takes : Takes prog taken) (owes : Owes owed s) :
    Ensures Benign (onFs prog) s fun a s' => Owes (owed + (0, taken a, 0)) s' ∧
      ∃ fs, s' = { s with fs := fs } :=
  .onPart ((takes s.fs).mono fun _ fs moved => ⟨owes.setFs moved, fs, rfl⟩)

theorem onFs_keeps {α : Type} {prog : FsM lim α} (keeps : Keeps prog) (owes : Owes owed s) :
    Ensures Benign (onFs prog) s fun _ s' => Owes owed s' ∧ ∃ fs, s' = { s with fs := fs } :=
  (onFs_spec keeps owes).mono fun _ _ ⟨owes, same⟩ => ⟨owes.congr (add_zero owed), same⟩

theorem Owes.after {α β : Type} {prog : FsM lim α} {k : α → CallM lim β}
    {post : β → State lim → Prop} (owes : Owes owed s) (keeps : Keeps prog)
    (rest : ∀ a s', Owes owed s' → Ensures Benign (k a) s' post) :
    Ensures Benign (onFs prog >>= k) s post :=
  .seq (onFs_keeps keeps owes) fun a s' kept => rest a s' kept.1

theorem filealloc_spec (owes : Owes owed s) :
    Ensures Benign filealloc s fun r s' =>
      match r with
      | none => s' = s
      | some f => (s.file f).ref = 0 ∧ (s'.file f).ref = 1 ∧ (s'.file f).type = .none ∧
          Owes (owed + (one f, 0, 0)) s' ∧ OnFiles {f} s s' := by
  refine .bind (.get ?_)
  split
  next => exact .pure rfl
  next f found =>
    have unused : (s.file f).ref = 0 := by simpa using List.find?_some found
    have untyped : (s.file f).type = .none := owes.sound.closed f (by omega)
    refine .bind (.of_modify (.pure ?_))
    refine ⟨unused, ?_, ?_, ?_, .setFile⟩
    · simp
    · simpa using untyped
    · refine (owes.setFile (by simp)).congr ?_
      simp [unused, untyped, one, inode?, pipeEnd?]

theorem filedup_spec (owes : Owes owed s) (live : 1 ≤ (s.file f).ref) :
    Ensures Benign (filedup f) s fun r s' => r = f ∧ Owes (owed + (one f, 0, 0)) s' ∧
      OnFiles {f} s s' ∧ 1 ≤ (s'.file f).ref := by
  refine .bind (.get (.ite (fun few => by omega) fun _ => ?_))
  refine .bind (.of_modify (.pure ⟨rfl, ?_, .setFile, ?_⟩))
  · refine (owes.setFile (fun few => by simp at few; omega)).congr ?_
    have before : 0 < (s.file f).ref := by omega
    have after : 0 < (s.file f).ref + 1 := by omega
    simp [one, inode?, pipeEnd?, before, after]
  · simp only [update_self]
    omega

theorem pipeDebt_setPipe {pi : Nat} {pipe : Pipe} (side : Nat × Bool) :
    pipeDebt { s with pipe := update s.pipe pi pipe } side = pipeDebt s side +
      if side.1 = pi ∧ pi < s.npipe then
        (if pipe.opened side.2 then 1 else 0) - (if (s.pipe pi).opened side.2 then 1 else 0)
      else 0 := by
  rcases eq_or_ne side.1 pi with rfl | other
  · by_cases made : side.1 < s.npipe
    · simp only [pipeDebt, update_self, made, true_and, if_true, and_self]
      ring
    · simp only [pipeDebt, made, false_and, and_false, if_false, add_zero]
  · simp only [pipeDebt, update_of_ne other, other, false_and, if_false, add_zero]

/-- One end of a pipe is closed, and the page is freed with the second one. -/
theorem pipeclose_spec {pi : Nat} {writable : Bool} (owes : Owes owed s) (made : pi < s.npipe)
    (opened : (s.pipe pi).opened writable) :
    Ensures Benign (pipeclose pi writable) s fun _ s' =>
      Owes (owed - (0, 0, one (pi, writable))) s' ∧ OnFiles ∅ s s' := by
  have notFreed := owes.sound.freed pi made
  refine .bind (.get (.of_modify ⟨⟨⟨owes.sound.closed, owes.sound.idle, ?_⟩, ?_⟩,
    rfl, rfl, fun _ _ => rfl⟩))
  · intro other inside
    rcases eq_or_ne other pi with rfl | different
    · simp only [update_self]
      cases writable
      · cases h : (s.pipe other).writeopen <;> simp_all [Pipe.opened]
      · cases h : (s.pipe other).readopen <;> simp_all [Pipe.opened]
    · simpa only [update_of_ne different] using owes.sound.freed other inside
  · rw [← owes.debt]
    refine Prod.ext (sub_zero _).symm (Prod.ext (sub_zero _).symm (funext fun side => ?_))
    refine (pipeDebt_setPipe side).trans ?_
    change _ = pipeDebt s side - one (pi, writable) side
    rw [Count.one_apply]
    obtain ⟨other, end'⟩ := side
    by_cases same : other = pi
    · subst same
      cases writable <;> cases end' <;> simp_all [Pipe.opened, sub_eq_add_neg]
    · simp [same]

theorem putFile_takes {pointer : Option (Fin lim.ninode)} :
    Takes (do
      beginOp
      iput (← nonNull pointer)
      endOp) fun _ => -perhaps pointer := by
  refine .after beginOp_keeps fun _ => ?_
  cases pointer with
  | none => exact fun s => .throw (by decide)
  | some ip =>
    change Takes (iput ip >>= fun _ => endOp) fun _ => -one ip
    exact Takes.put (endOp_keeps.congr fun _ => (neg_add_cancel _).symm)

theorem fileclose_spec (owes : Owes owed s) (live : 1 ≤ (s.file f).ref) (settled : owed.2.2 = 0) :
    Ensures Benign (fileclose f) s fun _ s' => Owes (owed - (one f, 0, 0)) s' ∧
    OnFiles {f} s s' := by
  refine .bind (.get (.ite (fun few => by omega) fun _ => ?_))
  refine .ite (fun more => ?_) fun last => ?_
  · refine .of_modify ⟨(owes.setFile (fun few => by simp at few; omega)).congr ?_, .setFile⟩
    have before : 0 < (s.file f).ref := by omega
    have after : 1 < (s.file f).ref := by omega
    simp [one, inode?, pipeEnd?, before, after, Pi.single_neg, sub_eq_add_neg]
  have single : (s.file f).ref = 1 := by omega
  have closed : Owes (owed + (-one f, perhaps (s.file f).inode?, perhaps (s.file f).pipeEnd?))
      { s with file := update s.file f { s.file f with ref := 0, type := .none } } := by
    refine (owes.setFile (by simp)).congr ?_
    simp [one, inode?, pipeEnd?, single, Pi.single_neg]
  refine .bind (.of_modify ?_)
  split
  next isPipe =>
    -- the file was the only one at this end, so the end was open
    have isEnd : (s.file f).pipeEnd? = some ((s.file f).pipe, (s.file f).writable) := by
      simp [pipeEnd?, single, isPipe]
    have counted : pipeDebt s ((s.file f).pipe, (s.file f).writable) = 0 :=
      (congrFun (congrArg (fun d => d.2.2) owes.debt) _).trans (congrFun settled _)
    have positive : 0 <
      tally (fun f => (s.file f).pipeEnd?) ((s.file f).pipe, (s.file f).writable) :=
      Count.tally_pos.mpr ⟨f, isEnd⟩
    have opened : (s.file f).pipe < s.npipe ∧
        (s.pipe (s.file f).pipe).opened (s.file f).writable = true := by
      by_contra isClosed
      rw [pipeDebt, if_neg isClosed] at counted
      omega
    refine (pipeclose_spec closed opened.1 opened.2).mono ?_
    rintro _ s' ⟨owes', frame⟩
    refine ⟨owes'.congr ?_, OnFiles.trans .setFile (frame.mono (Set.empty_subset _))⟩
    simp [isEnd, inode?, isPipe, sub_eq_add_neg, add_assoc]
  next isNone =>
    refine .pure ⟨closed.congr ?_, .setFile⟩
    simp [inode?, pipeEnd?, isNone, sub_eq_add_neg]
  all_goals
    next isInode =>
      refine (onFs_spec putFile_takes closed).mono ?_
      rintro _ s' ⟨owes', fs, rfl⟩
      refine ⟨owes'.congr ?_, rfl, rfl, fun g other => update_of_ne other _ _⟩
      simp [inode?, pipeEnd?, isInode, single, sub_eq_add_neg, add_assoc]

theorem newPipe_owes (owes : Owes owed s) :
    Owes (owed + (0, 0, one (s.npipe, false) + one (s.npipe, true)))
      { s with npipe := s.npipe + 1, pipe := update s.pipe s.npipe ⟨true, true, 0⟩ } := by
  refine ⟨⟨owes.sound.closed, owes.sound.idle, fun pi made => ?_⟩, ?_⟩
  · rcases eq_or_ne pi s.npipe with rfl | other
    · simp
    · have before : pi < s.npipe := by
        change pi < s.npipe + 1 at made
        omega
      simpa only [update_of_ne other] using owes.sound.freed pi before
  · rw [← owes.debt]
    refine Prod.ext (add_zero _).symm (Prod.ext (add_zero _).symm (funext fun side => ?_))
    change (if side.1 < s.npipe + 1 ∧
      (update s.pipe s.npipe ⟨true, true, 0⟩ side.1).opened side.2 = true then 1 else 0) - _ =
      pipeDebt s side + (one (s.npipe, false) side + one (s.npipe, true) side)
    obtain ⟨pi, writable⟩ := side
    rcases eq_or_ne pi s.npipe with rfl | other
    · cases writable <;> simp [pipeDebt, Pipe.opened, Count.one_apply] <;> ring
    · have bound : pi < s.npipe + 1 ↔ pi < s.npipe := by omega
      simp [pipeDebt, Count.one_apply, other, bound]

theorem pipealloc_spec (owes : Owes owed s) (settled : owed.2.2 = 0) :
    Ensures Benign pipealloc s fun r s' => s'.proc = s.proc ∧
      match r with
      | none => Owes owed s'
      | some (f0, f1) => f0 ≠ f1 ∧ (s'.file f0).ref = 1 ∧ (s'.file f1).ref = 1 ∧
          Owes (owed + (one f0 + one f1, 0, 0)) s' := by
  refine .seq (filealloc_spec owes) fun first s₁ result => ?_
  rcases first with _ | f0
  · exact .pure ⟨result ▸ rfl, result ▸ owes⟩
  obtain ⟨-, ref0, type0, owes₁, frame₁⟩ := result
  refine .seq (filealloc_spec owes₁) fun second s₂ result => ?_
  rcases second with _ | f1
  · obtain rfl : s₂ = s₁ := result
    refine .seq (fileclose_spec owes₁ ref0.ge (by simp [settled])) fun _ s₃ result => ?_
    exact .pure ⟨result.2.proc.trans frame₁.proc, result.1.congr (add_sub_cancel_right _ _)⟩
  obtain ⟨unused, ref1, type1, owes₂, frame₂⟩ := result
  have different : f0 ≠ f1 := by
    rintro rfl
    omega
  rw [← frame₂.others f0 different] at ref0 type0
  refine .seq (onFs_keeps outcome_keeps owes₂) ?_
  rintro page s₃ ⟨owes₃, fs, same⟩
  subst same
  refine .ite (fun _ => ?_) fun _ => ?_
  · refine .seq (fileclose_spec owes₃ ref0.ge (by simp [settled])) fun _ s₄ result₄ => ?_
    refine .seq (fileclose_spec result₄.1 ?_ (by simp [settled])) fun _ s₅ result₅ => ?_
    · rw [result₄.2.others f1 different.symm]
      exact ref1.ge
    refine .pure ⟨?_, result₅.1.congr ?_⟩
    · rw [result₅.2.proc, result₄.2.proc]
      exact frame₂.proc.trans frame₁.proc
    · abel
  · refine .bind (.get (.bind (.of_modify ?_)))
    refine .bind (.of_modify (.bind (.of_modify (.pure ?_))))
    refine ⟨frame₂.proc.trans frame₁.proc, different, ?_, ?_, ?_⟩
    · simpa [update_of_ne different] using ref0
    · simpa [update_of_ne different.symm] using ref1
    -- the pipe is open at both ends, and each file takes one of them
    refine (((newPipe_owes owes₃).setFile ?_).setFile ?_).congr ?_
    · simp [ref0]
    · simp [ref1, update_of_ne different.symm]
    · simp [inode?, pipeEnd?, ref0, type0, ref1, type1, update_of_ne different.symm, add_assoc]

/-! ## Descriptors -/

def State.withOfile (s : State lim) (p : Fin lim.nproc) (fd : Fin lim.nofile)
    (new : Option (Fin lim.nfile)) : State lim :=
  { s with proc := (update s.proc p
    { s.proc p with ofile := update (s.proc p).ofile fd new }) }

def Busy (s : State lim) (p : Fin lim.nproc) : Prop :=
  (s.proc p).state ≠ .unused ∧ (s.proc p).state ≠ .zombie

section Descriptors

variable {fd : Fin lim.nofile} {new : Option (Fin lim.nfile)}

theorem Busy.congr (busy : Busy s p) (same : s'.proc = s.proc) : Busy s' p := by
  unfold Busy
  rwa [same]

theorem Busy.withOfile (busy : Busy s p) : Busy (s.withOfile p fd new) p := by
  unfold Busy State.withOfile at *
  simpa using busy

theorem withOfile_ofile :
    ((s.withOfile p fd new).proc p).ofile = update (s.proc p).ofile fd new := by
  simp [State.withOfile]

theorem Owes.withOfile (owes : Owes owed s) (busy : Busy s p) (fd : Fin lim.nofile)
    (new : Option (Fin lim.nfile)) :
    Owes (owed + (perhaps ((s.proc p).ofile fd) - perhaps new, 0, 0)) (s.withOfile p fd new) := by
  refine owes.setProc ?_ ?_
  · rintro (unused | zombie)
    · exact absurd unused busy.1
    · exact absurd zombie busy.2
  · rw [debt_setOfile, owes.debt]

theorem setOfile_spec :
    Ensures Benign (setOfile p fd new) s fun _ s' => s' = s.withOfile p fd new :=
  .of_modify rfl

variable {number : Int}

theorem argfd_spec :
    Ensures Benign (argfd p number) s fun r s' => s' = s ∧
      ∀ slot f, r = some (slot, f) → (s.proc p).ofile slot = some f := by
  refine .bind (.get ?_)
  split
  next bound =>
    refine .pure ⟨rfl, fun slot f found => ?_⟩
    obtain ⟨f', slotted, same⟩ := Option.map_eq_some_iff.mp found
    cases same
    exact slotted
  next => exact .pure ⟨rfl, nofun⟩

theorem fdalloc_spec :
    Ensures Benign (fdalloc p f) s fun r s' =>
      match r with
      | none => s' = s
      | some fd => (s.proc p).ofile fd = none ∧ s' = s.withOfile p fd (some f) := by
  refine .bind (.get ?_)
  dsimp only
  split
  next => exact .pure rfl
  next fd found =>
    have unused : (s.proc p).ofile fd = none := by simpa using List.find?_some found
    exact .seq setOfile_spec fun _ s' same => .pure ⟨unused, same⟩

abbrev Settles {α : Type} (prog : CallM lim α) (s : State lim) : Prop :=
  Ensures Benign prog s fun _ s' => Owes 0 s'

theorem sysDup_settles (owes : Owes 0 s) (busy : Busy s p) :
    Settles (sysDup p number) s := by
  refine .seq argfd_spec ?_
  rintro (_ | ⟨slot, f⟩) s' ⟨rfl, found⟩
  · exact .pure owes
  have live := owes.slot_open (found slot f rfl) le_rfl
  refine .seq fdalloc_spec ?_
  rintro (_ | fd) s'' result
  · exact .pure (result ▸ owes)
  obtain ⟨unused, rfl⟩ := result
  refine .seq (filedup_spec (owes.withOfile busy fd (some f)) live) fun _ s'' result => ?_
  exact .pure (result.2.1.congr (by simp [unused]))

theorem sysClose_settles (owes : Owes 0 s) (busy : Busy s p) :
    Settles (sysClose p number) s := by
  refine .seq argfd_spec ?_
  rintro (_ | ⟨slot, f⟩) s' ⟨rfl, found⟩
  · exact .pure owes
  have slotted := found slot f rfl
  have live := owes.slot_open slotted le_rfl
  refine .seq setOfile_spec ?_
  rintro _ s'' rfl
  refine .seq (fileclose_spec (owes.withOfile busy slot none) live rfl) fun _ s'' result => ?_
  exact .pure (result.1.congr (by simp [slotted]))

theorem sysPipe_settles (owes : Owes 0 s) (busy : Busy s p) : Settles (sysPipe p) s := by
  refine .seq (pipealloc_spec owes rfl) ?_
  rintro (_ | ⟨rf, wf⟩) s₁ ⟨proc, result⟩
  · exact .pure result
  obtain ⟨different, ref0, ref1, owes₁⟩ := result
  have busy₁ : Busy s₁ p := busy.congr proc
  -- both files are closed again, whatever happened to the descriptors
  have undo : ∀ {s₂ : State lim} {owed : Debt lim}, Owes owed s₂ → s₂.file = s₁.file →
      owed = (one rf + one wf, 0, 0) → Settles (do
        fileclose rf
        fileclose wf
        return (-1 : Int)) s₂ := by
    intro s₂ owed owes₂ files owing
    subst owing
    refine .seq (fileclose_spec owes₂ (files ▸ ref0.ge) rfl) fun _ s₃ closed => ?_
    refine .seq (fileclose_spec closed.1 ?_ (by simp)) fun _ s₄ closed => ?_
    · rw [closed.2.others wf different.symm, files]
      exact ref1.ge
    · exact .pure (closed.1.congr (by simp))
  refine .seq fdalloc_spec ?_
  rintro (_ | fd0) s₂ result
  · obtain rfl : s₂ = s₁ := result
    exact undo owes₁ rfl (zero_add _)
  obtain ⟨unused0, rfl⟩ := result
  have owes₂ := owes₁.withOfile busy₁ fd0 (some rf)
  refine .seq fdalloc_spec ?_
  rintro (_ | fd1) s₃ result
  · obtain rfl : s₃ = s₁.withOfile p fd0 (some rf) := result
    refine .seq setOfile_spec ?_
    rintro _ s₄ rfl
    refine undo (owes₂.withOfile busy₁.withOfile fd0 none) rfl ?_
    simp [unused0, withOfile_ofile, add_comm]
  obtain ⟨unused1, rfl⟩ := result
  have owes₃ := owes₂.withOfile busy₁.withOfile fd1 (some wf)
  have apart : fd0 ≠ fd1 := by
    rintro rfl
    simp [withOfile_ofile] at unused1
  refine .seq (onFs_keeps outcome_keeps owes₃) ?_
  rintro copied s₄ ⟨owes₄, fs, same⟩
  subst same
  refine .ite (fun _ => ?_) fun _ => .pure (owes₄.congr ?_)
  · refine .seq setOfile_spec ?_
    rintro _ s₅ rfl
    refine .seq setOfile_spec ?_
    rintro _ s₆ rfl
    refine undo ((owes₄.withOfile busy₁.withOfile.withOfile fd0 none).withOfile
      busy₁.withOfile.withOfile.withOfile fd1 none) rfl ?_
    have unused1' : (s₁.proc p).ofile fd1 = none := by
      simpa [withOfile_ofile, update_of_ne apart.symm] using unused1
    simp [unused0, unused1', State.withOfile, apart, apart.symm]
  · simp [unused0, unused1, sub_eq_add_neg, add_assoc]

end Descriptors

end Xv6.Files
