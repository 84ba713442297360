import Xv6.Files.References

/-!
# References that are owed

A count and the references it counts differ while a call is under way. `debt` is
the difference, for files, inodes and ends of pipes; every assignment of a call
moves it by a known amount. At the boundaries of calls nothing is owed.
-/

namespace Xv6.Files

open Function
open Count (one perhaps tally tally_update perhaps_none perhaps_some)
open Prog (Ensures)

variable {lim : Limits} {s s' : State lim}

def File.inode? (file : File lim) : Option (Fin lim.ninode) :=
  if 0 < file.ref ∧ (file.type = .inode ∨ file.type = .device) then file.ip else none

/-- The pipe that an open file belongs to, and whether the file writes to it. -/
def File.pipeEnd? (file : File lim) : Option (Nat × Bool) :=
  if 0 < file.ref ∧ file.type = .pipe then some (file.pipe, file.writable) else none

def Pipe.opened (pipe : Pipe) (writable : Bool) : Bool :=
  if writable then pipe.writeopen else pipe.readopen

def State.slots (s : State lim) (slot : Fin lim.nproc × Fin lim.nofile) : Option (Fin lim.nfile) :=
  (s.proc slot.1).ofile slot.2

abbrev Debt (lim : Limits) :=
  (Fin lim.nfile → Int) × (Fin lim.ninode → Int) × (Nat × Bool → Int)

def fileDebt (s : State lim) (f : Fin lim.nfile) : Int := (s.file f).ref - tally s.slots f

def inodeDebt (s : State lim) (ip : Fin lim.ninode) : Int :=
  refs s.fs ip - tally (fun f => (s.file f).inode?) ip - tally (fun p => (s.proc p).cwd) ip

def pipeDebt (s : State lim) (side : Nat × Bool) : Int :=
  (if side.1 < s.npipe ∧ (s.pipe side.1).opened side.2 then 1 else 0) -
    tally (fun f => (s.file f).pipeEnd?) side

def debt (s : State lim) : Debt lim := (fileDebt s, inodeDebt s, pipeDebt s)

/-! ## What an assignment does -/

theorem debt_setFs (fs : Fs lim) :
    debt { s with fs := fs } = debt s + (0, refs fs - refs s.fs, 0) := by
  refine Prod.ext ?_ (Prod.ext (funext fun ip => ?_) ?_)
  · exact (add_zero _).symm
  · simp only [debt, inodeDebt, Prod.snd_add, Prod.fst_add, Pi.add_apply, Pi.sub_apply]
    ring
  · exact (add_zero _).symm

theorem tally_setFile {Item : Type} [DecidableEq Item] (view : File lim → Option Item)
    (f : Fin lim.nfile) (file : File lim) :
    tally (fun g => view (update s.file f file g)) =
      tally (fun g => view (s.file g)) - perhaps (view (s.file f)) + perhaps (view file) := by
  rw [← tally_update (fun g => view (s.file g)) f (view file)]
  congr 1
  exact comp_update view s.file f file

theorem debt_setFile (f : Fin lim.nfile) (file : File lim) :
    debt { s with file := update s.file f file } = debt s +
      (Pi.single f (file.ref - (s.file f).ref), perhaps (s.file f).inode? - perhaps file.inode?,
        perhaps (s.file f).pipeEnd? - perhaps file.pipeEnd?) := by
  refine Prod.ext (funext fun g => ?_) (Prod.ext (funext fun ip => ?_) (funext fun side => ?_))
  · change (update s.file f file g).ref - tally s.slots g = (s.file g).ref - tally s.slots g +
        (Pi.single f (file.ref - (s.file f).ref) : Fin lim.nfile → Int) g
    rcases eq_or_ne g f with rfl | other
    · rw [update_self, Pi.single_eq_same]
      ring
    · rw [update_of_ne other, Pi.single_eq_of_ne other, add_zero]
  · simp only [debt, inodeDebt, Prod.snd_add, Prod.fst_add, Pi.add_apply, Pi.sub_apply,
      tally_setFile File.inode?]
    ring
  · simp only [debt, pipeDebt, Prod.snd_add, Pi.add_apply, Pi.sub_apply,
      tally_setFile File.pipeEnd?]
    ring

variable {proc : Fin lim.nproc → Process lim}

theorem debt_setProcs
    (files : ∀ q, (proc q).ofile = (s.proc q).ofile) (cwds : ∀ q, (proc q).cwd = (s.proc q).cwd) :
    debt { s with proc := proc } = debt s := by
  have slots : State.slots { s with proc := proc } = s.slots :=
    funext fun ⟨q, fd⟩ => congrFun (files q) fd
  have dirs : (fun q => (proc q).cwd) = fun q => (s.proc q).cwd := funext cwds
  refine Prod.ext (funext fun f => ?_) (Prod.ext (funext fun ip => ?_) rfl)
  · simp only [debt, fileDebt, slots]
  · simp only [debt, inodeDebt, dirs]

theorem debt_setOfile (p : Fin lim.nproc) (fd : Fin lim.nofile) (new : Option (Fin lim.nfile)) :
    debt { s with proc := (update s.proc p
        { s.proc p with ofile := update (s.proc p).ofile fd new }) } =
      debt s + (perhaps ((s.proc p).ofile fd) - perhaps new, 0, 0) := by
  have slots : State.slots { s with proc := (update s.proc p
      { s.proc p with ofile := update (s.proc p).ofile fd new }) } =
      update s.slots (p, fd) new := by
    funext ⟨q, other⟩
    by_cases same : q = p
    · subst same
      by_cases same : other = fd
      · subst same
        simp [State.slots]
      · simp [State.slots, same]
    · simp [State.slots, same]
  have cwds : (fun q => (update s.proc p
      { s.proc p with ofile := update (s.proc p).ofile fd new } q).cwd) =
      fun q => (s.proc q).cwd := by
    funext q
    rcases eq_or_ne q p with rfl | other
    · simp
    · simp [update_of_ne other]
  refine Prod.ext (funext fun f => ?_) (Prod.ext (funext fun ip => ?_) ?_)
  · simp only [debt, fileDebt, slots, tally_update, Prod.fst_add, Pi.add_apply, Pi.sub_apply]
    change _ - (_ - perhaps ((s.proc p).ofile fd) f + _) = _
    ring
  · simp only [debt, inodeDebt, cwds, Prod.snd_add, Prod.fst_add, Pi.add_apply, Pi.zero_apply,
      add_zero]
  · exact (add_zero _).symm

theorem debt_setCwd (p : Fin lim.nproc) (new : Option (Fin lim.ninode)) :
    debt { s with proc := update s.proc p { s.proc p with cwd := new } } =
      debt s + (0, perhaps (s.proc p).cwd - perhaps new, 0) := by
  have slots : State.slots { s with proc := update s.proc p { s.proc p with cwd := new } } =
      s.slots := by
    funext ⟨q, fd⟩
    rcases eq_or_ne q p with rfl | other
    · simp [State.slots]
    · simp [State.slots, update_of_ne other]
  have cwds : (fun q => (update s.proc p { s.proc p with cwd := new } q).cwd) =
      update (fun q => (s.proc q).cwd) p new :=
    comp_update Process.cwd s.proc p { s.proc p with cwd := new }
  refine Prod.ext (funext fun f => ?_) (Prod.ext (funext fun ip => ?_) ?_)
  · simp only [debt, fileDebt, slots, Prod.fst_add, Pi.add_apply, Pi.zero_apply, add_zero]
  · simp only [debt, inodeDebt, cwds, tally_update, Prod.snd_add, Prod.fst_add, Pi.add_apply,
      Pi.sub_apply]
    ring
  · exact (add_zero _).symm

/-! ## Soundness -/

/-- What holds besides the counts. -/
structure Sound (s : State lim) : Prop where
  closed : ∀ f, (s.file f).ref < 1 → (s.file f).type = .none
  idle : ∀ p, (s.proc p).state = .unused ∨ (s.proc p).state = .zombie →
    (∀ fd, (s.proc p).ofile fd = none) ∧ (s.proc p).cwd = none
  freed : ∀ pi < s.npipe, (s.pipe pi).freed =
    if (s.pipe pi).readopen ∨ (s.pipe pi).writeopen then 0 else 1

/-- The state is sound and owes what `owed` says. -/
structure Owes (owed : Debt lim) (s : State lim) : Prop where
  sound : Sound s
  debt : debt s = owed

namespace Owes

variable {owed owed' : Debt lim} {f : Fin lim.nfile} {p : Fin lim.nproc}

section

variable (owes : Owes owed s)

include owes

theorem congr (same : owed = owed') : Owes owed' s := same ▸ owes

theorem setFs {fs : Fs lim} {taken : Fin lim.ninode → Int} (moved : refs fs = refs s.fs + taken) :
    Owes (owed + (0, taken, 0)) { s with fs := fs } := by
  refine ⟨⟨owes.sound.closed, owes.sound.idle, owes.sound.freed⟩, ?_⟩
  rw [debt_setFs, owes.debt, moved, add_sub_cancel_left]

theorem setFile {file : File lim} (closed : file.ref < 1 → file.type = .none) :
    Owes (owed + (Pi.single f (file.ref - (s.file f).ref),
        perhaps (s.file f).inode? - perhaps file.inode?,
        perhaps (s.file f).pipeEnd? - perhaps file.pipeEnd?))
      { s with file := update s.file f file } := by
  refine ⟨⟨fun g few => ?_, owes.sound.idle, owes.sound.freed⟩, ?_⟩
  · change (update s.file f file g).type = .none
    change (update s.file f file g).ref < 1 at few
    rcases eq_or_ne g f with rfl | other
    · rw [update_self] at few ⊢
      exact closed few
    · rw [update_of_ne other] at few ⊢
      exact owes.sound.closed g few
  · rw [debt_setFile, owes.debt]

theorem setProc {proc : Process lim}
    (idle : proc.state = .unused ∨ proc.state = .zombie → (∀ fd, proc.ofile fd = none) ∧
      proc.cwd = none)
    (moved : Files.debt { s with proc := update s.proc p proc } = owed') :
    Owes owed' { s with proc := update s.proc p proc } := by
  refine ⟨⟨owes.sound.closed, fun q => ?_, owes.sound.freed⟩, moved⟩
  change (update s.proc p proc q).state = .unused ∨ (update s.proc p proc q).state = .zombie → _
  rcases eq_or_ne q p with rfl | other
  · simpa only [update_self] using idle
  · simpa only [update_of_ne other] using owes.sound.idle q

theorem keepProc {proc : Process lim}
    (idle : proc.state = .unused ∨ proc.state = .zombie → (∀ fd, proc.ofile fd = none) ∧
      proc.cwd = none)
    (files : proc.ofile = (s.proc p).ofile) (cwd : proc.cwd = (s.proc p).cwd) :
    Owes owed { s with proc := update s.proc p proc } := by
  refine owes.setProc idle ((debt_setProcs (fun q => ?_) fun q => ?_).trans owes.debt)
  · rcases eq_or_ne q p with rfl | other
    · rw [update_self, files]
    · rw [update_of_ne other]
  · rcases eq_or_ne q p with rfl | other
    · rw [update_self, cwd]
    · rw [update_of_ne other]

theorem keepProcs (states : ∀ q, (proc q).state = (s.proc q).state)
    (files : ∀ q, (proc q).ofile = (s.proc q).ofile) (cwds : ∀ q, (proc q).cwd = (s.proc q).cwd) :
    Owes owed { s with proc := proc } := by
  refine ⟨⟨owes.sound.closed, fun q => ?_, owes.sound.freed⟩,
    (debt_setProcs files cwds).trans owes.debt⟩
  change (proc q).state = .unused ∨ (proc q).state = .zombie →
    (∀ fd, (proc q).ofile fd = none) ∧ (proc q).cwd = none
  rw [states, files, cwds]
  exact owes.sound.idle q

theorem slot_open {fd : Fin lim.nofile} (slot : (s.proc p).ofile fd = some f)
    (owed_nonneg : 0 ≤ owed.1 f) : 1 ≤ (s.file f).ref := by
  have counted : fileDebt s f = owed.1 f := congrFun (congrArg Prod.fst owes.debt) f
  have positive : 0 < tally s.slots f := Count.tally_pos.mpr ⟨(p, fd), slot⟩
  unfold fileDebt at counted
  omega

end

end Owes

end Xv6.Files
