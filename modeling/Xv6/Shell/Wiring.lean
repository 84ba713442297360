import Xv6.Shell.Language
import Xv6.Shell.Run

/-!
# Pipelines are wired as written

Each `exec` of a command happens with the descriptors 0, 1 and 2, where 0 and 1
come from the innermost level of the command that says something about them. A
process that waits, runs a part of a command or `exec`s has the write end of a
pipe only if it is on the left side of that pipe.
-/

namespace Xv6.Shell

open Function
open List

/-! ## Parts of a command -/

/-- Only standard input and output are redirected. -/
def Cmd.Standard : Cmd → Prop
  | .exec _ => True
  | .redir cmd target => (target.fd = 0 ∨ target.fd = 1) ∧ cmd.Standard
  | .pipe left right => left.Standard ∧ right.Standard
  | .list left right => left.Standard ∧ right.Standard
  | .back cmd => cmd.Standard

/-- The whole command, from a part and the levels above it, the innermost first. -/
def plug : List Frame → Cmd → Cmd
  | [], cmd => cmd
  | .redir target :: around, cmd => plug around (.redir cmd target)
  | .pipeLeft _ right :: around, cmd => plug around (.pipe cmd right)
  | .pipeRight _ left :: around, cmd => plug around (.pipe left cmd)
  | .listLeft right :: around, cmd => plug around (.list cmd right)
  | .listRight left :: around, cmd => plug around (.list left cmd)
  | .back :: around, cmd => plug around (.back cmd)

def Frame.input : Frame → Option Desc
  | .redir target => if target.fd = 0 then some (.file target) else none
  | .pipeRight pipe _ => some (.readEnd pipe)
  | _ => none

def Frame.output : Frame → Option Desc
  | .redir target => if target.fd = 1 then some (.file target) else none
  | .pipeLeft pipe _ => some (.writeEnd pipe)
  | _ => none

/-- The innermost level that says something about descriptor 0 decides. -/
def stdin (around : List Frame) : Desc := (around.findSome? Frame.input).getD (.original 0)

def stdout (around : List Frame) : Desc := (around.findSome? Frame.output).getD (.original 1)

def wired (around : List Frame) : Ofile := threeOpen (stdin around) (stdout around) (.original 2)

/-- A part of the left side of the pipe. -/
def OnLeft (pipe : Nat) (around : List Frame) : Prop := ∃ right, .pipeLeft pipe right ∈ around

/-- Where in the command a process is that is about to wait, to run a part of the
command or to `exec`, or that has `exec`ed. -/
def Process.settled? (p : Process) : Option (List Frame) :=
  match p.control with
  | .shell (.wait _) => some p.around
  | .shell (.exec _ _) => some p.around
  | .shell (.runcmd around _) => some around
  | .program => some p.around
  | _ => none

variable {root cmd : Cmd} {around : List Frame} {s s' : State} {ofile : Ofile}

/-! ## The parser redirects standard input and output only -/

theorem standard_back {amps : Nat} (standard : cmd.Standard) : (Cmd.back^[amps] cmd).Standard := by
  induction amps generalizing cmd with
  | zero => exact standard
  | succ amps ih => exact ih standard

variable {redirs : List Redir}

theorem standard_wrap (standard : cmd.Standard)
    (fds : ∀ redir ∈ redirs, redir.fd = 0 ∨ redir.fd = 1) : (wrap cmd redirs).Standard := by
  induction redirs generalizing cmd with
  | nil => exact standard
  | cons redir redirs ih =>
    apply ih
    · exact ⟨fds redir mem_cons_self, standard⟩
    · intro other member
      exact fds other (mem_cons_of_mem _ member)

variable {ts : List Token}

theorem Redirs.fds (derives : Redirs ts redirs) :
    ∀ redir ∈ redirs, redir.fd = 0 ∨ redir.fd = 1 := by
  induction derives with
  | nil => simp
  | @cons op q e redir ts redirs made _ ih =>
    have fd : redir.fd = 0 ∨ redir.fd = 1 := by
      cases op with
      | lt => cases made; exact .inl rfl
      | gt | append => cases made; exact .inr rfl
      | _ => cases made
    intro other member
    rcases mem_cons.mp member with rfl | later
    · exact fd
    · exact ih other later

variable {argv : List (Nat × Nat)}

theorem Args.fds (derives : Args ts argv redirs) :
    ∀ redir ∈ redirs, redir.fd = 0 ∨ redir.fd = 1 := by
  induction derives with
  | nil => simp
  | cons redirs _ ih =>
    intro redir member
    rcases mem_append.mp member with first | later
    · exact redirs.fds redir first
    · exact ih redir later

theorem Derives.standard {symbol : Nonterminal} (derives : Derives symbol ts cmd) :
    cmd.Standard := by
  induction derives with
  | line amps _ ih => exact standard_back ih
  | list amps _ _ ih ih' => exact ⟨standard_back ih, ih'⟩
  | single _ ih => exact ih
  | pipe _ _ ih ih' => exact ⟨ih, ih'⟩
  | block _ redirs ih => exact standard_wrap ih redirs.fds
  | simple redirs args _ =>
    apply standard_wrap
    · exact trivial
    · intro redir member
      rcases mem_append.mp member with first | later
      · exact redirs.fds redir first
      · exact args.fds redir later

/-! ## One process -/

/-- Write ends are those of pipes on whose left side the process is. -/
def LeftOnly (around : List Frame) (ofile : Ofile) : Prop :=
  ∀ pipe, some (.writeEnd pipe) ∈ ofile → OnLeft pipe around

/-- The rest of a process keeps to the wiring when it starts with the descriptors
`ofile`. -/
def Prog.Safe (root : Cmd) (around : List Frame) : Prog → Ofile → Prop
  | .close fd next, ofile => next.Safe root around (sysClose fd ofile)
  | .dup fd next, ofile => next.Safe root around (sysDup fd ofile)
  | .openFile target next, ofile => (next none).Safe root around ofile ∧
      ∀ fd ofile', fdalloc (.file target) ofile = some (fd, ofile') →
        (next (some fd)).Safe root around ofile'
  | .pipe next, ofile => (next none).Safe root around ofile ∧
      ∀ made fd0 fd1 ofile', sysPipe made ofile = some ((fd0, fd1), ofile') →
        (next (some (made, fd0, fd1))).Safe root around ofile'
  | .fork next, ofile => ∀ forked, (next forked).Safe root around ofile
  | .wait next, ofile => LeftOnly around ofile ∧ next.Safe root around ofile
  | .exec argv next, ofile => plug around (.exec argv) = root ∧ ofile = wired around ∧
      next.Safe root around ofile
  | .exit _, _ => True
  | .runcmd around' cmd, ofile => plug around' cmd = root ∧ cmd.Standard ∧ ofile = wired around'

variable {pipe : Nat}

theorem input_not_writeEnd {frame : Frame} : frame.input ≠ some (.writeEnd pipe) := by
  cases frame with
  | redir target =>
    change (if target.fd = 0 then some (Desc.file target) else none) ≠ _
    split_ifs <;> simp
  | _ => simp [Frame.input]

theorem output_writeEnd {frame : Frame} (output : frame.output = some (.writeEnd pipe)) :
    ∃ right, frame = .pipeLeft pipe right := by
  cases frame with
  | redir target =>
    change (if target.fd = 1 then some (Desc.file target) else none) = _ at output
    split_ifs at output
    cases output
  | pipeLeft made right =>
    cases output
    exact ⟨right, rfl⟩
  | _ => cases output

theorem stdin_ne_writeEnd : stdin around ≠ .writeEnd pipe := by
  unfold stdin
  cases found : around.findSome? Frame.input with
  | none => simp
  | some f =>
    obtain ⟨frame, -, gives⟩ := exists_of_findSome?_eq_some found
    rintro rfl
    exact input_not_writeEnd gives

theorem stdout_writeEnd (isEnd : stdout around = .writeEnd pipe) :
    OnLeft pipe around := by
  unfold stdout at isEnd
  cases found : around.findSome? Frame.output with
  | none => simp [found] at isEnd
  | some f =>
    obtain ⟨frame, member, gives⟩ := exists_of_findSome?_eq_some found
    rw [found] at isEnd
    cases isEnd
    obtain ⟨right, rfl⟩ := output_writeEnd gives
    exact ⟨right, member⟩

theorem wired_leftOnly : LeftOnly around (wired around) := by
  intro pipe member
  simp only [wired, threeOpen, nofile, mem_append, mem_cons, Option.some.injEq,
    mem_replicate] at member
  rcases member with (isStdin | isStdout | isStderr | none) | ⟨-, absent⟩
  · exact absurd isStdin.symm stdin_ne_writeEnd
  · exact stdout_writeEnd isStdout.symm
  · cases isStderr
  · cases none
  · cases absent

theorem fork1_safe {child parent : Prog} (childSafe : child.Safe root around ofile)
    (parentSafe : parent.Safe root around ofile) : (fork1 child parent).Safe root around ofile
  | .failed => trivial
  | .child => childSafe
  | .parent => parentSafe

/-- `close` and `open` put the file on the descriptor of the redirection. -/
theorem redir_wired {target : Redir} {fd : Nat} {ofile' : Ofile}
    (standard : target.fd = 0 ∨ target.fd = 1)
    (opened : fdalloc (.file target) (sysClose target.fd (wired around)) = some (fd, ofile')) :
    ofile' = wired (.redir target :: around) := by
  rcases standard with isInput | isOutput
  · rw [isInput] at opened
    have out : stdout (.redir target :: around) = stdout around := by
      simp [stdout, Frame.output, isInput]
    have inp : stdin (.redir target :: around) = .file target := by
      simp [stdin, Frame.input, isInput]
    rw [wired, out, inp]
    cases opened
    rfl
  · rw [isOutput] at opened
    have out : stdout (.redir target :: around) = .file target := by
      simp [stdout, Frame.output, isOutput]
    have inp : stdin (.redir target :: around) = stdin around := by
      simp [stdin, Frame.input, isOutput]
    rw [wired, out, inp]
    cases opened
    rfl

theorem runcmd_safe (place : plug around cmd = root) (standard : cmd.Standard) :
    (runcmd around cmd).Safe root around (wired around) := by
  cases cmd with
  | exec argv =>
    cases argv with
    | nil => exact trivial
    | cons arg argv => exact ⟨place, rfl, trivial⟩
  | redir cmd target =>
    refine ⟨trivial, fun fd ofile' opened => ?_⟩
    exact ⟨place, standard.2, redir_wired standard.1 opened⟩
  | list left right =>
    apply fork1_safe
    · exact ⟨place, standard.1, rfl⟩
    · exact ⟨wired_leftOnly, place, standard.2, rfl⟩
  | pipe left right =>
    refine ⟨trivial, fun made fd0 fd1 ofile' piped => ?_⟩
    -- 3 and 4 are the lowest free descriptors
    cases piped
    apply fork1_safe
    · exact ⟨place, standard.1, rfl⟩
    · apply fork1_safe
      · exact ⟨place, standard.2, rfl⟩
      · exact ⟨wired_leftOnly, wired_leftOnly, trivial⟩
  | back cmd =>
    apply fork1_safe
    · exact ⟨place, standard, rfl⟩
    · exact trivial

/-! ## All processes -/

def Process.Safe (root : Cmd) (p : Process) : Prop :=
  match p.control with
  | .shell prog => prog.Safe root p.around p.ofile
  | .program => LeftOnly p.around p.ofile
  | .zombie => ∀ f, some f ∉ p.ofile

def AllSafe (root : Cmd) (s : State) : Prop := ∀ pid p, s.proc pid = some p → p.Safe root

namespace AllSafe

variable {pid : Nat} {p : Process}

section

variable (all : AllSafe root s)

include all

theorem update {value : Option Process} (safe : ∀ p ∈ value, p.Safe root) :
    AllSafe root { s with proc := update s.proc pid value } := by
  intro q other found
  change Function.update s.proc pid value q = some other at found
  by_cases same : q = pid
  · subst same
    rw [update_self] at found
    exact safe other found
  · rw [update_of_ne same] at found
    exact all q other found

theorem put (safe : p.Safe root) : AllSafe root (s.put pid p) :=
  all.update fun _ found => Option.some.inj found ▸ safe

theorem reap {child : Nat} :
    AllSafe root { s with proc := Function.update s.proc child none } :=
  all.update nofun

theorem reparent : AllSafe root (s.reparent pid) := by
  intro q other found
  obtain ⟨before, here, rfl⟩ := Option.map_eq_some_iff.mp found
  have safe := all q before here
  split
  · exact safe
  · exact safe

theorem exit : AllSafe root (s.exit pid p) := by
  apply all.reparent.put
  intro f member
  cases (mem_replicate.mp member).2

theorem wait {choice : Choice} (safe : p.Safe root) (moved : sysWait s pid p choice = .next s') :
    AllSafe root s' := by
  unfold sysWait at moved
  split at moved
  next child =>
    split at moved
    · cases moved
      exact all.reap.put safe
    · cases moved
  next =>
    split at moved
    · cases moved
      exact all.put safe
    · cases moved

theorem call {prog : Prog} {choice : Choice} (safe : prog.Safe root p.around p.ofile)
    (moved : call s pid p prog choice = .next s') : AllSafe root s' := by
  cases prog with
  | close fd next | dup fd next =>
    cases moved
    exact all.put safe
  | openFile target next =>
    simp only [Shell.call] at moved
    split at moved
    next opened =>
      cases moved
      exact all.put (safe.2 _ _ opened)
    next =>
      cases moved
      exact all.put safe.1
  | pipe next =>
    simp only [Shell.call] at moved
    split at moved
    next piped =>
      cases moved
      exact all.put (safe.2 _ _ _ _ piped)
    next =>
      cases moved
      exact all.put safe.1
  | fork next =>
    cases choice with
    | succeed =>
      cases moved
      have parent : AllSafe root (s.put pid { p with control := .shell (next .parent) }) :=
        all.put (safe .parent)
      exact parent.put (safe .child)
    | fail | reap child =>
      cases moved
      exact all.put (safe .failed)
  | wait next =>
    have waiting : Process.Safe root { p with control := .shell next } := safe.2
    exact all.wait waiting moved
  | exec argv next =>
    cases choice with
    | succeed =>
      cases moved
      refine all.put ?_
      rw [Process.Safe, safe.2.1]
      exact wired_leftOnly
    | fail | reap child =>
      cases moved
      exact all.put safe.2.2
  | exit status =>
    cases moved
    exact all.exit
  | runcmd around cmd =>
    obtain ⟨place, standard, wiring⟩ := safe
    cases moved
    refine all.put ?_
    rw [Process.Safe, wiring]
    exact runcmd_safe place standard

end

end AllSafe

theorem step_allSafe {label : Nat × Choice} (all : AllSafe root s)
    (moved : step s label = .next s') :
    AllSafe root s' := by
  obtain ⟨pid, choice⟩ := label
  cases found : s.proc pid with
  | none => simp [step, found] at moved
  | some p =>
    have safe := all pid p found
    cases control : p.control with
    | shell prog =>
      simp only [step, found, control] at moved
      rw [Process.Safe, control] at safe
      exact all.call safe moved
    | program =>
      simp only [step, found, control] at moved
      cases moved
      exact all.exit
    | zombie => simp [step, found, control] at moved

theorem reachable_allSafe (standard : root.Standard) (reachable : (shell root).Reachable s) :
    AllSafe root s := by
  refine TransitionSystem.Reachable.invariant (motive := AllSafe root) ?_ ?_ reachable
  · rintro s rfl pid p found
    simp only [start, update_apply] at found
    split_ifs at found
    cases found
    exact ⟨rfl, standard, rfl⟩
  · intro s label s' _ all _ moved
    exact step_allSafe all moved

/-- A settled process has write ends of pipes only on whose left side it is. -/
theorem Process.Safe.settled {p : Process} (safe : p.Safe root)
    (settled : p.settled? = some around) :
    LeftOnly around p.ofile := by
  unfold Process.Safe at safe
  unfold Process.settled? at settled
  split at settled
  next next control =>
    cases settled
    rw [control] at safe
    exact safe.1
  next argv next control =>
    cases settled
    rw [control] at safe
    rw [safe.2.1]
    exact wired_leftOnly
  next around' cmd control =>
    cases settled
    rw [control] at safe
    rw [safe.2.2]
    exact wired_leftOnly
  next control =>
    cases settled
    rw [control] at safe
    exact safe
  next => cases settled

/-- A part of a command that calls `exec` does so with the descriptors 0, 1 and 2
and no others, with 0 and 1 as the levels above it say. A process that waits, runs
a part of the command or `exec`s has write ends only of pipes on whose left side it
is. So nobody can write to a pipe any more when all others have got there and its
left side has exited. -/
theorem runcmd_wiring (standard : root.Standard) (reachable : (shell root).Reachable s) :
    (∀ pid p argv next, s.proc pid = some p → p.control = .shell (.exec argv next) →
      plug p.around (.exec argv) = root ∧
        p.ofile = threeOpen (stdin p.around) (stdout p.around) (.original 2)) ∧
    (∀ pid p around, s.proc pid = some p → p.settled? = some around →
      ∀ pipe, some (.writeEnd pipe) ∈ p.ofile → OnLeft pipe around) ∧
    ∀ pipe, (∀ pid p, s.proc pid = some p → p.control = .zombie ∨
        ∃ around, p.settled? = some around ∧ ¬ OnLeft pipe around) →
      ∀ pid p, s.proc pid = some p → some (.writeEnd pipe) ∉ p.ofile := by
  have all := reachable_allSafe standard reachable
  refine ⟨?_, ?_, ?_⟩
  · intro pid p argv next found atExec
    have safe := all pid p found
    rw [Process.Safe, atExec] at safe
    exact ⟨safe.1, safe.2.1⟩
  · intro pid p around found settled
    exact (all pid p found).settled settled
  · intro pipe exited pid p found member
    have safe := all pid p found
    rcases exited pid p found with zombie | ⟨around, settled, outside⟩
    · rw [Process.Safe, zombie] at safe
      exact safe _ member
    · exact outside (safe.settled settled pipe member)

/-- The left side of `ls | wc` when it is about to call `exec`. -/
theorem runcmd_wiring_left :
    let root : Cmd := .pipe (.exec [(0, 2)]) (.exec [(5, 7)])
    ∃ s p next, (shell root).Reachable s ∧ s.proc 1 = some p ∧
      p.control = .shell (.exec [(0, 2)] next) ∧
      p.ofile = threeOpen (.original 0) (.writeEnd 0) (.original 2) := by
  intro root
  let run : List (Nat × Choice) :=
    [(0, .succeed), (0, .succeed), (0, .succeed), (1, .succeed), (1, .succeed), (1, .succeed),
      (1, .succeed), (1, .succeed)]
  obtain ⟨s, ran, p, found, next, atExec, inside⟩ : ∃ s, (shell root).replay (start root) run =
    some s ∧
      ∃ p, s.proc 1 = some p ∧ ∃ next, p.control = .shell (.exec [(0, 2)] next) ∧
        p.around = [.pipeLeft 0 (.exec [(5, 7)])] :=
    ⟨_, rfl, _, rfl, _, rfl, rfl⟩
  have reachable : (shell root).Reachable s := (TransitionSystem.Reachable.initial rfl).replay ran
  have wiring := (runcmd_wiring (by simp [root, Cmd.Standard]) reachable).1 1 p _ next found atExec
  rw [inside] at wiring
  exact ⟨s, p, next, reachable, found, atExec, wiring.2⟩

/-- From the text of a line to its programs: each gets the descriptors of its place in the line. -/
theorem line_wired {input : List UInt8} {fuel : Nat} {buf : Buffer} (nulFree : ∀ c ∈ input, c ≠ 0)
    (parsed : parsecmd fuel input = .ok (cmd, buf)) (reachable : (shell cmd).Reachable s)
    {pid : Nat} {p : Process} {next : Prog} (found : s.proc pid = some p)
    (calls : p.control = .shell (.exec argv next)) :
    Derives .line (tokens input) (plug p.around (.exec argv)) ∧ p.ofile = wired p.around := by
  have derives := (parsecmd_derives nulFree parsed).1
  have safe := reachable_allSafe derives.standard reachable pid p found
  rw [Process.Safe, calls] at safe
  exact ⟨safe.1 ▸ derives, safe.2.1⟩

/-- The right side of the line `a|b>c` reads from the pipe and writes to the file. -/
theorem line_wired_right :
    let target : Redir := ⟨4, 5, 0x601, 1⟩
    let cmd : Cmd := .pipe (.exec [(0, 1)]) (.redir (.exec [(2, 3)]) target)
    ∃ s p next, (shell cmd).Reachable s ∧ s.proc 2 = some p ∧
      p.control = .shell (.exec [(2, 3)] next) ∧
      p.ofile = threeOpen (.readEnd 0) (.file target) (.original 2) := by
  intro target cmd
  let run : List (Nat × Choice) := .replicate 4 (0, .succeed) ++ .replicate 8 (2, .succeed)
  obtain ⟨s, ran, p, found, next, calls, inside⟩ : ∃ s, (shell cmd).replay (start cmd) run =
    some s ∧
      ∃ p, s.proc 2 = some p ∧ ∃ next, p.control = .shell (.exec [(2, 3)] next) ∧
        p.around = [.redir target, .pipeRight 0 (.exec [(0, 1)])] := ⟨_, rfl, _, rfl, _, rfl, rfl⟩
  have reachable := TransitionSystem.Reachable.replay (.initial rfl) ran
  have parsed : (parsecmd 32 [97, 124, 98, 62, 99]).toOption.map Prod.fst = some cmd := by
    decide +kernel
  rcases made : parsecmd 32 [97, 124, 98, 62, 99] with _ | ⟨cmd', buf⟩ <;> rw [made] at parsed
  · cases parsed
  obtain rfl : cmd' = cmd := Option.some.inj parsed
  have wiring := (line_wired (by simp) made reachable found calls).2
  rw [inside] at wiring
  exact ⟨s, p, next, reachable, found, calls, wiring⟩

end Xv6.Shell
