import Xv6.Exec.Commit
import Xv6.Library.Runs

/-!
# The images of a process

A process changes its image with `sbrk` and `exec`, as often as it likes. No such call
panics, and no page is lost or taken from anybody else.
-/

namespace Xv6.Exec

open Vm
open Prog (Ensures)

variable {layout : Layout} {free image : List Nat}

section

variable {p : Proc} {s : State} {args : List (List UInt8)}
  (old : ProcSpace layout s.memory p.pagetable p.trapframe free image p.sz)

include old

/-- The image is sound either way, and after a failure it is the old one. -/
theorem Outcome.sound {m' : Memory} {result : Proc × Except Bad Nat}
    (outcome : Outcome layout p free image args s.memory result m') :
    ∃ free' image', ProcSpace layout m' result.1.pagetable result.1.trapframe free' image'
      result.1.sz ∧
      (∀ x, x ∈ free' ∨ x ∈ footprint m' result.1.pagetable image' ↔
        x ∈ free ∨ x ∈ footprint s.memory p.pagetable image) ∧
      ∀ reason, result.2 = .error reason → result.1 = p ∧ image' = image ∧
      (∀ x, x ∈ free' ↔ x ∈ free) ∧
        Unchanged { x | x ∈ free } s.memory m' := by
  obtain ⟨p', reason | argc⟩ := result
  · obtain ⟨rfl, -, free', moves⟩ := outcome
    have same : ∀ x, x ∈ free' ↔ x ∈ free := fun x => by simpa using moves.same x
    obtain ⟨space, owned, -⟩ :=
      beside old moves (fun _ _ none => none.elim) fun isFree => old.apart.2 ((same _).mp isFree)
    refine ⟨free', image, space, fun x => by rw [same, owned], fun _ _ => ⟨rfl, rfl, same, ?_⟩⟩
    exact moves.unchanged.mono (by simp)
  · obtain ⟨-, trapframe, sp, entry, free', image', space, same, -⟩ := outcome
    rw [← trapframe] at space
    exact ⟨free', image', space, same, fun _ is => nomatch is⟩

/-- A call of `exec` that fails is not noticed by anybody. -/
theorem exec_fails_unnoticed (few : args.length < maxArg) (nulFree : ∀ arg ∈ args, 0 ∉ arg)
    (short : ∀ arg ∈ args, arg.length < pgSize) (found : Option File) (path : List UInt8) :
    ∃ p' result s', exec layout p found path (args.map (· ++ [0])) s = .ok ((p', result), s') ∧
      (∃ calls, s'.calls = calls ++ s.calls ∧ calls.count .beginOp = calls.count .endOp ∧
        calls.count .ilock = calls.count .iunlockput) ∧
      ∀ reason, result = .error reason → p' = p ∧ Unchanged { x | x ∈ free } s.memory s'.memory ∧
        ∃ free', (∀ x, x ∈ free' ↔ x ∈ free) ∧
          ProcSpace layout s'.memory p.pagetable p.trapframe free' image p.sz := by
  obtain ⟨⟨p', result⟩, s', run, m', calls, rfl, paired, outcome⟩ :=
    (exec_spec old few nulFree short found).exists
  obtain ⟨free', image', space, -, fails⟩ := outcome.sound old
  refine ⟨p', result, _, run, ⟨calls, rfl, ?_⟩, fun reason failed => ?_⟩
  · rcases paired with rfl | rfl <;> decide
  · obtain ⟨rfl, rfl, same, unchanged⟩ := fails reason failed
    exact ⟨rfl, unchanged, free', same, space⟩

end

/-- The first segment is refused when there is a page table for it. -/
theorem exec_fails : Ensures (fun _ => True)
    (exec smallLayout sampleProc (some (sampleElf 1)) [] [[97, 0]]) sampleState
    fun result _ => result.2 = .error .memorySize := by
  have refused : ∀ m, loadSegments smallLayout 0x80106000 (sampleElf 1) 1 64 0 m =
      .ok ((0, some .memorySize), m) := by
    intro m
    rw [loadSegments, loadSegment, if_neg (by decide), if_neg (by decide), if_pos (by decide)]
    rfl
  refine .bind (.of_modify (.bind (.of_modify (.bind (.of_modify ?_)))))
  rw [if_neg (by decide), if_neg (by decide)]
  refine .bind (.onPart (.of_eq procPagetable_grownMemory ?_))
  rw [if_neg (by decide)]
  refine .bind (.onPart (.of_eq (refused _) ?_))
  exact .seq .run fun _ _ _ => .seq .run fun _ _ _ => .pure rfl

theorem exec_fails_unnoticed_segment : ∃ (free free' image : List Nat) (s' : State),
    exec smallLayout sampleProc (some (sampleElf 1)) [] [[97, 0]] sampleState =
      .ok ((sampleProc, .error .memorySize), s') ∧
    Unchanged { x | x ∈ free } grownMemory s'.memory ∧ (∀ x, x ∈ free' ↔ x ∈ free) ∧
    ProcSpace smallLayout s'.memory 0x80100000 0x80200000 free' image 0x1000 := by
  obtain ⟨free, image, old⟩ := sampleProc_space
  obtain ⟨p', result, s', run, -, fails⟩ :=
    exec_fails_unnoticed (p := sampleProc) (s := sampleState) old
      (by decide : [[(97 : UInt8)]].length < maxArg)
      (by decide) (by decide) (some (sampleElf 1)) []
  obtain rfl : result = .error .memorySize := exec_fails.of_ok run
  obtain ⟨rfl, unchanged, free', same, space⟩ := fails _ rfl
  exact ⟨free, free', image, s', run, unchanged, same, space⟩

/-! ## Many calls -/

inductive Call where
  | sbrk (n : Int)
  /-- `exec` of the file that is found, if there is one. -/
  | exec (found : Option File) (path : List UInt8) (args : List (List UInt8))

/-- The argument of `sbrk` is an `int`, and `sys_exec` fetches the strings into pages. -/
def Call.Proper : Call → Prop
  | .sbrk n => -2 ^ 31 ≤ n ∧ n < 2 ^ 31
  | .exec _ _ args =>
    args.length < maxArg ∧ (∀ arg ∈ args, 0 ∉ arg) ∧ ∀ arg ∈ args, arg.length < pgSize

def perform (layout : Layout) : Proc × State → Call → Except Panic (Proc × State)
  | (p, s), .sbrk n => do
    let ((_, sz), m) ← growproc layout p.pagetable p.sz n s.memory
    return ({ p with sz := sz }, { s with memory := m })
  | (p, s), .exec found path args => do
    let ((p, _), s) ← exec layout p found path (args.map (· ++ [0])) s
    return (p, s)

/-- The process has a sound image, and with the free pages it makes up `pool`. -/
def Keeps (layout : Layout) (pool : Set Nat) (running : Proc × State) : Prop :=
  ∃ free image, ProcSpace layout running.2.memory running.1.pagetable running.1.trapframe free image
    running.1.sz ∧
    ∀ x, x ∈ free ∨ x ∈ footprint running.2.memory running.1.pagetable image ↔ x ∈ pool

variable {pool : Set Nat} {p : Proc} {s : State}

theorem Keeps.perform (keeps : Keeps layout pool (p, s)) {call : Call} (proper : call.Proper) :
    ∃ next, perform layout (p, s) call = .ok next ∧ Keeps layout pool next := by
  obtain ⟨free, image, space, all⟩ := keeps
  cases call with
  | sbrk n =>
    rw [Call.Proper] at proper
    obtain ⟨⟨r, sz⟩, m', run, free', image', space', moves, -⟩ :=
      (growproc_spec space proper).exists
    refine ⟨({ p with sz := sz }, { s with memory := m' }), ?_, free', image', space', fun x => ?_⟩
    · simp only [Exec.perform, run]
      rfl
    · rw [moves.same, all]
  | exec found path args =>
    obtain ⟨few, nulFree, short⟩ := proper
    have spec : Prog.Returns (Exec.exec layout p found path (args.map (· ++ [0]))) s _ :=
      exec_spec space few nulFree short found
    obtain ⟨⟨p', result⟩, s', run, m', calls, rfl, -, outcome⟩ := spec.exists
    obtain ⟨free', image', space', same, -⟩ := outcome.sound space
    refine ⟨(p', { s with memory := m', calls := calls ++ s.calls }), ?_, free', image', space',
      fun x => ?_⟩
    · simp only [Exec.perform, run]
      rfl
    · rw [← all, ← same]

/-- Whatever a process calls, nothing panics and its pages stay its own. -/
theorem calls_keep_pages {start : Proc × State} (keeps : Keeps layout pool start)
    {calls : List Call} (proper : ∀ call ∈ calls, call.Proper) :
    ∃ final, calls.foldlM (perform layout) start = .ok final ∧ Keeps layout pool final :=
  Except.foldlM_keeps (fun _ keeps call here => keeps.perform (proper call here)) keeps

theorem perform_sbrk :
    perform smallLayout ({ sampleProc with sz := 0 }, ⟨newMemory, [], false⟩) (.sbrk 0x1000) =
    .ok (sampleProc, sampleState) := by
  have run : growproc smallLayout sampleProc.pagetable 0 0x1000 newMemory = _ := growproc_newMemory
  simp only [perform, run]
  rfl

theorem perform_exec :
    ∃ next, perform smallLayout (sampleProc, sampleState) (.exec (some (sampleElf 0)) [] [[97]]) =
    .ok next ∧ next.1.sz = 0x3000 := by
  obtain ⟨free, image, old⟩ := sampleProc_space
  have spec :
    Prog.Returns (Exec.exec smallLayout sampleProc (some (sampleElf 0)) [] ([[97]].map (· ++ [0])))
      sampleState _ :=
    exec_spec old (by decide) (by decide) (by decide) _
  obtain ⟨⟨p', result⟩, s', run, -⟩ := spec.exists
  refine ⟨(p', s'), ?_, (exec_succeeds.of_ok run).2⟩
  simp only [perform, run]
  rfl

theorem calls_keep_pages_two : ∃ (final : Proc × State) (pool : Set Nat),
    [Call.sbrk 0x1000, .exec (some (sampleElf 0)) [] [[97]]].foldlM (perform smallLayout)
      ({ sampleProc with sz := 0 }, ⟨newMemory, [], false⟩) = .ok final ∧
    final.1.sz = 0x3000 ∧ Keeps smallLayout pool final := by
  obtain ⟨free, proc⟩ := newProcess
  have start : Keeps smallLayout _ ({ sampleProc with sz := 0 }, ⟨newMemory, [], false⟩) :=
    ⟨free, [], proc, fun x => .rfl⟩
  have proper : ∀ call ∈ [Call.sbrk 0x1000, .exec (some (sampleElf 0)) [] [[97]]], call.Proper := by
    simp only [List.forall_mem_cons, Call.Proper]
    exact ⟨by decide, by decide, by simp⟩
  obtain ⟨final, runs, keeps⟩ := calls_keep_pages start proper
  obtain ⟨next, executes, size⟩ := perform_exec
  have bind_ok {α β : Type} (a : α) (f : α → Except Panic β) : (Except.ok a >>= f) = f a := rfl
  have same : final = next := by
    rw [List.foldlM_cons, perform_sbrk, bind_ok, List.foldlM_cons, executes] at runs
    exact (Except.ok.inj runs).symm
  exact ⟨final, _, runs, same ▸ size, keeps⟩

end Xv6.Exec
