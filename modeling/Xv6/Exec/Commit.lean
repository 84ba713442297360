import Xv6.Exec.Arguments

/-!
# From one image to the next

While `exec` builds the new image nothing of the old one changes, and when it gives up
all pages are back on the free list. On success the old image is freed and the new one
has the arguments on its stack.
-/

namespace Xv6.Exec

open Vm
open Prog (Ensures Returns)

variable {layout : Layout} {m m' m'' : Memory} {free free' free'' image : List Nat}
  {root trapframe sz : Nat} {part part' : Set Nat}

/-! ## Two address spaces -/

theorem userByte_frame {touched : Set Nat} {va : Nat}
    (proc : ProcSpace layout m root trapframe free image sz) (unchanged : Unchanged touched m m')
    (outside : ∀ x ∈ footprint m root image, x ∉ touched) (below : va < sz) :
    userByte m' root va = userByte m root va := by
  have maps := pageMap_frame proc.space.tree unchanged fun x isTable => outside x (.inl isTable)
  obtain ⟨pte, member, here⟩ := proc.physical below
  have here' : physical m' root va = some (pte2pa pte + va % pgSize) := by
    rw [physical, maps, ← physical, here]
  rw [userByte, here', userByte, here]
  apply unchanged
  rw [pgRoundDown_inside (pte2pa_aligned pte) (Nat.le_add_right _ _)
    (Nat.add_lt_add_left (Nat.mod_lt _ (by decide)) _)]
  exact outside _ (.inr ⟨pte, member, rfl⟩)

/-- The process does not notice what happens to other pages. -/
theorem beside (proc : ProcSpace layout m root trapframe free image sz)
    (moves : Moves layout m m' free free' part part')
    (disjoint : ∀ x ∈ footprint m root image, x ∉ part) (apart : trapframe ∉ free') :
    ProcSpace layout m' root trapframe free' image sz ∧
    footprint m' root image = footprint m root image ∧
      ∀ va < sz, userByte m' root va = userByte m root va := by
  have outside : ∀ x ∈ footprint m root image, x ∉ { x | x ∈ free } ∪ part := by
    rintro x owned (isFree | isPart)
    · exact proc.held.apart x owned isFree
    · exact disjoint x owned isPart
  obtain ⟨space, tables⟩ :=
    proc.space.frame moves.unchanged fun x isTable => outside x (.inl isTable)
  have same : footprint m' root image = footprint m root image := by
    rw [footprint, tables, footprint]
  have stays : ∀ x, x ∈ free' → x ∈ free ∨ x ∈ part :=
    fun x isFree => (moves.same x).mp (.inl isFree)
  have proc' : ProcSpace layout m' root trapframe free' image sz := by
    refine ⟨space, ⟨moves.held.heap, ?_, ?_⟩, proc.size, proc.isPage, ?_, apart⟩
    · rw [same]
      exact proc.held.pages
    · rw [same]
      exact fun x owned isFree => outside x owned (stays x isFree)
    · rw [same]
      exact proc.apart.1
  exact ⟨proc', same, fun va below => userByte_frame proc moves.unchanged outside below⟩

structure Registers (m : Memory) (trapframe sp entry : Nat) : Prop where
  a1 : m.bytes.load (trapframe + trapframeA1) 8 = sp
  epc : m.bytes.load (trapframe + trapframeEpc) 8 = entry
  sp : m.bytes.load (trapframe + trapframeSp) 8 = sp

theorem Registers.frame {sp entry : Nat} {touched : Set Nat}
    (registers : Registers m trapframe sp entry) (isPage : Page layout trapframe)
    (unchanged : Unchanged touched m m') (apart : trapframe ∉ touched) :
    Registers m' trapframe sp entry := by
  have same : ∀ offset, offset + 8 ≤ pgSize →
      m'.bytes.load (trapframe + offset) 8 = m.bytes.load (trapframe + offset) 8 :=
        fun offset inside =>
    unchanged.load isPage.aligned (Nat.le_add_right _ _) (by omega) apart
  refine ⟨?_, ?_, ?_⟩
  · rw [same _ (by decide), registers.a1]
  · rw [same _ (by decide), registers.epc]
  · rw [same _ (by decide), registers.sp]

theorem setRegisters_spec {sp entry : Nat} (proc : ProcSpace layout m root trapframe free image sz)
    (spWord : sp < 2 ^ 64) (entryWord : entry < 2 ^ 64) :
    Returns (setRegisters trapframe sp entry) m fun _ m' => Registers m' trapframe sp entry ∧
      Moves layout m m' free free {trapframe} {trapframe} := by
  have held : Held layout m free {trapframe} := by
    refine ⟨proc.held.heap, ?_, ?_⟩
    · rintro _ rfl
      exact proc.isPage
    · rintro _ rfl
      exact proc.apart.2
  have aligned := proc.isPage.aligned
  have once : ∀ (m₁ : Memory) offset value, offset < 128 →
      Unchanged {trapframe} m₁ { m₁ with bytes := m₁.bytes.store (trapframe + offset) 8 value } :=
        fun m₁ offset value small =>
    store_unchanged m₁ aligned (Nat.le_add_right _ _) (by unfold pgSize; omega) value
  refine .bind
    (store64_rule
      (.bind (store64_rule (store64_rule ⟨⟨?_, ?_, ?_⟩, .write held ?_ rfl subset_rfl⟩))))
  · rw [ByteSpace.load_store_disjoint, ByteSpace.load_store_disjoint, ByteSpace.load_store_same,
      Nat.mod_eq_of_lt]
    · exact spWord.trans_le (by norm_num)
    · exact .inr (by unfold trapframeEpc trapframeA1; omega)
    · exact .inr (by unfold trapframeSp trapframeA1; omega)
  · rw [ByteSpace.load_store_disjoint, ByteSpace.load_store_same, Nat.mod_eq_of_lt]
    · exact entryWord.trans_le (by norm_num)
    · exact .inl (by unfold trapframeSp trapframeEpc; omega)
  · rw [ByteSpace.load_store_same, Nat.mod_eq_of_lt]
    exact spWord.trans_le (by norm_num)
  · exact ((once m _ sp (by decide)).trans (once _ trapframeEpc entry (by decide))).trans
      (once _ trapframeSp sp (by decide))

theorem giveUp_spec (proc : ProcSpace layout m root trapframe free image sz) (nonzero : root ≠ 0) :
    Returns (giveUp layout root sz) m fun _ m' =>
      ∃ free', Moves layout m m' free free' (footprint m root image) ∅ := by
  rw [giveUp, if_pos nonzero]
  exact procFreepagetable_spec proc.space proc.held proc.isPage proc.count

/-! ## The outcome -/

/-- How a call of `exec` by `p` ended, from `m` with the pages `free` to `m'`. -/
def Outcome (layout : Layout) (p : Proc) (free image : List Nat) (args : List (List UInt8))
    (m : Memory) (result : Proc × Except Bad Nat) (m' : Memory) : Prop :=
  match result.2 with
  | .error reason =>
    result.1 = p ∧
      (reason.onStack = true → reason = .stackRoom ∧ userStack * pgSize < stackNeeded args) ∧
      ∃ free', Moves layout m m' free free' ∅ ∅
  | .ok argc => argc = args.length ∧ result.1.trapframe = p.trapframe ∧ ∃ sp entry free' image',
      ProcSpace layout m' result.1.pagetable p.trapframe free' image' result.1.sz ∧
      (∀ x, x ∈ free' ∨ x ∈ footprint m' result.1.pagetable image' ↔ x ∈ free ∨
        x ∈ footprint m p.pagetable image) ∧
      Registers m' p.trapframe sp entry ∧ Passed m' result.1.pagetable result.1.sz sp args

section

variable {p : Proc} {s : State} {args : List (List UInt8)} {path : List UInt8}
  {freeNew imageNew : List Nat} (old : ProcSpace layout m p.pagetable p.trapframe free image p.sz)
  (few : args.length < maxArg) (nulFree : ∀ arg ∈ args, 0 ∉ arg)
  (short : ∀ arg ∈ args, arg.length < pgSize)

include old

theorem commit_spec {top sp entry argc : Nat}
    (stack : Stack layout s.memory root p.trapframe freeNew imageNew top)
    (moves : Moves layout m s.memory free freeNew ∅ (footprint s.memory root imageNew))
    (passed : Passed s.memory root top sp args) (entryWord : entry < 2 ^ 64)
    (count : argc = args.length) (name : List UInt8) :
    Returns (do
      vm (setRegisters p.trapframe sp entry)
      vm (procFreepagetable layout p.pagetable p.sz)
      return (({ p with pagetable := root, sz := top, name := name } : Proc), Except.ok argc) :
        ExecM (Proc × Except Bad Nat)) s
      fun result s' => ∃ m', s' = { s with memory := m' } ∧
      Outcome layout p free image args m result m' := by
  obtain ⟨old₁, sameOld₁, -⟩ := beside old moves (fun x _ none => none.elim) stack.apart.2
  refine .bind
    (.onPart
      ((setRegisters_spec stack.toProcSpace (passed.inside.2.trans stack.word) entryWord).mono ?_))
  rintro _ m₂ ⟨registers, moves₂⟩
  obtain ⟨old₂, sameOld₂, -⟩ :=
    beside old₁ moves₂ (fun x owned is => old₁.apart.1 (is ▸ owned)) old₁.apart.2
  obtain ⟨new₂, sameNew₂, bytes₂⟩ :=
    beside stack.toProcSpace moves₂ (fun x owned is => stack.apart.1 (is ▸ owned)) stack.apart.2
  refine .bind
    (.onPart ((procFreepagetable_spec old₂.space old₂.held old₂.isPage old₂.count).mono ?_))
  rintro _ m₃ ⟨free₃, moves₃⟩
  -- the new pages were free, so none of them is of the old image
  have wasFree : ∀ x, x ∈ footprint s.memory root imageNew → x ∈ free := fun x owned =>
    ((moves.same x).mp (.inr owned)).resolve_right (Set.notMem_empty x)
  have apart : p.trapframe ∉ free₃ := by
    intro isFree
    rcases (moves₃.same _).mp (.inl isFree) with isFree | owned
    · exact stack.apart.2 isFree
    · exact old₂.apart.1 owned
  obtain ⟨new₃, sameNew₃, bytes₃⟩ := beside new₂ moves₃ (fun x owned isOld => by
    rw [sameNew₂] at owned
    rw [sameOld₂, sameOld₁] at isOld
    exact old.held.apart x isOld (wasFree x owned)) apart
  refine .pure ⟨m₃, rfl, count, rfl, sp, entry, free₃, imageNew, new₃, fun x => ?_, ?_,
    passed.congr fun va below => (bytes₃ va below).trans (bytes₂ va below)⟩
  · have first := moves.same x
    have second := moves₃.same x
    rw [sameOld₂, sameOld₁, or_iff_left (Set.notMem_empty x)] at second
    rw [or_iff_left (Set.notMem_empty x)] at first
    rw [sameNew₃, sameNew₂, second, or_right_comm, first]
  · refine registers.frame old.isPage moves₃.unchanged ?_
    rintro (isFree | owned)
    · exact stack.apart.2 isFree
    · exact old₂.apart.1 owned

include few nulFree short

theorem finish_spec {entry : Nat}
    (new : ProcSpace layout s.memory root p.trapframe freeNew imageNew sz)
    (moves : Moves layout m s.memory free freeNew ∅ (footprint s.memory root imageNew))
    (nonzero : root ≠ 0) (entryWord : entry < 2 ^ 64) :
    Returns (finish layout p path (args.map (· ++ [0])) entry root sz) s fun result s' =>
      ∃ m', s' = { s with memory := m' } ∧ Outcome layout p free image args m result m' := by
  refine .bind (.onPart ((makeStack_spec (rounded new)).mono ?_))
  rintro r m₁ ⟨free₁, image₁, moves₁, ⟨rfl, new₁⟩ | ⟨rfl, new₁, writable⟩⟩
  · rw [if_pos rfl]
    refine .bind (.onPart ((giveUp_spec new₁ nonzero).mono ?_))
    rintro _ m₂ ⟨free₂, moves₂⟩
    exact .pure
      ⟨m₂, rfl, rfl, fun onStack => (nomatch onStack), free₂, moves.trans (moves₁.trans moves₂)⟩
  obtain ⟨top, is⟩ : ∃ top, pgRoundUp sz + (userStack + 1) * pgSize = top := ⟨_, rfl⟩
  have pages : pgRoundUp sz % pgSize = 0 := Nat.mul_mod_left _ _
  rw [is] at new₁ writable ⊢
  have stack : Stack layout m₁ root p.trapframe free₁ image₁ top := by
    refine ⟨new₁, ?_, ?_, fun va above below => writable va ?_ below⟩
    · unfold userStack pgSize at *
      omega
    · omega
    · rw [Nat.succ_mul] at is
      omega
  have word := stack.word
  have base : sub64 top (userStack * pgSize) = top - userStack * pgSize := by
    rw [sub64, u64]
    unfold userStack pgSize at *
    omega
  rw [if_neg (by unfold userStack pgSize at *; omega), base]
  refine .seq (pushArguments_spec (s := { s with memory := m₁ }) stack few nulFree short) ?_
  rintro (reason | ⟨argc, sp⟩) s₂ ⟨m₂, rfl, stack₂, moves₂, result⟩
  · obtain ⟨rfl, most⟩ := result
    refine .bind (.onPart ((giveUp_spec stack₂.toProcSpace nonzero).mono ?_))
    rintro _ m₃ ⟨free₃, moves₃⟩
    exact .pure
      ⟨m₃, rfl, rfl, fun _ => ⟨rfl, most⟩, free₃, moves.trans (moves₁.trans (moves₂.trans moves₃))⟩
  · obtain ⟨count, passed⟩ := result
    exact (commit_spec old (s := { s with memory := m₂ }) stack₂ (moves.trans (moves₁.trans moves₂))
      passed entryWord
      count _).mono fun _ _ outcome => outcome

end

section

variable {p : Proc} {s : State} {args : List (List UInt8)} {path : List UInt8}
  (old : ProcSpace layout s.memory p.pagetable p.trapframe free image p.sz)
  (few : args.length < maxArg) (nulFree : ∀ arg ∈ args, 0 ∉ arg)
  (short : ∀ arg ∈ args, arg.length < pgSize)

include old

theorem Outcome.early {reason : Bad} (early : reason.onStack = false) :
    Outcome layout p free image args s.memory (p, .error reason) s.memory := by
  refine ⟨rfl, fun onStack => ?_, free,
    .refl ⟨old.held.heap, fun _ none => none.elim, fun _ none => none.elim⟩⟩
  rw [early] at onStack
  cases onStack

include few nulFree short

theorem execFile_spec (ip : File) :
    Returns (execFile layout p ip path (args.map (· ++ [0]))) s fun result s' => ∃ m',
      s' = { s with memory := m', calls := [.endOp, .iunlockput, .ilock] ++ s.calls } ∧
        Outcome layout p free image args s.memory result m' := by
  refine .bind (.of_modify ?_)
  refine .ite (fun _ => .bind (.of_eq rfl (.pure ⟨s.memory, rfl, .early old rfl⟩))) fun _ => ?_
  refine .ite (fun _ => .bind (.of_eq rfl (.pure ⟨s.memory, rfl, .early old rfl⟩))) fun _ => ?_
  have heldFree : Held layout s.memory free ∅ :=
    ⟨old.held.heap, fun _ none => none.elim, fun _ none => none.elim⟩
  refine .bind (.onPart ((procPagetable_spec heldFree old.isPage).mono ?_))
  rintro root m₁ ⟨free₁, ⟨rfl, moves₁⟩ | ⟨nonzero, space₁, moves₁⟩⟩
  · rw [if_pos rfl]
    exact .bind (.of_eq rfl (.pure ⟨m₁, rfl, rfl, fun onStack => (nomatch onStack), free₁, moves₁⟩))
  rw [if_neg nonzero]
  have outside : ¬(p.trapframe ∈ free₁ ∨ p.trapframe ∈ footprint m₁ root []) := by
    rw [moves₁.same, or_iff_left (Set.notMem_empty _)]
    exact old.apart.2
  have new₁ : ProcSpace layout m₁ root p.trapframe free₁ [] 0 :=
    .bare space₁ moves₁.held old.isPage
      ⟨fun owned => outside (.inr owned), fun isFree => outside (.inl isFree)⟩
  refine .bind (.onPart ((loadSegments_spec _ _ ⟨new₁, fun _ none => (nomatch none)⟩).mono ?_))
  rintro ⟨sz, bad⟩ m₂ ⟨reasons, free₂, image₂, new₂, moves₂⟩
  cases bad with
  | some reason =>
    refine .bind (.onPart ((giveUp_spec new₂.toProcSpace nonzero).mono ?_))
    rintro _ m₃ ⟨free₃, moves₃⟩
    refine .bind
      (.of_eq rfl
        (.pure ⟨m₃, rfl, rfl, fun onStack => ?_, free₃, moves₁.trans (moves₂.trans moves₃)⟩))
    rw [reasons reason rfl] at onStack
    cases onStack
  | none =>
    refine .bind
      (.of_eq rfl ((finish_spec old few nulFree short new₂.toProcSpace (moves₁.trans moves₂) nonzero
        (field_lt _ _)).mono ?_))
    rintro result s₃ ⟨m₃, rfl, outcome⟩
    exact ⟨m₃, rfl, outcome⟩

/-- The calls to the file system are paired, whatever happens. -/
theorem exec_spec (found : Option File) :
    Returns (exec layout p found path (args.map (· ++ [0]))) s fun result s' => ∃ m' calls,
      s' = { s with memory := m', calls := calls ++ s.calls } ∧
        (calls = [.endOp, .beginOp] ∨ calls = [.endOp, .iunlockput, .ilock, .namei, .beginOp]) ∧
        Outcome layout p free image args s.memory result m' := by
  refine .bind (.of_modify ?_)
  cases found with
  | none => exact .bind (.of_modify (.pure ⟨s.memory, _, rfl, .inl rfl, .early old rfl⟩))
  | some ip =>
    refine .bind
      (.of_modify
        ((execFile_spec (s := { s with calls := .namei :: .beginOp :: s.calls }) old few nulFree
          short ip).mono ?_))
    rintro result s' ⟨m', rfl, outcome⟩
    exact ⟨m', _, rfl, .inr rfl, outcome⟩

/-- `exec` passes its arguments to the new image, or says why it cannot. -/
theorem exec_passes_arguments (found : Option File) (unwrapped : s.wrapped = false) :
    ∃ p' result s', exec layout p found path (args.map (· ++ [0])) s = .ok ((p', result), s') ∧
      s'.wrapped = false ∧
      (∀ argc, result = .ok argc → argc = args.length ∧
        ∃ sp entry, Registers s'.memory p'.trapframe sp entry ∧
        Passed s'.memory p'.pagetable p'.sz sp args) ∧
      (result = .error .stackRoom → userStack * pgSize < stackNeeded args) ∧
      result ≠ .error .tooManyArgs ∧ result ≠ .error .copyout := by
  obtain ⟨⟨p', result⟩, s', run, m', calls, rfl, -, outcome⟩ :=
    (exec_spec old few nulFree short found).exists
  refine ⟨p', result, _, run, unwrapped, fun argc is => ?_, fun is => ?_, fun is => ?_,
    fun is => ?_⟩
  · subst is
    obtain ⟨count, same, sp, entry, -, -, -, -, registers, passed⟩ := outcome
    rw [← same] at registers
    exact ⟨count, sp, entry, registers, passed⟩
  · subst is
    exact (outcome.2.1 rfl).2
  · subst is
    exact absurd (outcome.2.1 rfl).1 (by decide)
  · subst is
    exact absurd (outcome.2.1 rfl).1 (by decide)

end

/-- A program without segments, or with one that is larger in the file than in memory. -/
def sampleElf (phnum : UInt8) : File where
  read off n :=
    (([0x7F, 0x45, 0x4C, 0x46] ++ List.replicate 28 0 ++ [64] ++ List.replicate 23 0 ++ [phnum] ++
    List.replicate 7 0 ++ [1] ++ List.replicate 31 0 ++ [1] ++ List.replicate 23 0).drop off).take n
  bounded _ _ := List.length_take_le ..

/-- A process with one page of memory. -/
def sampleProc : Proc := ⟨0x80100000, 0x1000, 0x80200000, List.replicate 16 0⟩

def sampleState : State := ⟨grownMemory, [], false⟩

theorem sampleProc_space : ∃ free image,
    ProcSpace smallLayout grownMemory 0x80100000 0x80200000 free image 0x1000 := by
  obtain ⟨free, proc⟩ := newProcess
  obtain ⟨free', image', space, -⟩ := (growproc_spec proc (by decide)).of_ok growproc_newMemory
  exact ⟨free', image', space⟩

theorem procPagetable_grownMemory : procPagetable smallLayout 0x80200000 grownMemory =
    .ok (0x80106000, after (procPagetable smallLayout 0x80200000) grownMemory) :=
  eq_ok_after (by decide +kernel)

/-- Once the argument is on the stack nothing can go wrong. -/
theorem exec_succeeds : Ensures (fun _ => True)
    (exec smallLayout sampleProc (some (sampleElf 0)) [] [[97, 0]]) sampleState
    fun result _ => result.2 = .ok 1 ∧ result.1.sz = 0x3000 := by
  obtain ⟨m₁, is₁⟩ : ∃ m₁, m₁ = after (procPagetable smallLayout 0x80200000) grownMemory := ⟨_, rfl⟩
  have made : procPagetable smallLayout 0x80200000 grownMemory = .ok (0x80106000, m₁) :=
    is₁ ▸ procPagetable_grownMemory
  have stack : makeStack smallLayout 0x80106000 0 m₁ =
    .ok (0x3000, after (makeStack smallLayout 0x80106000 0) m₁) :=
    eq_ok_after (by rw [is₁]; decide +kernel)
  have pushed :
      ((pushArguments 0x80106000 0x1000 0x3000 [[97, 0]]
        ⟨after (makeStack smallLayout 0x80106000 0) m₁,
        [.endOp, .iunlockput, .ilock, .namei, .beginOp], false⟩).toOption.bind
          fun r => r.1.toOption.map Prod.fst) = some 1 := by
    rw [is₁]
    decide +kernel
  refine .bind (.of_modify (.bind (.of_modify (.bind (.of_modify ?_)))))
  rw [if_neg (by decide), if_neg (by decide)]
  refine .bind (.onPart (.of_eq made ?_))
  rw [if_neg (by decide)]
  refine .bind (.of_eq rfl (.bind (.of_eq rfl (.bind (.onPart (.of_eq stack ?_))))))
  rw [if_neg (by decide)]
  refine .seq .run ?_
  rintro result s₁ ran
  have value :=
    (congrArg (fun run => run.toOption.bind fun r => r.1.toOption.map Prod.fst) ran).symm.trans
      pushed
  cases result with
  | error reason => cases value
  | ok stacked =>
    obtain ⟨argc, sp⟩ := stacked
    obtain rfl : argc = 1 := Option.some.inj value
    exact .seq .run fun _ _ _ => .seq .run fun _ _ _ => .pure ⟨rfl, rfl⟩

theorem exec_passes_arguments_oneArg : ∃ (p' : Proc) (s' : State) (sp entry : Nat),
    exec smallLayout sampleProc (some (sampleElf 0)) [] [[97, 0]] sampleState =
      .ok ((p', .ok 1), s') ∧
      s'.wrapped = false ∧ Registers s'.memory p'.trapframe sp entry ∧
      Passed s'.memory p'.pagetable p'.sz sp [[97]] := by
  obtain ⟨free, image, old⟩ := sampleProc_space
  have few : [[(97 : UInt8)]].length < maxArg := by decide
  obtain ⟨p', result, s', run, unwrapped, passes, -⟩ :=
    exec_passes_arguments (p := sampleProc) (s := sampleState) old few (by decide) (by decide)
      (some (sampleElf 0)) rfl
  obtain ⟨rfl, -⟩ : result = .ok 1 ∧ p'.sz = 0x3000 := exec_succeeds.of_ok run
  obtain ⟨-, sp, entry, registers, passed⟩ := passes 1 rfl
  exact ⟨p', s', sp, entry, run, unwrapped, registers, passed⟩

end Xv6.Exec
