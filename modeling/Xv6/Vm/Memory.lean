import Xv6.Library.Bytes
import Xv6.Library.Hoare

/-!
# Physical memory and the page allocator

`kernel/kalloc.c` over a byte-addressed memory. The free list is threaded
through the free pages themselves, as in the source: the first word of a free
page points to the next one.
-/

namespace Xv6.Vm

def pgSize : Nat := 4096
def kernBase : Nat := 0x80000000
def physTop : Nat := kernBase + 128 * 1024 * 1024

def u64 (n : Nat) : Nat := n % 2 ^ 64

/-- `PGROUNDDOWN`: the low twelve bits are cleared. -/
def pgRoundDown (a : Nat) : Nat := a / pgSize * pgSize

def pgRoundUp (sz : Nat) : Nat := pgRoundDown (u64 (sz + (pgSize - 1)))

inductive Panic where
  /-- `kfree` -/
  | kfree
  /-- `walk` -/
  | walk
  /-- `mappages: va not aligned` -/
  | mappagesVa
  /-- `mappages: size not aligned` -/
  | mappagesSize
  /-- `mappages: size` -/
  | mappagesEmpty
  /-- `mappages: remap` -/
  | mappagesRemap
  /-- `uvmunmap: not aligned` -/
  | uvmunmapAlign
  /-- `uvmunmap: walk` -/
  | uvmunmapWalk
  /-- `uvmunmap: not mapped` -/
  | uvmunmapNotMapped
  /-- `uvmunmap: not a leaf` -/
  | uvmunmapNotLeaf
  /-- `uvmfirst: more than a page` -/
  | uvmfirst
  /-- `freewalk: leaf` -/
  | freewalk
  /-- `uvmcopy: pte should exist` -/
  | uvmcopyPte
  /-- `uvmcopy: page not present` -/
  | uvmcopyPage
  /-- `uvmclear` -/
  | uvmclear
  /-- `loadseg: address should exist` -/
  | loadseg
  /-- A write behind the end of `ustack` in `exec`. -/
  | ustack
  /-- `filedup` -/
  | filedup
  /-- `fileclose` -/
  | fileclose
  /-- `init exiting` -/
  | initExiting
  /-- `kerneltrap`, after an access through a null pointer. -/
  | kerneltrap
  /-- A loop that does not end. -/
  | diverged
  deriving DecidableEq

/-- Where the linker put the kernel. -/
structure Layout where
  /-- `end`, the first address after the kernel. -/
  kernelEnd : Nat
  /-- `trampoline`, a page of kernel text. -/
  trampoline : Nat
  aboveBase : kernBase ≤ kernelEnd
  belowTop : kernelEnd ≤ physTop
  trampolineAligned : trampoline % pgSize = 0
  trampolineInside : kernBase ≤ trampoline ∧ trampoline + pgSize ≤ kernelEnd

structure Memory where
  bytes : ByteSpace
  /-- `kmem.freelist` -/
  freelist : Nat

abbrev VmM (α : Type) := Prog Memory Panic α

def load64 (addr : Nat) : VmM Nat := fun m => .ok (m.bytes.load addr 8, m)

def store64 (addr value : Nat) : VmM Unit := fun m =>
  .ok ((), { m with bytes := m.bytes.store addr 8 value })

def memset (dst : Nat) (c : UInt8) (n : Nat) : VmM Unit := fun m =>
  .ok ((), { m with bytes := fun a => if dst ≤ a ∧ a < dst + n then c else m.bytes a })

def getFreelist : VmM Nat := fun m => .ok (m.freelist, m)

def setFreelist (r : Nat) : VmM Unit := fun m => .ok ((), { m with freelist := r })

/-- More iterations than any loop can make. -/
@[irreducible] def maxIterations : Nat := 2 ^ 64

section allocator

variable (layout : Layout)

def kfree (pa : Nat) : VmM Unit := do
  if pa % pgSize ≠ 0 ∨ pa < layout.kernelEnd ∨ pa ≥ physTop then
    throw .kfree
  else
    memset pa 1 pgSize
    store64 pa (← getFreelist)
    setFreelist pa

def kalloc : VmM Nat := do
  let r ← getFreelist
  if r ≠ 0 then
    setFreelist (← load64 r)
    memset r 5 pgSize
    return r
  else
    return r

def freerange (paStart paEnd : Nat) : VmM Unit :=
  Prog.loop .diverged (fun p => do
    if p + pgSize ≤ paEnd then
      kfree layout p
      return .inl (p + pgSize)
    else
      return .inr ()) maxIterations (pgRoundUp paStart)

def kinit : VmM Unit := freerange layout layout.kernelEnd physTop

/-- The loop follows the list from the variables `free_mem` and `r`. -/
def kfreeMemsize : VmM Nat := do
  Prog.loop .diverged (fun (freeMem, r) => do
    if r ≠ 0 then
      return .inl (u64 (freeMem + pgSize), ← load64 r)
    else
      return .inr freeMem) maxIterations (0, ← getFreelist)

end allocator

end Xv6.Vm
