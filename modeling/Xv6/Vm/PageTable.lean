import Xv6.Vm.Pte

/-!
# Page tables

`walk`, `walkaddr`, `mappages` and `uvmunmap` of `kernel/vm.c`.
-/

namespace Xv6.Vm

def sub64 (a b : Nat) : Nat := u64 (a + 2 ^ 64 - b)

/-- The loop of `walk` from the given level down. It returns the address of an
entry, or zero. -/
def walkFrom (va : Nat) (alloc : Bool) : Nat → Nat → VmM Nat
  | 0, pagetable => return pagetable + 8 * px 0 va
  | level + 1, pagetable => do
    let pte := pagetable + 8 * px (level + 1) va
    let entry ← load64 pte
    if entry &&& pteV ≠ 0 then
      walkFrom va alloc level (pte2pa entry)
    else if alloc then
      let page ← kalloc
      if page = 0 then
        return 0
      else
        memset page 0 pgSize
        store64 pte (pa2pte page ||| pteV)
        walkFrom va alloc level page
    else
      return 0

def walk (pagetable va : Nat) (alloc : Bool) : VmM Nat :=
  if va ≥ maxVa then throw .walk else walkFrom va alloc 2 pagetable

def walkaddr (pagetable va : Nat) : VmM Nat := do
  if va ≥ maxVa then
    return 0
  else
    let pte ← walk pagetable va false
    if pte = 0 then
      return 0
    else
      let entry ← load64 pte
      if entry &&& pteV = 0 then
        return 0
      else if entry &&& pteU = 0 then
        return 0
      else
        return pte2pa entry

/-- The loop runs over the variables `a` and `pa`. -/
def mappages (pagetable va size pa perm : Nat) : VmM Int := do
  if va % pgSize ≠ 0 then
    throw .mappagesVa
  else if size % pgSize ≠ 0 then
    throw .mappagesSize
  else if size = 0 then
    throw .mappagesEmpty
  else
    let last := sub64 (u64 (va + size)) pgSize
    Prog.loop .diverged (fun (a, pa) => do
      let pte ← walk pagetable a true
      if pte = 0 then
        return .inr (-1)
      else
        let entry ← load64 pte
        if entry &&& pteV ≠ 0 then
          throw .mappagesRemap
        else
          store64 pte (pa2pte pa ||| perm ||| pteV)
          if a = last then
            return .inr 0
          else
            return .inl (u64 (a + pgSize), u64 (pa + pgSize))) maxIterations (va, pa)

def uvmunmap (layout : Layout) (pagetable va npages : Nat) (doFree : Bool) : VmM Unit := do
  if va % pgSize ≠ 0 then
    throw .uvmunmapAlign
  else
    Prog.loop .diverged (fun a => do
      if a < u64 (va + npages * pgSize) then
        let pte ← walk pagetable a false
        if pte = 0 then
          throw .uvmunmapWalk
        else
          let entry ← load64 pte
          if entry &&& pteV = 0 then
            throw .uvmunmapNotMapped
          else if pteFlags entry = pteV then
            throw .uvmunmapNotLeaf
          else
            (if doFree then kfree layout (pte2pa entry) else pure ())
            store64 pte 0
            return .inl (u64 (a + pgSize))
      else
        return .inr ()) maxIterations va

end Xv6.Vm
