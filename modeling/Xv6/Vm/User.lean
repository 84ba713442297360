import Xv6.Vm.PageTable

/-!
# User memory

The second half of `kernel/vm.c`: user address spaces are created, grown
and freed, and bytes are moved between them and the kernel. Buffers on
the kernel stack are lists of bytes.
-/

namespace Xv6.Vm

/-- The low 32 bits as an `int`, widened to 64 bits. -/
def sext32 (n : Nat) : Nat :=
  if n % 2 ^ 32 < 2 ^ 31 then n % 2 ^ 32 else n % 2 ^ 32 + (2 ^ 64 - 2 ^ 32)

def loadByte (addr : Nat) : VmM UInt8 := fun m => .ok (m.bytes addr, m)

def readBytes (addr n : Nat) : VmM (List UInt8) := fun m =>
  .ok ((List.range n).map fun i => m.bytes (addr + i), m)

def writeBytes (addr : Nat) (bytes : List UInt8) : VmM Unit := fun m =>
  .ok ((), { m with bytes := fun a =>
    if addr ≤ a ∧ a < addr + bytes.length then bytes.getD (a - addr) 0 else m.bytes a })

def uvmcreate : VmM Nat := do
  let pagetable ← kalloc
  if pagetable = 0 then
    return 0
  else
    memset pagetable 0 pgSize
    return pagetable

section

variable (layout : Layout)

def uvmdealloc (pagetable oldsz newsz : Nat) : VmM Nat := do
  if newsz ≥ oldsz then
    return oldsz
  else
    (if pgRoundUp newsz < pgRoundUp oldsz then
      uvmunmap layout pagetable (pgRoundUp newsz)
        (sext32 ((pgRoundUp oldsz - pgRoundUp newsz) / pgSize)) true
    else
      pure ())
    return newsz

def uvmalloc (pagetable oldsz newsz xperm : Nat) : VmM Nat := do
  if newsz < oldsz then
    return oldsz
  else
    Prog.loop .diverged (fun a => do
      if a < newsz then
        let mem ← kalloc
        if mem = 0 then
          let _ ← uvmdealloc layout pagetable a (pgRoundUp oldsz)
          return .inr 0
        else
          memset mem 0 pgSize
          let mapped ← mappages pagetable a pgSize mem (pteR ||| pteU ||| xperm)
          if mapped ≠ 0 then
            kfree layout mem
            let _ ← uvmdealloc layout pagetable a (pgRoundUp oldsz)
            return .inr 0
          else
            return .inl (u64 (a + pgSize))
      else
        return .inr newsz) maxIterations (pgRoundUp oldsz)

/-- The recursion of `freewalk`, as deep as `depth`. -/
def freewalkFrom : Nat → Nat → VmM Unit
  | 0, _ => throw .diverged
  | depth + 1, pagetable => do
    Prog.loop .diverged (fun i => do
      if i < 512 then
        let pte ← load64 (pagetable + 8 * i)
        if pte &&& pteV ≠ 0 ∧ pte &&& (pteR ||| pteW ||| pteX) = 0 then
          freewalkFrom depth (pte2pa pte)
          store64 (pagetable + 8 * i) 0
          return .inl (i + 1)
        else if pte &&& pteV ≠ 0 then
          throw .freewalk
        else
          return .inl (i + 1)
      else
        return .inr ()) maxIterations 0
    kfree layout pagetable

def freewalk (pagetable : Nat) : VmM Unit := freewalkFrom layout maxIterations pagetable

def uvmfree (pagetable sz : Nat) : VmM Unit := do
  (if sz > 0 then uvmunmap layout pagetable 0 (pgRoundUp sz / pgSize) true else pure ())
  freewalk layout pagetable

end

def uvmclear (pagetable va : Nat) : VmM Unit := do
  let pte ← walk pagetable va false
  if pte = 0 then
    throw .uvmclear
  else
    store64 pte ((← load64 pte) &&& (2 ^ 64 - 1 - pteU))

/-- The loop runs over `dstva` and the bytes that are left. -/
def copyout (pagetable dstva : Nat) (src : List UInt8) : VmM Int :=
  Prog.loop .diverged (fun (dstva, src) => do
    if src.length > 0 then
      let va0 := pgRoundDown dstva
      if va0 ≥ maxVa then
        return .inr (-1)
      else
        let pte ← walk pagetable va0 false
        if pte = 0 then
          return .inr (-1)
        else
          let entry ← load64 pte
          if entry &&& pteV = 0 ∨ entry &&& pteU = 0 ∨ entry &&& pteW = 0 then
            return .inr (-1)
          else
            let n := min (pgSize - (dstva - va0)) src.length
            writeBytes (pte2pa entry + (dstva - va0)) (src.take n)
            return .inl (u64 (va0 + pgSize), src.drop n)
    else
      return .inr 0) maxIterations (dstva, src)

/-- The return value and the bytes written to `dst`. -/
def copyin (pagetable srcva len : Nat) : VmM (Int × List UInt8) :=
  Prog.loop .diverged (fun (srcva, len, dst) => do
    if len > 0 then
      let va0 := pgRoundDown srcva
      let pa0 ← walkaddr pagetable va0
      if pa0 = 0 then
        return .inr (-1, dst)
      else
        let n := min (pgSize - (srcva - va0)) len
        let bytes ← readBytes (pa0 + (srcva - va0)) n
        return .inl (u64 (va0 + pgSize), len - n, dst ++ bytes)
    else
      return .inr (0, dst)) maxIterations (srcva, len, [])

/-- The inner loop of `copyinstr`: whether it met the end of the string, and the
bytes it copied. -/
def copyBytes (p : Nat) : Nat → VmM (Bool × List UInt8)
  | 0 => return (false, [])
  | n + 1 => do
    let c ← loadByte p
    if c = 0 then
      return (true, [c])
    else
      let (gotNull, bytes) ← copyBytes (p + 1) n
      return (gotNull, c :: bytes)

/-- Whether the string ended, and the bytes written to `dst`. -/
def copyinstr (pagetable srcva max : Nat) : VmM (Bool × List UInt8) :=
  Prog.loop .diverged (fun (srcva, max, dst) => do
    if max > 0 then
      let va0 := pgRoundDown srcva
      let pa0 ← walkaddr pagetable va0
      if pa0 = 0 then
        return .inr (false, dst)
      else
        let n := min (pgSize - (srcva - va0)) max
        let (gotNull, bytes) ← copyBytes (pa0 + (srcva - va0)) n
        if gotNull then
          return .inr (true, dst ++ bytes)
        else
          return .inl (u64 (va0 + pgSize), max - n, dst ++ bytes)
    else
      return .inr (false, dst)) maxIterations (srcva, max, [])

def strlen (s : List UInt8) : Nat := (s.takeWhile (· ≠ 0)).length

/-- The return value and the bytes written to `buf`. `max` is an `int`, which is
widened to 64 bits. -/
def fetchstr (pagetable addr : Nat) (max : Int) : VmM (Int × List UInt8) := do
  let (gotNull, buf) ← copyinstr pagetable addr (max % 2 ^ 64).toNat
  if gotNull then
    return (strlen buf, buf)
  else
    return (-1, buf)

end Xv6.Vm
