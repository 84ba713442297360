import Xv6.Library.Machine
import Xv6.Library.Window

/-!
# The console

`consoleread` and `consoleintr` of `kernel/console.c`. Each of them holds `cons.lock`
all the time, but for a process that waits for input: it has the lock until it goes to
sleep, and again when it goes on. The counters are 32-bit numbers that wrap.
-/

namespace Xv6.Console

open Function

def inputBufSize : Nat := 128

/-- `cons`, without its lock. -/
structure Cons where
  buf : Nat → UInt8
  r : BitVec 32
  w : BitVec 32
  e : BitVec 32

/-- `C(x)` for a capital letter. -/
def ctrl (x : Char) : UInt8 := UInt8.ofNat (x.toNat - '@'.toNat)

def newline : UInt8 := 10
def carriageReturn : UInt8 := 13
def delete : UInt8 := 0x7F

/-- `consputc(BACKSPACE)` -/
def backspace : List UInt8 := [8, 32, 8]

def slot (counter : BitVec 32) : Nat := counter.toNat % inputBufSize

/-! ## Input -/

/-- The loop for `^U`, which ends after as many rounds as there are characters between
`w` and `e`. -/
def killLine : Nat → Cons → Cons × List UInt8
  | 0, cons => (cons, [])
  | rounds + 1, cons =>
    if cons.e ≠ cons.w ∧ cons.buf (slot (cons.e - 1)) ≠ newline then
      let (cons, echo) := killLine rounds { cons with e := cons.e - 1 }
      (cons, backspace ++ echo)
    else
      (cons, [])

/-- The interrupt for one character, and what is sent back to the terminal. -/
def consoleintr (cons : Cons) (c : UInt8) : Cons × List UInt8 :=
  if c = ctrl 'P' then
    (cons, [])
  else if c = ctrl 'U' then
    killLine (cons.e - cons.w).toNat cons
  else if c = ctrl 'H' ∨ c = delete then
    if cons.e ≠ cons.w then ({ cons with e := cons.e - 1 }, backspace) else (cons, [])
  else if c ≠ 0 ∧ (cons.e - cons.r).toNat < inputBufSize then
    let c := if c = carriageReturn then newline else c
    let cons := { cons with buf := update cons.buf (slot cons.e) c, e := cons.e + 1 }
    if c = newline ∨ c = ctrl 'D' ∨ (cons.e - cons.r).toNat = inputBufSize then
      ({ cons with w := cons.e }, [c])
    else
      (cons, [c])
  else
    (cons, [])

/-! ## Reading -/

/-- A call of `consoleread` that waits for input: its variables, and the bytes that it
has copied to the destination. -/
structure Reader where
  target : Nat
  n : Nat
  copied : List UInt8

inductive Result where
  | sleeps (reader : Reader)
  | returns (value : Int) (copied : List UInt8)

/-- `return target - n` -/
def Reader.returns (reader : Reader) : Result :=
  .returns (Int.bmod (reader.target - reader.n) (2 ^ 32)) reader.copied

/-- The loop of `consoleread`, with `n` bytes to go. `killed` is what `killed(myproc())`
says when there is no input. -/
def readLoop (killed : Bool) (target : Nat) : Nat → List UInt8 → Cons → Cons × Result
  | 0, copied, cons => (cons, Reader.returns ⟨target, 0, copied⟩)
  | n + 1, copied, cons =>
    if cons.r = cons.w then
      (cons, if killed then .returns (-1) copied else .sleeps ⟨target, n + 1, copied⟩)
    else
      let c := cons.buf (slot cons.r)
      let cons := { cons with r := cons.r + 1 }
      if c = ctrl 'D' then
        (if n + 1 < target then { cons with r := cons.r - 1 } else cons,
        Reader.returns ⟨target, n + 1, copied⟩)
      else if c = newline then
        (cons, Reader.returns ⟨target, n, copied ++ [c]⟩)
      else
        readLoop killed target n (copied ++ [c]) cons

/-- `consoleread` up to its return or its first sleep. `n` is an `int` and `target` is
not. -/
def consoleread (killed : Bool) (n : BitVec 32) (cons : Cons) : Cons × Result :=
  if n.toInt > 0 then
    readLoop killed n.toNat n.toInt.toNat [] cons
  else
    (cons, .returns (n - n).toInt [])

/-! ## The system -/

structure State where
  cons : Cons
  /-- The processes that wait in `consoleread`. -/
  readers : Nat → Option Reader

inductive Event where
  | typed (c : UInt8)
  /-- A process calls `consoleread`. -/
  | read (pid : Nat) (n : BitVec 32) (killed : Bool)
  /-- A process that waits goes on. -/
  | woken (pid : Nat) (killed : Bool)

inductive Output where
  | echo (bytes : List UInt8)
  | waits
  | returns (value : Int) (copied : List UInt8)
  /-- The process is not where it could do that. -/
  | impossible

def Result.output : Result → Output
  | .sleeps _ => .waits
  | .returns value copied => .returns value copied

def Result.waiting : Result → Option Reader
  | .sleeps reader => some reader
  | .returns _ _ => none

def system : Machine State Event Output where
  start := ⟨⟨fun _ => 0, 0, 0, 0⟩, fun _ => none⟩
  step s event :=
    match event with
    | .typed c =>
      let (cons, echo) := consoleintr s.cons c
      ({ s with cons := cons }, .echo echo)
    | .read pid n killed =>
      match s.readers pid with
      | some _ => (s, .impossible)
      | none =>
        let (cons, result) := consoleread killed n s.cons
        (⟨cons, update s.readers pid result.waiting⟩, result.output)
    | .woken pid killed =>
      match s.readers pid with
      | none => (s, .impossible)
      | some reader =>
        let (cons, result) := readLoop killed reader.target reader.n reader.copied s.cons
        (⟨cons, update s.readers pid result.waiting⟩, result.output)

end Xv6.Console
