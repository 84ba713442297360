import Mathlib

/-!
# The parser of the shell

`user/sh.c` from `gettoken` to `nulterminate`. A pointer into the command line
is its distance from the start of the line, and the line is what memory holds
there. Loops and recursive calls are counted by a fuel argument, and a parser
without fuel diverges. `malloc` does not fail.
-/

namespace Xv6.Shell

/-- What is in memory from the start of the line on. -/
abbrev Buffer := Nat → UInt8

inductive Panic where
  | missingFile
  | parseblock
  | missingParen
  | badSyntax
  | tooManyArgs
  | leftovers
  | diverged
  deriving DecidableEq

/-- The end of a redirection: which file, how it is opened and for which
descriptor. -/
structure Redir where
  file : Nat
  efile : Nat
  mode : Nat
  fd : Nat
  deriving DecidableEq

/-- `struct cmd`. An argument is a pointer to its start and one to its end. -/
inductive Cmd where
  | exec (argv : List (Nat × Nat))
  | redir (cmd : Cmd) (target : Redir)
  | pipe (left right : Cmd)
  | list (left right : Cmd)
  | back (cmd : Cmd)
  deriving DecidableEq

def maxArgs : Nat := 10

def whitespace : List UInt8 := [32, 9, 13, 10, 11]
def symbols : List UInt8 := [60, 124, 62, 38, 59, 40, 41]

/-- What `gettoken` returns for a word, and for `>>`. -/
def codeWord : UInt8 := 97
def codeAppend : UInt8 := 43

def isSpace (c : UInt8) : Bool := c ∈ whitespace
def isWordChar (c : UInt8) : Bool := c ∉ whitespace ∧ c ∉ symbols

/-- Advance over at most `n` characters that pass the test. -/
def scan (test : UInt8 → Bool) (buf : Buffer) : Nat → Nat → Nat
  | 0, s => s
  | n + 1, s => if test (buf s) then scan test buf n (s + 1) else s

section

variable (buf : Buffer) (es : Nat)

/-- The `switch` of `gettoken`: what is returned, and the end of the token. -/
def classify (q : Nat) : UInt8 × Nat :=
  if buf q = 0 then (0, q)
  else if buf q = 124 ∨ buf q = 40 ∨ buf q = 41 ∨ buf q = 59 ∨ buf q = 38 ∨ buf q = 60 then
    (buf q, q + 1)
  else if buf q = 62 then
    if buf (q + 1) = 62 then (codeAppend, q + 2) else (buf q, q + 1)
  else (codeWord, scan isWordChar buf (es - q) q)

structure Gotten where
  ret : UInt8
  q : Nat
  eq : Nat
  s : Nat

def gettoken (s : Nat) : Gotten :=
  let q := scan isSpace buf (es - s) s
  let (ret, eq) := classify buf es q
  ⟨ret, q, eq, scan isSpace buf (es - eq) eq⟩

/-- Whether one of the characters comes next, and the place where it would be. -/
def peek (s : Nat) (toks : List UInt8) : Bool × Nat :=
  let s := scan isSpace buf (es - s) s
  (buf s ≠ 0 ∧ buf s ∈ toks, s)

def redirOf (tok : UInt8) (q eq : Nat) : Option Redir :=
  if tok = 60 then some ⟨q, eq, 0, 0⟩
  else if tok = 62 then some ⟨q, eq, 0x601, 1⟩
  else if tok = codeAppend then some ⟨q, eq, 0x201, 1⟩
  else none

/-- Each redirection is put around the command so far. -/
def wrap (cmd : Cmd) (redirs : List Redir) : Cmd := redirs.foldl Cmd.redir cmd

/-- The redirections that `parseredirs` puts around its command. -/
def parseredirs : Nat → Nat → Except Panic (List Redir × Nat)
  | 0, _ => .error .diverged
  | fuel + 1, s => do
    let (more, s) := peek buf es s [60, 62]
    if more then
      let op := gettoken buf es s
      let file := gettoken buf es op.s
      if file.ret ≠ codeWord then
        .error .missingFile
      else
        let (rest, s) ← parseredirs fuel file.s
        return ((redirOf op.ret file.q file.eq).toList ++ rest, s)
    else
      return ([], s)

/-- The loop of `parseexec`. The arguments are stored in the `execcmd` while
redirections are put around it, so both are collected. -/
def parseargs : Nat → Nat → Nat → Except Panic ((List (Nat × Nat) × List Redir) × Nat)
  | 0, _, _ => .error .diverged
  | fuel + 1, argc, s => do
    let (stop, s) := peek buf es s [124, 41, 38, 59]
    if stop then
      return (([], []), s)
    else
      let tok := gettoken buf es s
      if tok.ret = 0 then
        return (([], []), tok.s)
      else if tok.ret ≠ codeWord then
        .error .badSyntax
      else if argc + 1 ≥ maxArgs then
        .error .tooManyArgs
      else
        let (redirs, s) ← parseredirs buf es fuel tok.s
        let ((argv, more), s) ← parseargs fuel (argc + 1) s
        return (((tok.q, tok.eq) :: argv, redirs ++ more), s)

/-- The loop of `parseline`. -/
def parseback : Nat → Cmd → Nat → Except Panic (Cmd × Nat)
  | 0, _, _ => .error .diverged
  | fuel + 1, cmd, s =>
    let (more, s) := peek buf es s [38]
    if more then parseback fuel (.back cmd) (gettoken buf es s).s else .ok (cmd, s)

mutual

def parseline : Nat → Nat → Except Panic (Cmd × Nat)
  | 0, _ => .error .diverged
  | fuel + 1, s => do
    let (cmd, s) ← parsepipe fuel s
    let (cmd, s) ← parseback buf es fuel cmd s
    let (more, s) := peek buf es s [59]
    if more then
      let (rest, s) ← parseline fuel (gettoken buf es s).s
      return (.list cmd rest, s)
    else
      return (cmd, s)

def parsepipe : Nat → Nat → Except Panic (Cmd × Nat)
  | 0, _ => .error .diverged
  | fuel + 1, s => do
    let (cmd, s) ← parseexec fuel s
    let (more, s) := peek buf es s [124]
    if more then
      let (rest, s) ← parsepipe fuel (gettoken buf es s).s
      return (.pipe cmd rest, s)
    else
      return (cmd, s)

def parseblock : Nat → Nat → Except Panic (Cmd × Nat)
  | 0, _ => .error .diverged
  | fuel + 1, s => do
    let (opened, s) := peek buf es s [40]
    if opened = false then
      .error .parseblock
    else
      let (cmd, s) ← parseline fuel (gettoken buf es s).s
      let (closed, s) := peek buf es s [41]
      if closed = false then
        .error .missingParen
      else
        let (redirs, s) ← parseredirs buf es fuel (gettoken buf es s).s
        return (wrap cmd redirs, s)

def parseexec : Nat → Nat → Except Panic (Cmd × Nat)
  | 0, _ => .error .diverged
  | fuel + 1, s => do
    let (opened, s) := peek buf es s [40]
    if opened then
      parseblock fuel s
    else
      let (redirs, s) ← parseredirs buf es fuel s
      let ((argv, more), s) ← parseargs buf es fuel 0 s
      return (wrap (.exec argv) (redirs ++ more), s)

end

end

/-- A zero is written at the end of every argument and file name. -/
def nulterminate : Cmd → Buffer → Buffer
  | .exec argv, buf => argv.foldl (fun buf arg => Function.update buf arg.2 0) buf
  | .redir cmd target, buf => Function.update (nulterminate cmd buf) target.efile 0
  | .pipe left right, buf => nulterminate right (nulterminate left buf)
  | .list left right, buf => nulterminate right (nulterminate left buf)
  | .back cmd, buf => nulterminate cmd buf

/-- The command and the line after `nulterminate`. -/
def parsecmd (fuel : Nat) (input : List UInt8) : Except Panic (Cmd × Buffer) := do
  let buf : Buffer := fun i => input.getD i 0
  let es := input.length
  let (cmd, s) ← parseline buf es fuel 0
  let (_, s) := peek buf es s []
  if s ≠ es then .error .leftovers else return (cmd, nulterminate cmd buf)

end Xv6.Shell
