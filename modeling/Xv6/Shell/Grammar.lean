import Xv6.Shell.Parser

/-!
# The grammar of the shell

Tokens and derivations, stated without the parser. A word is a maximal run of
characters that are neither whitespace nor symbols, known by the places where it
starts and ends. A derivation says which command a sequence of tokens stands for.
-/

namespace Xv6.Shell

inductive Token where
  | pipe
  | lparen
  | rparen
  | semi
  | amp
  | lt
  | gt
  | append
  | word (q eq : Nat)
  deriving DecidableEq

def symbol? (c : UInt8) : Option Token :=
  if c = 124 then some .pipe
  else if c = 40 then some .lparen
  else if c = 41 then some .rparen
  else if c = 59 then some .semi
  else if c = 38 then some .amp
  else if c = 60 then some .lt
  else if c = 62 then some .gt
  else none

/-- What the text before has begun. -/
inductive Begun where
  | nothing
  | word (q : Nat)
  /-- The first character of `>>`. -/
  | append

/-- The word that ends here, if one was begun. -/
def Begun.flush (pos : Nat) : Begun → List Token
  | .word q => [.word q pos]
  | _ => []

/-- Where the word starts that goes on here. -/
def Begun.start (pos : Nat) : Begun → Nat
  | .word q => q
  | _ => pos

/-- The tokens of a text at `pos`. -/
def lex (pos : Nat) : Begun → List UInt8 → List Token
  | begun, [] => begun.flush pos
  | .append, _ :: rest => lex (pos + 1) .nothing rest
  | begun, c :: rest =>
    if isSpace c then
      begun.flush pos ++ lex (pos + 1) .nothing rest
    else
      match symbol? c with
      | none => lex (pos + 1) (.word (begun.start pos)) rest
      | some t =>
        if c = 62 ∧ rest.head? = some 62 then
          begun.flush pos ++ .append :: lex (pos + 1) .append rest
        else
          begun.flush pos ++ t :: lex (pos + 1) .nothing rest

def tokens (input : List UInt8) : List Token := lex 0 .nothing input

/-- The redirection of an operator and the word after it. -/
def Token.redir? (q eq : Nat) : Token → Option Redir
  | .lt => some ⟨q, eq, 0, 0⟩
  | .gt => some ⟨q, eq, 0x601, 1⟩
  | .append => some ⟨q, eq, 0x201, 1⟩
  | _ => none

inductive Redirs : List Token → List Redir → Prop
  | nil : Redirs [] []
  | cons {op q eq redir ts redirs} : op.redir? q eq = some redir → Redirs ts redirs →
      Redirs (op :: .word q eq :: ts) (redir :: redirs)

/-- Words, each with the redirections after it. -/
inductive Args : List Token → List (Nat × Nat) → List Redir → Prop
  | nil : Args [] [] []
  | cons {q eq ts redirs us argv more} : Redirs ts redirs → Args us argv more →
      Args (.word q eq :: (ts ++ us)) ((q, eq) :: argv) (redirs ++ more)

inductive Nonterminal where
  | line
  | pipe
  | exec
  deriving DecidableEq

/-- `Derives symbol ts cmd`: the tokens derive from the symbol, and mean `cmd`. -/
inductive Derives : Nonterminal → List Token → Cmd → Prop
  | line {ts cmd} (amps : Nat) : Derives .pipe ts cmd →
      Derives .line (ts ++ List.replicate amps .amp) (Cmd.back^[amps] cmd)
  | list {ts cmd us rest} (amps : Nat) : Derives .pipe ts cmd → Derives .line us rest →
      Derives .line (ts ++ (List.replicate amps .amp ++ .semi :: us))
        (.list (Cmd.back^[amps] cmd) rest)
  | single {ts cmd} : Derives .exec ts cmd → Derives .pipe ts cmd
  | pipe {ts cmd us rest} : Derives .exec ts cmd → Derives .pipe us rest →
      Derives .pipe (ts ++ .pipe :: us) (.pipe cmd rest)
  | block {ts cmd us redirs} : Derives .line ts cmd → Redirs us redirs →
      Derives .exec (.lparen :: (ts ++ .rparen :: us)) (wrap cmd redirs)
  | simple {ts redirs us argv more} : Redirs ts redirs → Args us argv more →
      argv.length ≤ maxArgs - 1 → Derives .exec (ts ++ us) (wrap (.exec argv) (redirs ++ more))

/-- The places of all arguments and file names of a command. -/
def Cmd.strings : Cmd → List (Nat × Nat)
  | .exec argv => argv
  | .redir cmd target => cmd.strings ++ [(target.file, target.efile)]
  | .pipe left right => left.strings ++ right.strings
  | .list left right => left.strings ++ right.strings
  | .back cmd => cmd.strings

/-- The C string at `p` is `text`. -/
def IsString (buf : Buffer) (p : Nat) (text : List UInt8) : Prop :=
  (∀ i c, text[i]? = some c → buf (p + i) = c ∧ c ≠ 0) ∧ buf (p + text.length) = 0

end Xv6.Shell
