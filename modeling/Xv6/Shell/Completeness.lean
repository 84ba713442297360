import Xv6.Shell.Soundness

/-!
# What derives from the grammar is accepted

The parser is greedy: it takes the tokens of a derivation when the token that
follows cannot continue it.
-/

namespace Xv6.Shell

open List
open Nonterminal

variable {input : List UInt8} {s fuel : Nat} {α : Type} {ts more : List Token}

/-- The parser returns `a` and leaves the tokens `more`. -/
def Accepts (input : List UInt8) (s : Nat) (result : Except Panic (α × Nat)) (a : α)
    (more : List Token) : Prop :=
  ∃ s', result = .ok (a, s') ∧ s ≤ s' ∧ s' ≤ input.length ∧ rest input s' = more

/-- The tokens that can follow a nonterminal. -/
def Nonterminal.followers : Nonterminal → List Token
  | .line => [.rparen]
  | .pipe => [.rparen, .amp, .semi]
  | .exec => [.rparen, .amp, .semi, .pipe]

def Follows (symbol : Nonterminal) (more : List Token) : Prop :=
  ∀ t ∈ more.head?, t ∈ symbol.followers

variable {symbol : Nonterminal}

theorem Follows.not_startsWith {toks : List UInt8} (follows : Follows symbol more)
    (apart : symbol.followers.any (Token.startsWith toks) = false) :
    more.head?.any (Token.startsWith toks) = false := by
  cases head : more.head? with
  | none => rfl
  | some t =>
    have starts := any_eq_false.mp apart t (follows t head)
    simpa using starts

theorem Follows.mono {symbol symbol' : Nonterminal} (follows : Follows symbol more)
    (subset : symbol.followers ⊆ symbol'.followers) : Follows symbol' more :=
  fun t head => subset (follows t head)

theorem ok_bind {β : Type} {a : α} {f : α → Except Panic β} : (Except.ok a >>= f) = f a := rfl

section

variable (nulFree : ∀ c ∈ input, c ≠ 0)

include nulFree

theorem peek_miss (toks : List UInt8) (symbolic : ∀ c ∈ toks, c ∈ symbols)
    (inside : s ≤ input.length) (next : rest input s = more)
    (apart : more.head?.any (Token.startsWith toks) = false) :
    ∃ s', peek (bufferOf input) input.length s toks = (false, s') ∧ s ≤ s' ∧ s' ≤ input.length ∧
      rest input s' = more := by
  obtain ⟨s', peeked, low, high, same⟩ := peek_spec toks nulFree symbolic inside
  rw [next] at peeked same
  rw [apart] at peeked
  exact ⟨s', peeked, low, high, same⟩

theorem peek_hit (toks : List UInt8) {t : Token} (symbolic : ∀ c ∈ toks, c ∈ symbols)
    (inside : s ≤ input.length) (next : rest input s = t :: ts) (isOp : t.startsWith toks = true) :
    ∃ s' g, peek (bufferOf input) input.length s toks = (true, s') ∧
      gettoken (bufferOf input) input.length s' = g ∧ s ≤ s' ∧ s' ≤ input.length ∧
      rest input s' = t :: ts ∧ g.ret = t.code ∧ s < g.s ∧ g.s ≤ input.length ∧
      rest input g.s = ts := by
  obtain ⟨s', peeked, low, high, same⟩ := peek_spec toks nulFree symbolic inside
  rw [next] at peeked same
  obtain ⟨g, is, code, taken, low', high', -⟩ := gettoken_token nulFree high same
  refine ⟨s', g, ?_, is, low, high, same, code, by omega, high', taken⟩
  rw [peeked]
  exact Prod.ext isOp rfl

omit nulFree in
theorem startsWith_of_redir? {op : Token} {q e : Nat} {redir : Redir}
    (made : op.redir? q e = some redir) : op.startsWith [60, 62] = true := by
  cases op with
  | lt => rfl
  | gt => rfl
  | append => rfl
  | _ => cases made

theorem parseredirs_accepts {redirs : List Redir} (derives : Redirs ts redirs)
    (inside : s ≤ input.length) (next : rest input s = ts ++ more)
    (apart : more.head?.any (Token.startsWith [60, 62]) = false)
    (enough : input.length - s < fuel) :
    Accepts input s (parseredirs (bufferOf input) input.length fuel s) redirs more := by
  induction derives generalizing s fuel with
  | nil =>
    rcases fuel with _ | fuel
    · omega
    obtain ⟨s', peeked, low, high, left⟩ :=
      peek_miss nulFree [60, 62] (by simp [symbols]) inside next apart
    refine ⟨s', ?_, low, high, left⟩
    unfold parseredirs
    simp only [peeked]
    rfl
  | @cons op q e redir ts redirs made _ ih =>
    rcases fuel with _ | fuel
    · omega
    have isOp := startsWith_of_redir? made
    obtain ⟨s₁, g, peeked, isG, low₁, high₁, same₁, code, low₂, high₂, left₂⟩ :=
      peek_hit nulFree [60, 62] (by simp [symbols]) inside next isOp
    obtain ⟨file, is, word, left₃, low₃, high₃, place⟩ := gettoken_token nulFree high₂ left₂
    obtain ⟨isStart, isEnd⟩ := place q e rfl
    have shorter : input.length - file.s < fuel := by omega
    obtain ⟨s₄, parsed, low₄, high₄, left₄⟩ := ih high₃ left₃ shorter
    obtain ⟨redir', made', made''⟩ := redirOf_code isOp q e
    obtain rfl : redir = redir' := Option.some.inj (made.symm.trans made'')
    refine ⟨s₄, ?_, by omega, high₄, left₄⟩
    unfold parseredirs
    simp only [peeked, isG, is, word, code, isStart, isEnd, parsed, made']
    rfl

variable {argv : List (Nat × Nat)}

/-- What follows the arguments ends the loop of `parseexec`. -/
theorem parseargs_accepts {redirs : List Redir} {argc : Nat}
    (derives : Args ts argv redirs) (few : argc + argv.length ≤ maxArgs - 1)
    (inside : s ≤ input.length) (next : rest input s = ts ++ more) (follows : Follows .exec more)
    (enough : input.length - s < fuel) :
    Accepts input s (parseargs (bufferOf input) input.length fuel argc s) (argv, redirs) more := by
  induction derives generalizing s fuel argc with
  | nil =>
    rcases fuel with _ | fuel
    · omega
    rw [nil_append] at next
    obtain ⟨s₁, peeked, low, high, same⟩ :=
      peek_spec [124, 41, 38, 59] nulFree (by simp [symbols]) inside
    rw [next] at peeked same
    unfold parseargs
    cases more with
    | nil =>
      obtain ⟨noToken, atEnd⟩ := gettoken_end nulFree high same
      refine ⟨input.length, ?_, inside, le_rfl, rest_end⟩
      simp only [peeked, noToken, atEnd]
      rfl
    | cons t ts =>
      have isStop : t.startsWith [124, 41, 38, 59] = true := by
        have member := follows t rfl
        simp only [followers, mem_cons, not_mem_nil, or_false] at member
        rcases member with rfl | rfl | rfl | rfl <;> rfl
      refine ⟨s₁, ?_, low, high, same⟩
      simp only [peeked, head?_cons, Option.any_some, isStop]
      rfl
  | @cons q e ts redirs us argv more' derives rest' ih =>
    rcases fuel with _ | fuel
    · omega
    obtain ⟨s₁, peeked, low₁, high₁, same₁⟩ :=
      peek_miss nulFree [124, 41, 38, 59] (by simp [symbols]) inside next rfl
    obtain ⟨tok, is, word, left₂, low₂, high₂, place⟩ := gettoken_token nulFree high₁ same₁
    obtain ⟨isStart, isEnd⟩ := place q e rfl
    have left₂' : rest input tok.s = ts ++ (us ++ more) := by
      rw [left₂, ← append_assoc]
      rfl
    have apart : (us ++ more).head?.any (Token.startsWith [60, 62]) = false := by
      rcases rest' with _ | _
      · exact follows.not_startsWith rfl
      · rfl
    have shorter : input.length - tok.s < fuel := by omega
    obtain ⟨s₃, parsed₃, low₃, high₃, left₃⟩ :=
      parseredirs_accepts nulFree derives high₂ left₂' apart shorter
    have fewer : argc + 1 + argv.length ≤ maxArgs - 1 := by
      simp only [length_cons] at few
      omega
    have shorter' : input.length - s₃ < fuel := by omega
    obtain ⟨s₄, parsed₄, low₄, high₄, left₄⟩ := ih fewer high₃ left₃ shorter'
    have room : ¬ argc + 1 ≥ maxArgs := by
      unfold maxArgs at *
      omega
    refine ⟨s₄, ?_, by omega, high₄, left₄⟩
    unfold parseargs
    simp only [peeked, is, word, isStart, isEnd, parsed₃, if_neg room, ok_bind, parsed₄]
    rfl

theorem parseback_accepts (cmd : Cmd) {amps : Nat} (inside : s ≤ input.length)
    (next : rest input s = replicate amps .amp ++ more)
    (apart : more.head?.any (Token.startsWith [38]) = false) (enough : input.length - s < fuel) :
    Accepts input s (parseback (bufferOf input) input.length fuel cmd s) (Cmd.back^[amps] cmd)
      more := by
  induction amps generalizing s fuel cmd with
  | zero =>
    rcases fuel with _ | fuel
    · omega
    obtain ⟨s', peeked, low, high, left⟩ :=
      peek_miss nulFree [38] (by simp [symbols]) inside next apart
    refine ⟨s', ?_, low, high, left⟩
    unfold parseback
    simp only [peeked]
    rfl
  | succ amps ih =>
    rcases fuel with _ | fuel
    · omega
    obtain ⟨s₁, g, peeked, isG, low₁, high₁, -, -, low₂, high₂, left₂⟩ :=
      peek_hit nulFree [38] (by simp [symbols]) inside next rfl
    have shorter : input.length - g.s < fuel := by omega
    have looped : Accepts input g.s (parseback (bufferOf input) input.length fuel (.back cmd) g.s)
        (Cmd.back^[amps] (.back cmd)) more :=
      ih (.back cmd) high₂ left₂ shorter
    obtain ⟨s₃, parsed, low₃, high₃, left₃⟩ := looped
    refine ⟨s₃, ?_, by omega, high₃, left₃⟩
    unfold parseback
    simp only [peeked, isG, parsed]
    rfl

omit nulFree in
theorem simple_not_block {us : List Token} {redirs more' : List Redir}
    (derives : Redirs ts redirs) (args : Args us argv more') (follows : Follows .exec more) :
    ((ts ++ us) ++ more).head?.any (Token.startsWith [40]) = false := by
  cases derives with
  | nil =>
    cases args with
    | nil =>
      exact follows.not_startsWith rfl
    | cons _ _ => rfl
  | @cons op q e redir ts redirs made _ =>
    cases op with
    | lt => rfl
    | gt => rfl
    | append => rfl
    | _ => cases made

omit nulFree in
theorem follows_cons {t : Token} (member : t ∈ symbol.followers) :
    Follows symbol (t :: more) := by
  rintro _ ⟨⟩
  exact member

omit nulFree in
theorem amps_follow {amps : Nat} (follows : Follows .pipe more) :
    Follows .pipe (replicate amps .amp ++ more) := by
  cases amps with
  | zero => exact follows
  | succ amps =>
    rintro t ⟨⟩
    simp [followers]

/-- The parser of a nonterminal, and the fuel it needs. -/
def Nonterminal.parse (buf : Buffer) (es : Nat) : Nonterminal → Nat → Nat → Except Panic (Cmd × Nat)
  | .line => parseline buf es
  | .pipe => parsepipe buf es
  | .exec => parseexec buf es

def Nonterminal.depth : Nonterminal → Nat
  | .line => 4
  | .pipe => 3
  | .exec => 2

theorem parse_accepts {cmd : Cmd} (derives : Derives symbol ts cmd)
    (inside : s ≤ input.length) (next : rest input s = ts ++ more) (follows : Follows symbol more)
    (enough : 4 * (input.length - s) + symbol.depth ≤ fuel) :
    Accepts input s (symbol.parse (bufferOf input) input.length fuel s) cmd more := by
  induction derives generalizing s fuel more with
  | @line ts cmd amps _ ih =>
    simp only [depth, parse] at enough ih ⊢
    rcases fuel with _ | fuel
    · omega
    rw [append_assoc] at next
    have enough₁ : 4 * (input.length - s) + 3 ≤ fuel := by omega
    have follows₁ : Follows .pipe more := follows.mono (by simp [followers])
    obtain ⟨s₁, parsed₁, low₁, high₁, left₁⟩ := ih inside next (amps_follow follows₁) enough₁
    have apart : more.head?.any (Token.startsWith [38]) = false := follows.not_startsWith rfl
    have shorter : input.length - s₁ < fuel := by omega
    obtain ⟨s₂, parsed₂, low₂, high₂, left₂⟩ :=
      parseback_accepts nulFree cmd high₁ left₁ apart shorter
    have apart' : more.head?.any (Token.startsWith [59]) = false := follows.not_startsWith rfl
    obtain ⟨s₃, peeked, low₃, high₃, left₃⟩ :=
      peek_miss nulFree [59] (by simp [symbols]) high₂ left₂ apart'
    refine ⟨s₃, ?_, by omega, high₃, left₃⟩
    unfold parseline
    simp only [parsed₁, ok_bind, parsed₂, peeked]
    rfl
  | @list ts cmd us rest amps _ _ ih ih' =>
    simp only [depth, parse] at enough ih ih' ⊢
    rcases fuel with _ | fuel
    · omega
    rw [append_assoc, append_assoc] at next
    have enough₁ : 4 * (input.length - s) + 3 ≤ fuel := by omega
    have follows₁ : Follows .pipe (.semi :: (us ++ more)) := follows_cons (by simp [followers])
    obtain ⟨s₁, parsed₁, low₁, high₁, left₁⟩ := ih inside next (amps_follow follows₁) enough₁
    have shorter : input.length - s₁ < fuel := by omega
    obtain ⟨s₂, parsed₂, low₂, high₂, left₂⟩ :=
      parseback_accepts nulFree cmd high₁ left₁ rfl shorter
    obtain ⟨s₃, g, peeked, isG, low₃, high₃, -, -, low₄, high₄, left₄⟩ :=
      peek_hit nulFree [59] (by simp [symbols]) high₂ left₂ rfl
    have enough₂ : 4 * (input.length - g.s) + 4 ≤ fuel := by omega
    obtain ⟨s₅, parsed₃, low₅, high₅, left₅⟩ := ih' high₄ left₄ follows enough₂
    refine ⟨s₅, ?_, by omega, high₅, left₅⟩
    unfold parseline
    simp only [parsed₁, ok_bind, parsed₂, peeked, if_true, isG, parsed₃]
    rfl
  | @single ts cmd _ ih =>
    simp only [depth, parse] at enough ih ⊢
    rcases fuel with _ | fuel
    · omega
    have enough₁ : 4 * (input.length - s) + 2 ≤ fuel := by omega
    have follows₁ : Follows .exec more := follows.mono (by simp [followers])
    obtain ⟨s₁, parsed₁, low₁, high₁, left₁⟩ := ih inside next follows₁ enough₁
    have apart : more.head?.any (Token.startsWith [124]) = false := follows.not_startsWith rfl
    obtain ⟨s₂, peeked, low₂, high₂, left₂⟩ :=
      peek_miss nulFree [124] (by simp [symbols]) high₁ left₁ apart
    refine ⟨s₂, ?_, by omega, high₂, left₂⟩
    unfold parsepipe
    simp only [parsed₁, ok_bind, peeked]
    rfl
  | @pipe ts cmd us rest _ _ ih ih' =>
    simp only [depth, parse] at enough ih ih' ⊢
    rcases fuel with _ | fuel
    · omega
    rw [append_assoc] at next
    have enough₁ : 4 * (input.length - s) + 2 ≤ fuel := by omega
    have follows₁ : Follows .exec (.pipe :: (us ++ more)) := follows_cons (by simp [followers])
    obtain ⟨s₁, parsed₁, low₁, high₁, left₁⟩ := ih inside next follows₁ enough₁
    obtain ⟨s₂, g, peeked, isG, low₂, high₂, -, -, low₃, high₃, left₃⟩ :=
      peek_hit nulFree [124] (by simp [symbols]) high₁ left₁ rfl
    have enough₂ : 4 * (input.length - g.s) + 3 ≤ fuel := by omega
    obtain ⟨s₄, parsed₂, low₄, high₄, left₄⟩ := ih' high₃ left₃ follows enough₂
    refine ⟨s₄, ?_, by omega, high₄, left₄⟩
    unfold parsepipe
    simp only [parsed₁, ok_bind, peeked, if_true, isG, parsed₂]
    rfl
  | @block ts cmd us redirs _ derives ih =>
    simp only [depth, parse] at enough ih ⊢
    obtain ⟨fuel, rfl⟩ : ∃ n, fuel = n + 2 := ⟨fuel - 2, by omega⟩
    rw [cons_append, append_assoc] at next
    -- `parseblock` looks at the parenthesis once more
    obtain ⟨s₁, g₁, peeked₁, -, low₁, high₁, same₁, -⟩ :=
      peek_hit nulFree [40] (by simp [symbols]) inside next rfl
    obtain ⟨s₂, g₂, peeked₂, isG₂, low₂, high₂, -, -, low₃, high₃, left₃⟩ :=
      peek_hit nulFree [40] (by simp [symbols]) high₁ same₁ rfl
    have enough₂ : 4 * (input.length - g₂.s) + 4 ≤ fuel := by omega
    have follows₂ : Follows .line (.rparen :: (us ++ more)) := follows_cons (by simp [followers])
    obtain ⟨s₄, parsed₄, low₄, high₄, left₄⟩ := ih high₃ left₃ follows₂ enough₂
    obtain ⟨s₅, g₅, peeked₅, isG₅, low₅, high₅, -, -, low₆, high₆, left₆⟩ :=
      peek_hit nulFree [41] (by simp [symbols]) high₄ left₄ rfl
    have apart : more.head?.any (Token.startsWith [60, 62]) = false := follows.not_startsWith rfl
    have shorter : input.length - g₅.s < fuel := by omega
    obtain ⟨s₇, parsed₇, low₇, high₇, left₇⟩ :=
      parseredirs_accepts nulFree derives high₆ left₆ apart shorter
    refine ⟨s₇, ?_, by omega, high₇, left₇⟩
    unfold parseexec
    simp only [peeked₁, if_true]
    unfold parseblock
    simp only [peeked₂, isG₂, parsed₄, ok_bind, peeked₅, isG₅, parsed₇]
    rfl
  | @simple ts redirs us argv more' derives args count =>
    simp only [depth, parse] at enough ⊢
    rcases fuel with _ | fuel
    · omega
    obtain ⟨s₁, peeked, low₁, high₁, left₁⟩ :=
      peek_miss nulFree [40] (by simp [symbols]) inside next
      (simple_not_block derives args follows)
    rw [append_assoc] at left₁
    have apart : (us ++ more).head?.any (Token.startsWith [60, 62]) = false := by
      cases args with
      | nil =>
        exact follows.not_startsWith rfl
      | cons _ _ => rfl
    have shorter : input.length - s₁ < fuel := by omega
    obtain ⟨s₂, parsed₂, low₂, high₂, left₂⟩ :=
      parseredirs_accepts nulFree derives high₁ left₁ apart shorter
    have shorter' : input.length - s₂ < fuel := by omega
    obtain ⟨s₃, parsed₃, low₃, high₃, left₃⟩ :=
      parseargs_accepts nulFree args (by simpa using count : 0 + argv.length ≤ maxArgs - 1) high₂
        left₂ follows shorter'
    refine ⟨s₃, ?_, by omega, high₃, left₃⟩
    unfold parseexec
    simp only [peeked, parsed₂, ok_bind, parsed₃]
    rfl

end

end Xv6.Shell
