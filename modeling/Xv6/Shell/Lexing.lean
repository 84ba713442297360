import Xv6.Shell.Grammar

/-!
# The tokens that the parser reads

`gettoken` takes one token off the rest of the line, and `peek` looks at it.
-/

namespace Xv6.Shell

open List

variable {test : UInt8 → Bool} {buf : Buffer} {input : List UInt8} {n s r es : Nat} {t : Token}

def bufferOf (input : List UInt8) : Buffer := fun i => input.getD i 0

def rest (input : List UInt8) (s : Nat) : List Token := lex s .nothing (input.drop s)

/-! ## Scanning -/

theorem scan_spec : s ≤ scan test buf n s ∧ scan test buf n s ≤ s + n ∧
    (∀ i, s ≤ i → i < scan test buf n s → test (buf i) = true) ∧
    (scan test buf n s < s + n → test (buf (scan test buf n s)) = false) := by
  induction n generalizing s with
  | zero =>
    refine ⟨le_rfl, le_rfl, fun i low high => ?_, fun less => ?_⟩
    · exact absurd (lt_of_le_of_lt low high) (lt_irrefl s)
    · exact absurd less (lt_irrefl s)
  | succ n ih =>
    unfold scan
    split
    next passes =>
      obtain ⟨low, high, all, last⟩ := ih (s := s + 1)
      refine ⟨by omega, by omega, fun i from' below => ?_, fun less => last (by omega)⟩
      rcases Nat.eq_or_lt_of_le from' with rfl | later
      · exact passes
      · exact all i later below
    next fails =>
      refine ⟨le_rfl, by omega, fun i low high => by omega, fun _ => ?_⟩
      simpa using fails

theorem drop_cons (inside : s < input.length) :
    input.drop s = bufferOf input s :: input.drop (s + 1) := by
  rw [drop_eq_getElem_cons inside, bufferOf, getD_eq_getElem _ _ inside]

theorem bufferOf_end : bufferOf input input.length = 0 := by
  simp [bufferOf]

theorem bufferOf_ne_zero (nulFree : ∀ c ∈ input, c ≠ 0) (inside : s < input.length) :
    bufferOf input s ≠ 0 := by
  rw [bufferOf, getD_eq_getElem _ _ inside]
  exact nulFree _ (getElem_mem inside)

/-! ## Tokens at a place -/

@[simp] theorem rest_end : rest input input.length = [] := by
  simp [rest, lex, Begun.flush]

theorem head?_drop_succ : (input.drop s).head? = some 62 ↔ bufferOf input s = 62 := by
  rw [head?_drop, bufferOf, getD_eq_getElem?_getD]
  cases found : input[s]? with
  | none => decide
  | some c => simp

theorem rest_space (inside : s < input.length) (space : isSpace (bufferOf input s) = true) :
    rest input s = rest input (s + 1) := by
  rw [rest, drop_cons inside, lex.eq_def]
  simp only [space, if_true]
  rfl

theorem rest_spaces (low : s ≤ r) (high : r ≤ input.length)
    (spaces : ∀ i, s ≤ i → i < r → isSpace (bufferOf input i) = true) :
    rest input s = rest input r := by
  induction low using Nat.leRec with
  | refl => rfl
  | le_succ_of_le low ih =>
    rw [ih (by omega) fun i from' below => spaces i from' (by omega)]
    exact rest_space (by omega) (spaces _ low (by omega))

theorem rest_symbol (inside : s < input.length) (space : isSpace (bufferOf input s) = false)
    (symbol : symbol? (bufferOf input s) = some t)
    (single : ¬ (bufferOf input s = 62 ∧ bufferOf input (s + 1) = 62)) :
    rest input s = t :: rest input (s + 1) := by
  rw [rest, drop_cons inside, lex.eq_def]
  simp only [space, symbol, head?_drop_succ, if_neg single]
  rfl

theorem rest_append (first : bufferOf input s = 62) (second : bufferOf input (s + 1) = 62) :
    rest input s = .append :: rest input (s + 2) := by
  have inside : s + 1 < input.length := by
    by_contra outside
    have zero : bufferOf input (s + 1) = 0 := by
      rw [bufferOf, getD_eq_default _ _ (by omega)]
    rw [zero] at second
    exact absurd second (by decide)
  rw [rest, drop_cons (by omega), drop_cons inside, first, second]
  rfl

/-! ## Words -/

theorem symbol?_eq_none {c : UInt8} : symbol? c = none ↔ c ∉ symbols := by
  unfold symbol? symbols
  split_ifs <;> simp_all

theorem symbol?_ne_word (c : UInt8) {q e : Nat} : symbol? c ≠ some (.word q e) := by
  unfold symbol?
  split_ifs <;> simp

theorem isWordChar_iff {c : UInt8} :
    isWordChar c = true ↔ isSpace c = false ∧ symbol? c = none := by
  simp [isWordChar, isSpace, symbol?_eq_none]

theorem lex_word {begun : Begun} (inside : s < input.length)
    (word : isWordChar (bufferOf input s) = true) (fresh : begun ≠ .append) :
    lex s begun (input.drop s) = lex (s + 1) (.word (begun.start s)) (input.drop (s + 1)) := by
  obtain ⟨space, symbol⟩ := isWordChar_iff.mp word
  cases begun with
  | append => exact absurd rfl fresh
  | nothing | word q =>
    rw [drop_cons inside, lex.eq_def]
    simp only [space, symbol, Bool.false_eq_true, if_false]

theorem lex_word_end {q : Nat} (inside : s ≤ input.length)
    (ended : s = input.length ∨ isWordChar (bufferOf input s) = false) :
    lex s (.word q) (input.drop s) = .word q s :: rest input s := by
  rcases Nat.eq_or_lt_of_le inside with rfl | inside
  · simp [rest, lex, Begun.flush]
  have noWord : isWordChar (bufferOf input s) = false := by
    rcases ended with rfl | noWord
    · exact absurd inside (lt_irrefl _)
    · exact noWord
  rw [rest, drop_cons inside, lex.eq_def, lex.eq_def s .nothing]
  cases space : isSpace (bufferOf input s) with
  | true => simp [space, Begun.flush]
  | false =>
    cases symbol : symbol? (bufferOf input s) with
    | none => exact absurd (isWordChar_iff.mpr ⟨space, symbol⟩) (by simp [noWord])
    | some t =>
      simp only [space, symbol, Bool.false_eq_true, if_false]
      split <;> simp [Begun.flush]

theorem lex_run {q e : Nat} (low : s ≤ e) (inside : e ≤ input.length)
    (word : ∀ i, s ≤ i → i < e → isWordChar (bufferOf input i) = true)
    (ended : e = input.length ∨ isWordChar (bufferOf input e) = false) :
    lex s (.word q) (input.drop s) = .word q e :: rest input e := by
  induction low using Nat.decreasingInduction with
  | self => exact lex_word_end inside ended
  | of_succ k below ih =>
    rw [lex_word (by omega) (word k le_rfl below) (by nofun)]
    exact ih fun i low high => word i (by omega) high

theorem rest_word {q e : Nat} (low : q < e) (inside : e ≤ input.length)
    (word : ∀ i, q ≤ i → i < e → isWordChar (bufferOf input i) = true)
    (ended : e = input.length ∨ isWordChar (bufferOf input e) = false) :
    rest input q = .word q e :: rest input e := by
  rw [rest, lex_word (by omega) (word q le_rfl low) (by nofun)]
  exact lex_run low inside (fun i from' below => word i (by omega) below) ended

/-! ## The two functions that read tokens -/

def Token.code : Token → UInt8
  | .pipe => 124
  | .lparen => 40
  | .rparen => 41
  | .semi => 59
  | .amp => 38
  | .lt => 60
  | .gt => 62
  | .append => codeAppend
  | .word _ _ => codeWord

def Token.startsWith (toks : List UInt8) : Token → Bool
  | .append => 62 ∈ toks
  | .word _ _ => false
  | t => t.code ∈ toks

/-- The token that starts at a place that is not whitespace. -/
inductive TokenAt (input : List UInt8) (s : Nat) : Token → Nat → Prop
  | symbol {t : Token} : symbol? (bufferOf input s) = some t →
      ¬ (bufferOf input s = 62 ∧ bufferOf input (s + 1) = 62) → TokenAt input s t (s + 1)
  | append : bufferOf input s = 62 → bufferOf input (s + 1) = 62 → TokenAt input s .append (s + 2)
  | word {e : Nat} : s < e → e ≤ input.length →
      (∀ i, s ≤ i → i < e → isWordChar (bufferOf input i) = true) →
      (e = input.length ∨ isWordChar (bufferOf input e) = false) → TokenAt input s (.word s e) e

theorem TokenAt.rest {e : Nat} (inside : s < input.length)
    (space : isSpace (bufferOf input s) = false) (at' : TokenAt input s t e) :
    rest input s = t :: rest input e := by
  cases at' with
  | symbol symbol single => exact rest_symbol inside space symbol single
  | append first second => exact rest_append first second
  | word low high word ended => exact rest_word low high word ended

def skip (input : List UInt8) (s : Nat) : Nat :=
  scan isSpace (bufferOf input) (input.length - s) s

theorem skip_spec (inside : s ≤ input.length) : s ≤ skip input s ∧ skip input s ≤ input.length ∧
    rest input (skip input s) = rest input s ∧
    (skip input s < input.length → isSpace (bufferOf input (skip input s)) = false) := by
  obtain ⟨low, high, spaces, last⟩ := @scan_spec isSpace (bufferOf input) (input.length - s) s
  change s ≤ skip input s at low
  change skip input s ≤ _ at high
  refine ⟨low, by omega, (rest_spaces low (by omega) spaces).symm, fun less => last ?_⟩
  change skip input s < _
  omega

theorem append_inside (second : bufferOf input (s + 1) = 62) : s + 1 < input.length := by
  by_contra outside
  have zero : bufferOf input (s + 1) = 0 := by
    rw [bufferOf, getD_eq_default _ _ (by omega)]
  rw [zero] at second
  exact absurd second (by decide)

theorem TokenAt.bounds {e : Nat} (inside : s < input.length) (at' : TokenAt input s t e) :
    s < e ∧ e ≤ input.length := by
  cases at' with
  | symbol symbol single => exact ⟨Nat.lt_succ_self s, inside⟩
  | append first second => exact ⟨by omega, append_inside second⟩
  | word low high word ended => exact ⟨low, high⟩

theorem classify_spec (nonzero : bufferOf input s ≠ 0) (inside : s < input.length)
    (space : isSpace (bufferOf input s) = false) :
    ∃ t e, classify (bufferOf input) input.length s = (t.code, e) ∧ TokenAt input s t e := by
  unfold classify
  rw [if_neg nonzero]
  split
  next simple =>
    have single : ¬ (bufferOf input s = 62 ∧ bufferOf input (s + 1) = 62) := by
      rintro ⟨isGt, -⟩
      rw [isGt] at simple
      exact absurd simple (by decide)
    rcases simple with is | is | is | is | is | is
    all_goals
      refine ⟨_, s + 1, ?_, .symbol (by rw [is]; rfl) single⟩
      rw [is]
      rfl
  next notSimple =>
    split
    next isGt =>
      split
      next again => exact ⟨.append, s + 2, rfl, .append isGt again⟩
      next once =>
        refine ⟨.gt, s + 1, by rw [isGt]; rfl, .symbol (by rw [isGt]; rfl) ?_⟩
        exact fun both => once both.2
    next notGt =>
      have noSymbol : symbol? (bufferOf input s) = none := by
        rw [symbol?_eq_none]
        simp only [symbols, mem_cons, not_mem_nil, or_false]
        tauto
      have first : isWordChar (bufferOf input s) = true := isWordChar_iff.mpr ⟨space, noSymbol⟩
      obtain ⟨low, high, word, last⟩ := @scan_spec isWordChar (bufferOf input) (input.length - s) s
      set e := scan isWordChar (bufferOf input) (input.length - s) s
      refine ⟨.word s e, e, rfl, .word ?_ (by omega) word ?_⟩
      · rcases Nat.eq_or_lt_of_le low with same | less
        · rw [← same] at last
          exact absurd first (by simp [last (by omega)])
        · exact less
      · rcases Nat.eq_or_lt_of_le high with same | less
        · exact .inl (by omega)
        · exact .inr (last less)

theorem skip_of_rest_nil (nulFree : ∀ c ∈ input, c ≠ 0) (inside : s ≤ input.length)
    (ended : rest input s = []) : skip input s = input.length := by
  obtain ⟨-, high, same, noSpace⟩ := skip_spec inside
  by_contra other
  have before : skip input s < input.length := lt_of_le_of_ne high other
  obtain ⟨t, e, -, at'⟩ := classify_spec (bufferOf_ne_zero nulFree before) before (noSpace before)
  rw [ended, at'.rest before (noSpace before)] at same
  cases same

theorem gettoken_eq : gettoken (bufferOf input) input.length s =
    ⟨(classify (bufferOf input) input.length (skip input s)).1, skip input s,
      (classify (bufferOf input) input.length (skip input s)).2,
      skip input (classify (bufferOf input) input.length (skip input s)).2⟩ := rfl

theorem gettoken_end (nulFree : ∀ c ∈ input, c ≠ 0) (inside : s ≤ input.length)
    (ended : rest input s = []) :
    (gettoken (bufferOf input) input.length s).ret = 0 ∧
      (gettoken (bufferOf input) input.length s).s = input.length := by
  have atEnd := skip_of_rest_nil nulFree inside ended
  have none : classify (bufferOf input) input.length (skip input s) = (0, input.length) := by
    rw [classify, atEnd, if_pos bufferOf_end]
  rw [gettoken_eq, none]
  exact ⟨rfl, skip_of_rest_nil nulFree le_rfl rest_end⟩

theorem gettoken_token {ts : List Token} (nulFree : ∀ c ∈ input, c ≠ 0) (inside : s ≤ input.length)
    (next : rest input s = t :: ts) :
    ∃ g, gettoken (bufferOf input) input.length s = g ∧ g.ret = t.code ∧ rest input g.s = ts ∧
      s < g.s ∧ g.s ≤ input.length ∧ ∀ q e, t = .word q e → g.q = q ∧ g.eq = e := by
  obtain ⟨low, high, same, noSpace⟩ := skip_spec inside
  have before : skip input s < input.length := by
    refine lt_of_le_of_ne high fun atEnd => ?_
    rw [atEnd, next, rest_end] at same
    cases same
  obtain ⟨t', e, classified, at'⟩ :=
    classify_spec (bufferOf_ne_zero nulFree before) before (noSpace before)
  obtain ⟨fromHere, toEnd⟩ := at'.bounds before
  obtain ⟨low', high', same', -⟩ := skip_spec toEnd
  have split : t :: ts = t' :: rest input e := by
    rw [← next, ← same]
    exact at'.rest before (noSpace before)
  obtain ⟨rfl, rfl⟩ := cons.inj split
  have advanced : s < skip input e := by omega
  refine ⟨⟨t.code, skip input s, e, skip input e⟩, ?_, rfl, same', advanced, high',
    fun q e' isWord => ?_⟩
  · rw [gettoken_eq, classified]
  · subst isWord
    cases at' with
    | symbol symbol single => exact absurd symbol (symbol?_ne_word _)
    | word low high word ended => exact ⟨rfl, rfl⟩

theorem startsWith_of_symbol {c : UInt8} {toks : List UInt8} (symbol : symbol? c = some t) :
    t.startsWith toks = decide (c ∈ toks) := by
  revert symbol
  unfold symbol?
  split_ifs with h h h h h h h
  all_goals
    intro same
    cases same
  all_goals
    subst h
    rfl

theorem peek_spec (toks : List UInt8) (nulFree : ∀ c ∈ input, c ≠ 0)
    (symbolic : ∀ c ∈ toks, c ∈ symbols) (inside : s ≤ input.length) :
    ∃ s', peek (bufferOf input) input.length s toks =
        ((rest input s).head?.any (Token.startsWith toks), s') ∧
      s ≤ s' ∧ s' ≤ input.length ∧ rest input s' = rest input s := by
  obtain ⟨low, high, same, noSpace⟩ := skip_spec inside
  refine ⟨skip input s, ?_, low, high, same⟩
  change (decide (bufferOf input (skip input s) ≠ 0 ∧ bufferOf input (skip input s) ∈ toks), _) = _
  refine Prod.ext ?_ rfl
  rcases Nat.eq_or_lt_of_le high with atEnd | before
  · rw [← same, atEnd, rest_end, bufferOf_end]
    rfl
  obtain ⟨t, e, -, at'⟩ := classify_spec (bufferOf_ne_zero nulFree before) before (noSpace before)
  rw [← same, at'.rest before (noSpace before)]
  simp only [ne_eq, bufferOf_ne_zero nulFree before, not_false_eq_true, true_and, head?_cons,
    Option.any_some]
  cases at' with
  | symbol symbol single => exact (startsWith_of_symbol symbol).symm
  | append first second =>
    rw [first]
    rfl
  | word low high word ended =>
    have noSymbol := symbol?_eq_none.mp (isWordChar_iff.mp (word _ le_rfl low)).2
    simpa [Token.startsWith] using fun member => noSymbol (symbolic _ member)

end Xv6.Shell
