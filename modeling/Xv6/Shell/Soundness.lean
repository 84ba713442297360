import Xv6.Shell.Lexing

/-!
# What the parser accepts derives from the grammar

`Reads` says what a parser does with the tokens from a place on: it either takes
tokens off that derive what it returns, or it stops with a panic. With enough
fuel it does not diverge.
-/

namespace Xv6.Shell

open List

variable {input : List UInt8} {s s' fuel : Nat} {α β : Type} {enough enough' : Prop}

/-- The parser takes tokens from `s` on that derive its result, or it stops. -/
def Reads (input : List UInt8) (enough : Prop) (s : Nat) (result : Except Panic (α × Nat))
    (derives : List Token → α → Prop) : Prop :=
  match result with
  | .ok (a, s') => s ≤ s' ∧ s' ≤ input.length ∧
      ∃ ts, rest input s = ts ++ rest input s' ∧ derives ts a
  | .error panic => enough → panic ≠ .diverged

namespace Reads

variable {result : Except Panic (α × Nat)} {derives : List Token → α → Prop}
  {derives' : List Token → β → Prop}

theorem ok {a : α} (low : s ≤ s') (high : s' ≤ input.length) (same : rest input s' = rest input s)
    (empty : derives [] a) : Reads input enough s (.ok (a, s')) derives :=
  ⟨low, high, [], by rw [same, nil_append], empty⟩

theorem error {panic : Panic} (stops : panic ≠ .diverged) :
    Reads input enough s (.error panic) derives := fun _ => stops

theorem diverges (little : ¬ enough) : Reads input enough s (.error .diverged) derives :=
  fun isEnough => absurd isEnough little

theorem mono (reads : Reads input enough' s result derives) (implies : enough → enough') :
    Reads input enough s result derives := by
  unfold Reads at reads ⊢
  split at reads
  next => exact reads
  next => exact fun isEnough => reads (implies isEnough)

theorem weaken {derives' : List Token → α → Prop} (reads : Reads input enough s result derives)
    (implies : ∀ ts a, derives ts a → derives' ts a) : Reads input enough s result derives' := by
  unfold Reads at reads ⊢
  split at reads
  next =>
    obtain ⟨low, high, ts, split, derived⟩ := reads
    exact ⟨low, high, ts, split, implies ts _ derived⟩
  next => exact reads

theorem after {taken : List Token} {derives' : List Token → α → Prop}
    (low : s ≤ s') (split : rest input s = taken ++ rest input s')
    (reads : Reads input enough s' result fun ts a => derives' (taken ++ ts) a) :
    Reads input enough s result derives' := by
  unfold Reads at reads ⊢
  split at reads
  next a s'' =>
    obtain ⟨low', high, ts, split', derived⟩ := reads
    exact ⟨le_trans low low', high, taken ++ ts, by rw [split, split', append_assoc], derived⟩
  next => exact reads

theorem afterSpace {derives : List Token → α → Prop} (low : s ≤ s')
    (same : rest input s' = rest input s) (reads : Reads input enough s' result derives) :
    Reads input enough s result derives :=
  after low (show rest input s = [] ++ rest input s' from same.symm) reads

theorem bind {f : α × Nat → Except Panic (β × Nat)} (first : Reads input enough s result derives)
    (second : ∀ a s' ts, s ≤ s' → s' ≤ input.length → derives ts a →
      Reads input enough s' (f (a, s')) fun us b => derives' (ts ++ us) b) :
    Reads input enough s (result >>= f) derives' := by
  match result with
  | .error panic => exact first
  | .ok (a, s') =>
    obtain ⟨low, high, ts, split, derived⟩ := first
    exact after low split (second a s' ts low high derived)

end Reads

section

variable (nulFree : ∀ c ∈ input, c ≠ 0)

include nulFree

theorem gettoken_peeked {toks : List UInt8} (inside : s ≤ input.length)
    (hit : (rest input s).head?.any (Token.startsWith toks) = true) :
    ∃ t, t.startsWith toks = true ∧
      rest input s = t :: rest input (gettoken (bufferOf input) input.length s).s ∧
      (gettoken (bufferOf input) input.length s).ret = t.code ∧
      s < (gettoken (bufferOf input) input.length s).s ∧
      (gettoken (bufferOf input) input.length s).s ≤ input.length := by
  cases next : rest input s with
  | nil =>
    rw [next] at hit
    cases hit
  | cons t ts =>
    obtain ⟨g, is, code, taken, low, high, -⟩ := gettoken_token nulFree inside next
    rw [next] at hit
    rw [is, taken]
    exact ⟨t, hit, rfl, code, low, high⟩

omit nulFree in
theorem Token.eq_of_startsWith {op t : Token} (plain : t ≠ .gt)
    (isOp : op.startsWith [t.code] = true) : op = t := by
  revert isOp plain
  cases op <;> cases t <;> simp [Token.startsWith, Token.code, codeWord, codeAppend]

/-- `peek` for one symbol, and the `gettoken` that takes it off. -/
theorem peek_symbol (c : UInt8) (t : Token) (code : t.code = c) (plain : t ≠ .gt ∧ c ∈ symbols)
    (inside : s ≤ input.length) : ∃ more s₁,
    peek (bufferOf input) input.length s [c] = (more, s₁) ∧ s ≤ s₁ ∧ s₁ ≤ input.length ∧
      rest input s₁ = rest input s ∧
      (more = true → rest input s = [t] ++ rest input (gettoken (bufferOf input) input.length s₁).s ∧
        s₁ < (gettoken (bufferOf input) input.length s₁).s ∧
        (gettoken (bufferOf input) input.length s₁).s ≤ input.length) := by
  subst code
  obtain ⟨s₁, peeked, low, high, same⟩ := peek_spec [t.code] nulFree (by simp [plain.2]) inside
  refine ⟨_, s₁, peeked, low, high, same, fun hit => ?_⟩
  rw [← same] at hit ⊢
  obtain ⟨op, isOp, next, -, low', high'⟩ := gettoken_peeked nulFree high hit
  obtain rfl := Token.eq_of_startsWith plain.1 isOp
  exact ⟨next, low', high'⟩

omit nulFree in
theorem Token.code_ne_zero {t : Token} : t.code ≠ 0 := by
  cases t <;> simp [Token.code, codeWord, codeAppend]

omit nulFree in
theorem Token.eq_word_of_code {t : Token} (code : t.code = codeWord) : ∃ q e, t = .word q e := by
  cases t with
  | word q e => exact ⟨q, e, rfl⟩
  | _ => exact absurd code (by decide)

theorem gettoken_word (inside : s ≤ input.length)
    (isWord : (gettoken (bufferOf input) input.length s).ret = codeWord) :
    rest input s = .word (gettoken (bufferOf input) input.length s).q
        (gettoken (bufferOf input) input.length s).eq ::
          rest input (gettoken (bufferOf input) input.length s).s ∧
      s < (gettoken (bufferOf input) input.length s).s ∧
      (gettoken (bufferOf input) input.length s).s ≤ input.length := by
  cases next : rest input s with
  | nil =>
    rw [(gettoken_end nulFree inside next).1] at isWord
    exact absurd isWord (by decide)
  | cons t ts =>
    obtain ⟨g, is, code, taken, low, high, place⟩ := gettoken_token nulFree inside next
    rw [is] at isWord ⊢
    obtain ⟨q, e, rfl⟩ := Token.eq_word_of_code (code.symm.trans isWord)
    obtain ⟨isStart, isEnd⟩ := place q e rfl
    rw [taken, isStart, isEnd]
    exact ⟨rfl, low, high⟩

omit nulFree in
/-- The operator that `peek` found is one of the three. -/
theorem redirOf_code {op : Token} (isOp : op.startsWith [60, 62] = true) (q e : Nat) :
    ∃ redir, redirOf op.code q e = some redir ∧ op.redir? q e = some redir := by
  cases op with
  | lt | gt | append => exact ⟨_, rfl, rfl⟩
  | word _ _ => cases isOp
  | _ => exact absurd isOp (by decide)

theorem parseredirs_reads (inside : s ≤ input.length) :
    Reads input (input.length - s < fuel) s (parseredirs (bufferOf input) input.length fuel s)
      Redirs := by
  induction fuel generalizing s with
  | zero => exact .diverges (by omega)
  | succ fuel ih =>
    obtain ⟨s₁, peeked, low, high, same⟩ := peek_spec [60, 62] nulFree (by simp [symbols]) inside
    unfold parseredirs
    simp only [peeked]
    split
    next hit =>
      rw [← same] at hit
      obtain ⟨op, isOp, next, code, low', high'⟩ := gettoken_peeked nulFree high hit
      set g := gettoken (bufferOf input) input.length s₁
      split
      next => exact .error (by simp)
      next isWord =>
        obtain ⟨word, low'', high''⟩ := gettoken_word nulFree high' (not_not.mp isWord)
        set file := gettoken (bufferOf input) input.length g.s
        obtain ⟨redir, made, derived⟩ := redirOf_code isOp file.q file.eq
        have taken : rest input s = [op, .word file.q file.eq] ++ rest input file.s := by
          rw [← same, next, word]
          rfl
        refine .after (by omega) taken (.bind ((ih high'').mono fun _ => by omega) ?_)
        intro redirs s₂ ts low₂ high₂ derives
        rw [code, made]
        refine .ok le_rfl high₂ rfl ?_
        rw [append_nil]
        exact .cons derived derives
    next => exact .ok low high same .nil

/-- At most `maxArgs - 1` words are taken, those before included. -/
theorem parseargs_reads {argc : Nat} (inside : s ≤ input.length) (few : argc < maxArgs) :
    Reads input (input.length - s < fuel) s (parseargs (bufferOf input) input.length fuel argc s)
      fun ts parsed => Args ts parsed.1 parsed.2 ∧ argc + parsed.1.length ≤ maxArgs - 1 := by
  induction fuel generalizing s argc with
  | zero => exact .diverges (by omega)
  | succ fuel ih =>
    obtain ⟨s₁, peeked, low, high, same⟩ :=
      peek_spec [124, 41, 38, 59] nulFree (by simp [symbols]) inside
    have none : Args [] [] [] ∧ argc + 0 ≤ maxArgs - 1 := ⟨.nil, by omega⟩
    unfold parseargs
    simp only [peeked]
    split
    next => exact .ok low high same none
    next =>
      split
      next ended =>
        cases next : rest input s₁ with
        | nil =>
          obtain ⟨-, atEnd⟩ := gettoken_end nulFree high next
          rw [atEnd]
          exact .ok inside le_rfl (by rw [rest_end, ← same, next]) none
        | cons t ts =>
          obtain ⟨g, is, code, -⟩ := gettoken_token nulFree high next
          rw [is, code] at ended
          exact absurd ended Token.code_ne_zero
      next =>
        split
        next => exact .error (by simp)
        next isWord =>
          obtain ⟨word, low', high'⟩ := gettoken_word nulFree high (not_not.mp isWord)
          set tok := gettoken (bufferOf input) input.length s₁
          split
          next => exact .error (by simp)
          next room =>
            have taken : rest input s = [.word tok.q tok.eq] ++ rest input tok.s := by
              rw [← same, word]
              rfl
            refine .after (by omega) taken ?_
            refine .bind ((parseredirs_reads nulFree high').mono fun _ => by omega) ?_
            intro redirs s₂ ts low₂ high₂ derives
            refine .bind ((ih high₂ (by omega)).mono fun _ => by omega) ?_
            rintro ⟨argv, more⟩ s₃ us low₃ high₃ ⟨derives', count⟩
            refine .ok le_rfl high₃ rfl ⟨?_, ?_⟩
            · rw [append_nil]
              change Args (.word tok.q tok.eq :: (ts ++ us)) _ _
              exact .cons derives derives'
            · simp only [length_cons] at count ⊢
              omega

theorem parseback_reads {cmd : Cmd} (inside : s ≤ input.length) :
    Reads input (input.length - s < fuel) s (parseback (bufferOf input) input.length fuel cmd s)
      fun ts made => ∃ amps, ts = replicate amps .amp ∧ made = Cmd.back^[amps] cmd := by
  induction fuel generalizing s cmd with
  | zero => exact .diverges (by omega)
  | succ fuel ih =>
    obtain ⟨more, s₁, peeked, low, high, same, taken⟩ :=
      peek_symbol nulFree 38 .amp rfl (by decide) inside
    unfold parseback
    simp only [peeked]
    split
    next hit =>
      obtain ⟨next, low', high'⟩ := taken hit
      refine .after (by omega) next ?_
      refine ((ih high').mono fun _ => by omega).weaken ?_
      rintro ts made ⟨amps, rfl, rfl⟩
      exact ⟨amps + 1, rfl, rfl⟩
    next => exact .ok low high same ⟨0, rfl, rfl⟩

/-- The three nonterminals and the block, with the fuel that each of them needs. -/
theorem parse_reads (fuel : Nat) :
    (∀ s ≤ input.length, Reads input (4 * (input.length - s) + 4 ≤ fuel) s
      (parseline (bufferOf input) input.length fuel s) (Derives .line)) ∧
    (∀ s ≤ input.length, Reads input (4 * (input.length - s) + 3 ≤ fuel) s
      (parsepipe (bufferOf input) input.length fuel s) (Derives .pipe)) ∧
    (∀ s ≤ input.length, Reads input (4 * (input.length - s) + 1 ≤ fuel) s
      (parseblock (bufferOf input) input.length fuel s) (Derives .exec)) ∧
    (∀ s ≤ input.length, Reads input (4 * (input.length - s) + 2 ≤ fuel) s
      (parseexec (bufferOf input) input.length fuel s) (Derives .exec)) := by
  induction fuel with
  | zero =>
    refine ⟨fun s _ => ?_, fun s _ => ?_, fun s _ => ?_, fun s _ => ?_⟩
    · unfold parseline
      exact .diverges (by omega)
    · unfold parsepipe
      exact .diverges (by omega)
    · unfold parseblock
      exact .diverges (by omega)
    · unfold parseexec
      exact .diverges (by omega)
  | succ fuel ih =>
    obtain ⟨line, pipe, block, exec⟩ := ih
    refine ⟨fun s inside => ?_, fun s inside => ?_, fun s inside => ?_, fun s inside => ?_⟩
    · unfold parseline
      refine .bind ((pipe s inside).mono fun _ => by omega) ?_
      intro cmd s₁ ts low₁ high₁ derives
      refine .bind ((parseback_reads nulFree high₁).mono fun _ => by omega) ?_
      rintro _ s₂ _ low₂ high₂ ⟨amps, rfl, rfl⟩
      obtain ⟨more, s₃, peeked, low₃, high₃, same, taken⟩ :=
        peek_symbol nulFree 59 .semi rfl (by decide) high₂
      simp only [peeked]
      split
      next hit =>
        obtain ⟨next, low', high'⟩ := taken hit
        refine .after (by omega) next ?_
        refine .bind ((line _ high').mono fun _ => by omega) ?_
        intro rest s₄ us low₄ high₄ derives'
        refine .ok le_rfl high₄ rfl ?_
        rw [append_nil]
        exact .list amps derives derives'
      next =>
        refine .ok low₃ high₃ same ?_
        rw [append_nil]
        exact .line amps derives
    · unfold parsepipe
      refine .bind ((exec s inside).mono fun _ => by omega) ?_
      intro cmd s₁ ts low₁ high₁ derives
      obtain ⟨more, s₂, peeked, low₂, high₂, same, taken⟩ :=
        peek_symbol nulFree 124 .pipe rfl (by decide) high₁
      simp only [peeked]
      split
      next hit =>
        obtain ⟨next, low', high'⟩ := taken hit
        refine .after (by omega) next ?_
        refine .bind ((pipe _ high').mono fun _ => by omega) ?_
        intro rest s₃ us low₃ high₃ derives'
        refine .ok le_rfl high₃ rfl ?_
        rw [append_nil]
        exact .pipe derives derives'
      next =>
        refine .ok low₂ high₂ same ?_
        rw [append_nil]
        exact .single derives
    · unfold parseblock
      obtain ⟨opened, s₁, peeked, low₁, high₁, -, taken⟩ :=
        peek_symbol nulFree 40 .lparen rfl (by decide) inside
      simp only [peeked]
      split
      next => exact .error (by simp)
      next hit =>
        obtain ⟨next, low', high'⟩ := taken (by simpa using hit)
        refine .after (by omega) next ?_
        refine .bind ((line _ high').mono fun _ => by omega) ?_
        intro cmd s₂ ts low₂ high₂ derives
        obtain ⟨closed, s₃, peeked', low₃, high₃, -, taken'⟩ :=
          peek_symbol nulFree 41 .rparen rfl (by decide) high₂
        simp only [peeked']
        split
        next => exact .error (by simp)
        next hit' =>
          obtain ⟨next', low'', high''⟩ := taken' (by simpa using hit')
          refine .after (by omega) next' ?_
          refine .bind ((parseredirs_reads nulFree high'').mono fun _ => by omega) ?_
          intro redirs s₄ us low₄ high₄ derives'
          refine .ok le_rfl high₄ rfl ?_
          rw [append_nil]
          exact .block derives derives'
    · unfold parseexec
      obtain ⟨s₁, peeked, low₁, high₁, same⟩ := peek_spec [40] nulFree (by simp [symbols]) inside
      simp only [peeked]
      refine .afterSpace low₁ same ?_
      split
      next => exact (block s₁ high₁).mono fun _ => by omega
      next =>
        refine .bind ((parseredirs_reads nulFree high₁).mono fun _ => by omega) ?_
        intro redirs s₂ ts low₂ high₂ derives
        refine .bind ((parseargs_reads nulFree high₂ (by decide)).mono fun _ => by omega) ?_
        rintro ⟨argv, more⟩ s₃ us low₃ high₃ ⟨derives', count⟩
        refine .ok le_rfl high₃ rfl ?_
        rw [append_nil]
        exact .simple derives derives' (by simpa using count)

end

end Xv6.Shell
