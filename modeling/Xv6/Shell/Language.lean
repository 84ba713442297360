import Xv6.Shell.Completeness

/-!
# The language of the shell

`parsecmd` accepts the lines whose tokens derive from the grammar, with the
command of the derivation, and after `nulterminate` every argument and file name
is the C string of its token.
-/

namespace Xv6.Shell

open List
open Function

variable {input : List UInt8} {ts : List Token} {cmd : Cmd}

/-! ## The text of words -/

/-- A maximal run of word characters of the line. -/
structure IsWord (input : List UInt8) (q e : Nat) : Prop where
  low : q < e
  high : e ≤ input.length
  word : ∀ i, q ≤ i → i < e → isWordChar (bufferOf input i) = true
  ended : e = input.length ∨ isWordChar (bufferOf input e) = false

theorem IsWord.not_end {q e q' e' i : Nat} (isWord : IsWord input q e)
    (isWord' : IsWord input q' e') (low : q ≤ i) (high : i < e) : i ≠ e' := by
  rintro rfl
  rcases isWord'.ended with atEnd | noWord
  · have := isWord.high
    omega
  · rw [isWord.word i low high] at noWord
    cases noWord

theorem isWord_of_mem {s q e : Nat} (nulFree : ∀ c ∈ input, c ≠ 0) (inside : s ≤ input.length)
    (member : .word q e ∈ rest input s) : IsWord input q e := by
  induction remaining : input.length - s using Nat.strong_induction_on generalizing s with
  | _ n ih =>
    obtain ⟨low, high, same, noSpace⟩ := skip_spec inside
    rw [← same] at member
    rcases Nat.eq_or_lt_of_le high with atEnd | before
    · rw [atEnd, rest_end] at member
      cases member
    obtain ⟨t, e', -, at'⟩ :=
      classify_spec (bufferOf_ne_zero nulFree before) before (noSpace before)
    obtain ⟨fromHere, toEnd⟩ := at'.bounds before
    rw [at'.rest before (noSpace before)] at member
    rcases mem_cons.mp member with isFirst | later
    · subst isFirst
      cases at' with
      | symbol symbol _ => exact absurd symbol (symbol?_ne_word _)
      | word low high word ended => exact ⟨low, high, word, ended⟩
    · exact ih (input.length - e') (by omega) toEnd later rfl

/-! ## The strings of a command -/

variable {redirs : List Redir}

theorem strings_wrap :
    (wrap cmd redirs).strings = cmd.strings ++ redirs.map fun redir =>
      (redir.file, redir.efile) := by
  induction redirs generalizing cmd with
  | nil => simp [wrap]
  | cons redir redirs ih =>
    change (wrap (.redir cmd redir) redirs).strings = _
    rw [ih]
    simp [Cmd.strings]

theorem strings_back {amps : Nat} : (Cmd.back^[amps] cmd).strings = cmd.strings := by
  induction amps generalizing cmd with
  | zero => rfl
  | succ amps ih => exact ih

theorem Redirs.words (derives : Redirs ts redirs) :
    ∀ redir ∈ redirs, .word redir.file redir.efile ∈ ts := by
  induction derives with
  | nil => simp
  | @cons op q e redir ts redirs made _ ih =>
    have place : redir.file = q ∧ redir.efile = e := by
      cases op with
      | lt | gt | append => cases made; exact ⟨rfl, rfl⟩
      | _ => cases made
    intro other member
    rcases mem_cons.mp member with rfl | later
    · rw [place.1, place.2]
      simp
    · simp [ih other later]

theorem Args.words {argv : List (Nat × Nat)} (derives : Args ts argv redirs) :
    (∀ arg ∈ argv, .word arg.1 arg.2 ∈ ts) ∧
    ∀ redir ∈ redirs, .word redir.file redir.efile ∈ ts := by
  induction derives with
  | nil => simp
  | @cons q e ts redirs us argv more derives _ ih =>
    constructor
    · intro arg member
      rcases mem_cons.mp member with rfl | later
      · simp
      · simp [ih.1 arg later]
    · intro redir member
      rcases mem_append.mp member with first | later
      · simp [derives.words redir first]
      · simp [ih.2 redir later]

theorem Derives.words {symbol : Nonterminal} (derives : Derives symbol ts cmd) :
    ∀ string ∈ cmd.strings, .word string.1 string.2 ∈ ts := by
  induction derives with
  | line amps _ ih =>
    rw [strings_back]
    intro string member
    simp [ih string member]
  | list amps _ _ ih ih' =>
    intro string member
    rw [Cmd.strings, strings_back, mem_append] at member
    rcases member with first | later
    · simp [ih string first]
    · simp [ih' string later]
  | single _ ih => exact ih
  | pipe _ _ ih ih' =>
    intro string member
    rcases mem_append.mp member with first | later
    · simp [ih string first]
    · simp [ih' string later]
  | block _ redirs ih =>
    rw [strings_wrap]
    intro string member
    rcases mem_append.mp member with first | later
    · simp [ih string first]
    · obtain ⟨redir, inside, rfl⟩ := mem_map.mp later
      simp [redirs.words redir inside]
  | simple redirs args _ =>
    rw [strings_wrap]
    intro string member
    rcases mem_append.mp member with first | later
    · simp [args.words.1 string first]
    · obtain ⟨redir, inside, rfl⟩ := mem_map.mp later
      rcases mem_append.mp inside with before | after
      · simp [redirs.words redir before]
      · simp [args.words.2 redir after]

variable {buf : Buffer}

theorem foldl_update_apply (argv : List (Nat × Nat)) (i : Nat) :
    argv.foldl (fun buf arg => update buf arg.2 0) buf i =
      if ∃ arg ∈ argv, arg.2 = i then 0 else buf i := by
  induction argv generalizing buf with
  | nil => simp
  | cons arg argv ih =>
    rw [foldl_cons, ih]
    by_cases here : arg.2 = i
    · simp [here]
    · rw [update_of_ne (Ne.symm here)]
      exact if_congr (by simp [here]) rfl rfl

theorem nulterminate_apply (i : Nat) :
    nulterminate cmd buf i = if ∃ string ∈ cmd.strings, string.2 = i then 0 else buf i := by
  induction cmd generalizing buf with
  | exec argv => exact foldl_update_apply argv i
  | redir cmd target ih =>
    rw [nulterminate, update_apply, ih]
    by_cases here : target.efile = i
    · simp [Cmd.strings, or_and_right, exists_or, here]
    · rw [if_neg (Ne.symm here)]
      exact if_congr (by simp [Cmd.strings, or_and_right, exists_or, here]) rfl rfl
  | pipe left right ih ih' | list left right ih ih' =>
    rw [nulterminate, ih', ih]
    simp only [Cmd.strings, mem_append, or_and_right, exists_or]
    split_ifs <;> simp_all
  | back cmd ih => exact ih

def textOf (input : List UInt8) (q e : Nat) : List UInt8 := (input.drop q).take (e - q)

/-- If a command refers to words of the line only, the zeros `nulterminate`
writes are at the ends of these words, so that each is a C string. -/
theorem isString_nulterminate {q e : Nat} (nulFree : ∀ c ∈ input, c ≠ 0)
    (words : ∀ string ∈ cmd.strings, IsWord input string.1 string.2)
    (member : (q, e) ∈ cmd.strings) :
    IsString (nulterminate cmd (bufferOf input)) q (textOf input q e) := by
  have isWord : IsWord input q e := words _ member
  have fits : (textOf input q e).length = e - q := by
    have := isWord.high
    simp only [textOf, length_take, length_drop]
    omega
  constructor
  · intro i c char
    have inside : i < e - q := by
      rw [← fits]
      exact (List.getElem?_eq_some_iff.mp char).1
    have spared : ¬ ∃ string ∈ cmd.strings, string.2 = q + i := by
      rintro ⟨string, other, ends⟩
      exact isWord.not_end (words string other) (Nat.le_add_right q i) (by omega) ends.symm
    have here : input[q + i]? = some c := by
      rw [textOf, getElem?_take_of_lt inside, getElem?_drop] at char
      exact char
    constructor
    · rw [nulterminate_apply, if_neg spared, bufferOf, getD_eq_getElem?_getD, here]
      rfl
    · exact nulFree c (mem_of_getElem? here)
  · have atEnd : q + (textOf input q e).length = e := by
      have := isWord.low
      omega
    rw [atEnd, nulterminate_apply, if_pos ⟨(q, e), member, rfl⟩]

/-! ## Whole lines -/

theorem rest_zero : rest input 0 = tokens input := rfl

theorem parsecmd_eq {fuel : Nat} : parsecmd fuel input =
    (parseline (bufferOf input) input.length fuel 0 >>= fun read =>
      if skip input read.2 ≠ input.length then .error .leftovers
      else .ok (read.1, nulterminate read.1 (bufferOf input))) := rfl

/-- The line has to be read up to the end of its tokens. -/
theorem parsecmd_eq_ok {fuel : Nat} :
    parsecmd fuel input = .ok (cmd, buf) ↔
      ∃ s, parseline (bufferOf input) input.length fuel 0 = .ok (cmd, s) ∧
        skip input s = input.length ∧ buf = nulterminate cmd (bufferOf input) := by
  rw [parsecmd_eq]
  cases parsed : parseline (bufferOf input) input.length fuel 0 with
  | error panic => exact ⟨nofun, nofun⟩
  | ok read =>
    rw [ok_bind]
    by_cases atEnd : skip input read.2 = input.length
    · rw [if_neg (not_not_intro atEnd)]
      constructor
      · rintro ⟨⟩
        exact ⟨read.2, rfl, atEnd, rfl⟩
      · rintro ⟨s, ⟨⟩, -, rfl⟩
        rfl
    · rw [if_pos atEnd]
      constructor
      · nofun
      · rintro ⟨s, ⟨⟩, atEnd', -⟩
        exact absurd atEnd' atEnd

section

variable (nulFree : ∀ c ∈ input, c ≠ 0) {fuel : Nat}

include nulFree

theorem parsecmd_derives (parsed : parsecmd fuel input = .ok (cmd, buf)) :
    Derives .line (tokens input) cmd ∧ buf = nulterminate cmd (bufferOf input) := by
  obtain ⟨s, line, atEnd, terminated⟩ := parsecmd_eq_ok.mp parsed
  have reads := (parse_reads nulFree fuel).1 0 (Nat.zero_le _)
  rw [line] at reads
  obtain ⟨-, high, ts, split, derives⟩ := reads
  have nothingLeft : rest input s = [] := by
    rw [← (skip_spec high).2.2.1, atEnd, rest_end]
  rw [rest_zero, nothingLeft, append_nil] at split
  rw [split]
  exact ⟨derives, terminated⟩

theorem parsecmd_of_derives (enough : 4 * input.length + 4 ≤ fuel)
    (derives : Derives .line (tokens input) cmd) :
    parsecmd fuel input = .ok (cmd, nulterminate cmd (bufferOf input)) := by
  have next : rest input 0 = tokens input ++ [] := by rw [append_nil, rest_zero]
  obtain ⟨s, line, -, high, nothingLeft⟩ :=
    parse_accepts nulFree derives (Nat.zero_le _) next (by nofun) enough
  exact parsecmd_eq_ok.mpr ⟨s, line, skip_of_rest_nil nulFree high nothingLeft, rfl⟩

theorem parsecmd_stops (enough : 4 * input.length + 4 ≤ fuel) :
    parsecmd fuel input ≠ .error .diverged := by
  intro diverged
  have reads := (parse_reads nulFree fuel).1 0 (Nat.zero_le _)
  rw [parsecmd_eq] at diverged
  cases parsed : parseline (bufferOf input) input.length fuel 0 with
  | error panic =>
    rw [parsed] at reads diverged
    cases diverged
    exact reads enough rfl
  | ok read =>
    rw [parsed, ok_bind] at diverged
    by_cases atEnd : skip input read.2 = input.length
    · rw [if_neg (not_not_intro atEnd)] at diverged
      cases diverged
    · rw [if_pos atEnd] at diverged
      cases diverged

end

/-- On a line without zeros the parser ends. It returns a command if and only if
the tokens of the line derive from `line`, and it is then the command of the
derivation. After `nulterminate` each of its arguments and file names is the C
string of a word of the line. -/
theorem parsecmd_language (nulFree : ∀ c ∈ input, c ≠ 0) {fuel : Nat}
    (enough : 4 * input.length + 4 ≤ fuel) :
    parsecmd fuel input ≠ .error .diverged ∧
      (∀ cmd, (∃ buf, parsecmd fuel input = .ok (cmd, buf)) ↔ Derives .line (tokens input) cmd) ∧
      ∀ cmd buf, parsecmd fuel input = .ok (cmd, buf) → ∀ string ∈ cmd.strings,
        .word string.1 string.2 ∈ tokens input ∧
          IsString buf string.1 (textOf input string.1 string.2) := by
  refine ⟨parsecmd_stops nulFree enough, fun cmd => ⟨?_, ?_⟩, ?_⟩
  · rintro ⟨buf, parsed⟩
    exact (parsecmd_derives nulFree parsed).1
  · intro derives
    exact ⟨_, parsecmd_of_derives nulFree enough derives⟩
  · intro cmd buf parsed string member
    obtain ⟨derives, rfl⟩ := parsecmd_derives nulFree parsed
    have words : ∀ string ∈ cmd.strings, IsWord input string.1 string.2 := fun string member =>
      isWord_of_mem nulFree (Nat.zero_le _) (derives.words string member)
    exact ⟨derives.words string member, isString_nulterminate nulFree words member⟩

/-- The line `ls|wc>f &`. -/
theorem parsecmd_language_pipe :
    let input : List UInt8 := [108, 115, 124, 119, 99, 62, 102, 32, 38]
    Derives .line (tokens input)
      (.back (.pipe (.exec [(0, 2)])
        (.redir (.exec [(3, 5)]) { file := 6, efile := 7, mode := 0x601, fd := 1 }))) := by
  intro input
  have nulFree : ∀ c ∈ input, c ≠ 0 := by simp [input]
  have enough : 4 * input.length + 4 ≤ 40 := by decide
  have parsed : (parsecmd 40 input).toOption.map Prod.fst =
      some (.back (.pipe (.exec [(0, 2)])
        (.redir (.exec [(3, 5)]) { file := 6, efile := 7, mode := 0x601, fd := 1 }))) := by
    decide +kernel
  cases result : parsecmd 40 input with
  | error panic =>
    rw [result] at parsed
    cases parsed
  | ok made =>
    obtain ⟨cmd, buf⟩ := made
    rw [result] at parsed
    cases parsed
    exact ((parsecmd_language nulFree enough).2.1 _).mp ⟨buf, result⟩

end Xv6.Shell
