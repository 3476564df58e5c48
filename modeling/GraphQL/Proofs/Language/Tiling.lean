import GraphQL.Proofs.Language.Cutting
import GraphQL.Proofs.Language.Lexemes

/-! Where scans fail. Wherever a lexeme starts that cannot be read, the failure lies between its start
and the end of the text. -/
namespace GraphQL.Lexis

open Lexer
open Text (byteLength)

section Failures
variable {α β : Type}

/-- Where a scan fails, it fails at a position from where it has started to the end of the text. -/
def FailsWithin (scan : Cursor → Scan α) : Prop :=
  ∀ here fault, scan here = .error fault →
    here.offset ≤ fault.position ∧ fault.position ≤ here.offset + byteLength here.rest

theorem bind_eq_error {first : Scan α} {next : α → Scan β} {fault : LexicalFault} :
    (first >>= next) = .error fault ↔
      first = .error fault ∨ ∃ a, first = .ok a ∧ next a = .error fault := by
  cases first <;> simp [bind, Except.bind]

theorem FailsWithin.bind {f : Cursor → Scan (α × Cursor)} {g : α → Cursor → Scan (β × Cursor)}
    (first : FailsWithin f) (taking : Local f) (next : ∀ a, FailsWithin (g a)) :
    FailsWithin fun here => f here >>= fun r => g r.1 r.2 := by
  intro here fault run
  rcases bind_eq_error.1 run with failed | ⟨⟨a, middle⟩, step, failed⟩
  · exact first here fault failed
  · obtain ⟨taken, takes⟩ := taking here a middle step
    have length : byteLength here.rest = byteLength taken + byteLength middle.rest := by
      rw [takes.chars, Text.byteLength_append]
    have offset := takes.offset
    have bounds := next a middle fault failed
    omega

/-- A scan that goes on behind a character fails within the text if the rest of it does. -/
theorem FailsWithin.behind {scan : Cursor → Scan α} {offset : Nat} {c : Char} {rest : List Char}
    {fault : LexicalFault} (within : FailsWithin scan) (low : c.utf8Size = 1)
    (failed : scan ⟨offset + 1, rest⟩ = .error fault) :
    offset ≤ fault.position ∧ fault.position ≤ offset + byteLength (c :: rest) := by
  have bounds : offset + 1 ≤ fault.position ∧ fault.position ≤ offset + 1 + byteLength rest :=
    within _ fault failed
  have length : byteLength (c :: rest) = 1 + byteLength rest := by rw [byteLength, low]
  omega

theorem digits_failsWithin : FailsWithin digits := by
  intro here fault run
  unfold digits at run
  split at run
  · cases run
    exact ⟨Nat.le_refl _, Nat.le_add_right _ _⟩
  · cases run

theorem integerPart_failsWithin : FailsWithin integerPart := by
  rintro ⟨offset, chars⟩ fault run
  unfold integerPart at run
  split at run
  · rename_i rest zero
    obtain rfl : chars = '0' :: rest := zero
    split at run
    · split at run
      · cases run
        have length : byteLength ('0' :: rest) = 1 + byteLength rest := rfl
        show offset ≤ offset + 1 ∧ offset + 1 ≤ offset + byteLength ('0' :: rest)
        omega
      · cases run
    · cases run
  · exact digits_failsWithin _ fault run

theorem fractionPart_failsWithin : FailsWithin fractionPart := by
  rintro ⟨offset, chars⟩ fault run
  unfold fractionPart at run
  split at run
  · rename_i rest dot
    obtain rfl : chars = '.' :: rest := dot
    rcases bind_eq_error.1 run with failed | ⟨_, _, failed⟩
    · exact digits_failsWithin.behind rfl failed
    · cases failed
  · cases run

theorem exponentPart_failsWithin : FailsWithin exponentPart := by
  rintro ⟨offset, chars⟩ fault run
  unfold exponentPart at run
  split at run
  · rename_i letter rest split
    obtain rfl : chars = letter :: rest := split
    split at run
    · rename_i known
      have low : letter.utf8Size = 1 := by
        simp only [Bool.or_eq_true, beq_iff_eq] at known
        rcases known with rfl | rfl <;> rfl
      have signs := signPart_local ['+', '-']
        (List.forall_mem_cons.2 ⟨rfl, List.forall_mem_singleton.2 rfl⟩)
      have unsigned := FailsWithin.bind (fun _ _ never => by cases never) signs
        fun _ => digits_failsWithin
      rcases bind_eq_error.1 run with failed | ⟨_, _, failed⟩
      · exact unsigned.behind low failed
      · cases failed
    · cases run
  · cases run

theorem numeral_failsWithin : FailsWithin numeral :=
  .bind (fun _ _ never => by cases never) (signPart_local ['-'] (List.forall_mem_singleton.2 rfl))
    fun sign => integerPart_failsWithin.bind integerPart_local fun whole =>
    fractionPart_failsWithin.bind fractionPart_local fun fraction =>
    .bind (g := fun exponent here => pure (ofParts sign whole fraction exponent, here))
      exponentPart_failsWithin exponentPart_local fun _ _ _ never => by cases never

/-- A number fails as it is read, or in front of what it runs into. -/
theorem number_eq_error {here : Cursor} {fault : LexicalFault} (run : number here = .error fault) :
    numeral here = .error fault ∨
      ∃ found after, numeral here = .ok (found, after) ∧ fault.position = after.offset := by
  unfold number at run
  unfold numeral
  rcases bind_eq_error.1 run with failed | ⟨whole, hw, run⟩
  · exact .inl (bind_eq_error.2 (.inr ⟨_, rfl, bind_eq_error.2 (.inl failed)⟩))
  rcases bind_eq_error.1 run with failed | ⟨fraction, hf, run⟩
  · refine .inl (bind_eq_error.2 (.inr ⟨_, rfl, bind_eq_error.2 (.inr ⟨whole, hw, ?_⟩)⟩))
    exact bind_eq_error.2 (.inl failed)
  rcases bind_eq_error.1 run with failed | ⟨⟨exponent, after⟩, he, run⟩
  · refine .inl (bind_eq_error.2 (.inr ⟨_, rfl, bind_eq_error.2 (.inr ⟨whole, hw, ?_⟩)⟩))
    exact bind_eq_error.2 (.inr ⟨fraction, hf, bind_eq_error.2 (.inl failed)⟩)
  · refine .inr ⟨_, after, bind_eq_ok.2 ⟨_, rfl, bind_eq_ok.2 ⟨whole, hw, bind_eq_ok.2
      ⟨fraction, hf, bind_eq_ok.2 ⟨_, he, rfl⟩⟩⟩⟩, ?_⟩
    cases first : after.rest.head? with
    | none =>
      simp only [first] at run
      cases run
    | some next =>
      simp only [first] at run
      split at run
      · cases run
        rfl
      · cases run

theorem number_failsWithin : FailsWithin number := by
  intro here fault run
  rcases number_eq_error run with failed | ⟨found, after, read, position⟩
  · exact numeral_failsWithin here fault failed
  · obtain ⟨taken, takes⟩ := numeral_local here found after read
    have offset := takes.offset
    have length : byteLength here.rest = byteLength taken + byteLength after.rest := by
      rw [takes.chars, Text.byteLength_append]
    omega

theorem prepend_eq_error {c : Char} {read : Scan (List Char × Cursor)} {fault : LexicalFault}
    (run : prepend c read = .error fault) : read = .error fault := by
  cases read with
  | error _ => exact run
  | ok _ => cases run

theorem string_failsWithin : FailsWithin string := by
  rintro ⟨offset, chars⟩ fault run
  replace run : stringBody offset chars = .error fault := run
  show offset ≤ fault.position ∧ fault.position ≤ offset + byteLength chars
  fun_induction stringBody offset chars with
  | case1 | case3 | case5 | case6 | case8 | case9 | case10 =>
    cases run
    exact ⟨Nat.le_refl _, Nat.le_add_right _ _⟩
  | case2 => cases run
  | case4 offset a b c d rest decoded known ih =>
    have bounds := ih (prepend_eq_error run)
    have length := Text.byteLength_append ['\\', 'u', a, b, c, d] rest
    rw [unicodeEscape_size known] at length
    simp only [List.cons_append, List.nil_append] at length
    omega
  | case7 offset letter rest other decoded known ih =>
    have bounds := ih (prepend_eq_error run)
    have length : byteLength ('\\' :: letter :: rest) = 1 + (letter.utf8Size + byteLength rest) := rfl
    rw [simpleEscape_low known] at length
    omega
  | case11 offset c rest notQuote notBackslash sameLine allowed ih =>
    have bounds := ih (prepend_eq_error run)
    have length : byteLength (c :: rest) = c.utf8Size + byteLength rest := rfl
    omega

theorem lexeme_failsWithin : FailsWithin lexeme := by
  rintro ⟨offset, chars⟩ fault run
  unfold lexeme at run
  split at run
  · cases run
  · cases run
  · rename_i rest quote
    obtain rfl : chars = '"' :: rest := quote
    rcases bind_eq_error.1 run with failed | ⟨_, _, failed⟩
    · exact string_failsWithin.behind rfl failed
    · cases failed
  · split at run
    · cases run
    split at run
    · exact number_failsWithin _ fault run
    split at run
    · cases run
    · cases run
      exact ⟨Nat.le_refl _, Nat.le_add_right _ _⟩

end Failures

end GraphQL.Lexis

/-! Tokens tile texts. A text is cut into ignored text and lexemes, up to its end or to the first place
where no lexeme stands, and in one way only. -/
namespace GraphQL.Lexis

open Lexer
open Text (byteLength)

section Tokens
variable {offset stop : Nat} {chars rest text gap : List Char} {found : Token}

/-- No lexeme starts with what is ignored. -/
theorem Lexical.opens {found : Lexeme} (lexical : Lexical rest found text) : Opens (text ++ rest) := by
  have word {c : Char} {cs : List Char} (starts : isNameRest c = true ∨ c = '-') :
      Opens (c :: cs) := by
    obtain ⟨notBlank, notHash, -⟩ := Lexeme.word_start starts
    rintro d ⟨⟩
    refine ⟨fun blank => ?_, notHash⟩
    rw [isBlank_iff.2 blank] at notBlank
    cases notBlank
  have number {found : Lexeme} (writing : Writing found text) : Opens (text ++ rest) := by
    obtain ⟨c, cs, rfl, numeric⟩ := writing.starts
    simp only [Bool.or_eq_true, beq_iff_eq] at numeric
    rcases numeric with minus | digit
    · exact word (.inr minus)
    · exact word (.inl (by simp [isNameRest, digit]))
  cases lexical with
  | finish none =>
    subst none
    simp [Opens]
  | punctuator mark => cases mark <;> (rintro c ⟨⟩; decide)
  | name name _ =>
    obtain ⟨c, cs, rfl, start, -⟩ := name
    exact word (.inl (by simp [isNameRest, start]))
  | int int _ => exact number (.inl ⟨int, rfl⟩)
  | float float _ => exact number (.inr ⟨float, rfl⟩)
  | string _ =>
    rintro c ⟨⟩
    decide

/-- The first token behind ignored text. -/
theorem token_of_gap (ignored : Ignored rest gap) (opens : Opens rest) (offset : Nat) :
    token ⟨offset, gap ++ rest⟩ = lexeme ⟨offset + byteLength gap, rest⟩ >>= fun read =>
      pure (⟨read.1, offset + byteLength gap, read.2.offset⟩, read.2) := by
  rw [token, dropIgnored_complete ignored opens]

/-- Every text starts with ignored text, up to where nothing is ignored. -/
theorem exists_gap (chars : List Char) :
    ∃ gap rest, chars = gap ++ rest ∧ Ignored rest gap ∧ Opens rest := by
  cases dropped : dropIgnored false 0 chars with
  | mk stop rest =>
    obtain ⟨gap, split, -, ignored, opens⟩ := dropIgnored_iff.1 dropped
    exact ⟨gap, rest, split, ignored, opens⟩

/-- The token behind ignored text is the lexeme that stands there. -/
theorem token_of_gap_iff {here after : Cursor} (chars : here.rest = gap ++ rest)
    (ignored : Ignored rest gap) (opens : Opens rest) :
    token here = .ok (found, after) ↔ ∃ text, Lexical after.rest found.lexeme text ∧
      rest = text ++ after.rest ∧ found.start = here.offset + byteLength gap ∧
      found.stop = found.start + byteLength text ∧ after.offset = found.stop := by
  have read : token here = _ := chars ▸ token_of_gap ignored opens here.offset
  rw [read]
  constructor
  · intro run
    obtain ⟨⟨lexeme, last⟩, step, ends⟩ := bind_eq_ok.mp run
    cases ends
    obtain ⟨text, lexical, split, stop⟩ := lexeme_iff.1 step
    exact ⟨text, lexical, split, rfl, stop, rfl⟩
  · rintro ⟨text, lexical, split, start, stop, onward⟩
    have step : lexeme ⟨here.offset + byteLength gap, rest⟩ =
        .ok (found.lexeme, ⟨after.offset, after.rest⟩) := by
      refine lexeme_iff.2 ⟨text, lexical, split, ?_⟩
      rw [onward, stop, start]
    rw [step, ← start]
    show Except.ok (Token.mk found.lexeme found.start after.offset, after) = _
    rw [onward]

/-- Where no token stands behind ignored text, the failure lies at or behind the text that is not
ignored. -/
theorem token_failsWithin {here : Cursor} {fault : LexicalFault} (chars : here.rest = gap ++ rest)
    (ignored : Ignored rest gap) (opens : Opens rest) (run : token here = .error fault) :
    here.offset + byteLength gap ≤ fault.position ∧
      fault.position ≤ here.offset + byteLength here.rest := by
  have read : token here = _ := chars ▸ token_of_gap ignored opens here.offset
  rw [read] at run
  have total : byteLength here.rest = byteLength gap + byteLength rest := by
    rw [chars, Text.byteLength_append]
  rcases bind_eq_error.1 run with failed | ⟨_, _, failed⟩
  · have bounds : here.offset + byteLength gap ≤ fault.position ∧
        fault.position ≤ here.offset + byteLength gap + byteLength rest :=
      lexeme_failsWithin _ fault failed
    omega
  · cases failed

end Tokens

/-- Tokens that tile a text, which stands at a byte offset: lexemes with ignored text between them, up
to the end of the text or to where no lexeme stands. -/
inductive Tiles : Nat → List Char → List Token → Option LexicalFault → Prop
  | finish {offset : Nat} {gap : List Char} : Ignored [] gap →
      Tiles offset gap [⟨.finish, offset + byteLength gap, offset + byteLength gap⟩] none
  | token {offset start stop : Nat} {gap text rest : List Char} {lexeme : Lexeme}
      {tokens : List Token} {fault : Option LexicalFault} :
      Ignored (text ++ rest) gap → Lexical rest lexeme text → text ≠ [] →
      start = offset + byteLength gap → stop = start + byteLength text →
      Tiles stop rest tokens fault →
      Tiles offset (gap ++ (text ++ rest)) (⟨lexeme, start, stop⟩ :: tokens) fault
  | stuck {offset : Nat} {gap rest : List Char} {fault : LexicalFault} :
      Ignored rest gap → Opens rest →
      (∀ lexeme text after, Lexical after lexeme text → rest ≠ text ++ after) →
      offset + byteLength gap ≤ fault.position →
      fault.position ≤ offset + byteLength (gap ++ rest) →
      Tiles offset (gap ++ rest) [] (some fault)

section Runs
variable {rest text : List Char} {found : Lexeme}

/-- Only the end of a text is empty. -/
theorem Lexical.empty_iff (lexical : Lexical rest found text) : text = [] ↔ found = .finish := by
  have number {found : Lexeme} (writing : Writing found text) : text ≠ [] := by
    obtain ⟨c, cs, rfl, -⟩ := writing.starts
    exact List.cons_ne_nil c cs
  cases lexical with
  | finish => simp
  | punctuator mark => cases mark <;> simp [Punctuator.text]
  | name name =>
    obtain ⟨c, cs, rfl, -⟩ := name
    simp
  | int int => simp [number (.inl ⟨int, rfl⟩)]
  | float float => simp [number (.inr ⟨float, rfl⟩)]
  | string => simp

/-- The tokens of a text tile it. -/
theorem tokens_tile {fuel : Nat} {here : Cursor} (enough : here.rest.length < fuel) :
    Tiles here.offset here.rest (tokens fuel here).1 (tokens fuel here).2 := by
  induction fuel generalizing here with
  | zero => exact absurd enough (Nat.not_lt_zero _)
  | succ fuel ih =>
    obtain ⟨gap, rest, split, ignored, opens⟩ := exists_gap here.rest
    rw [tokens]
    cases read : token here with
    | error fault =>
      obtain ⟨behind, within⟩ := token_failsWithin split ignored opens read
      rw [split] at within ⊢
      refine .stuck ignored opens (fun lexeme text after lexical same => ?_) behind within
      let start := here.offset + byteLength gap
      have accepted : token here = .ok (⟨lexeme, start, start + byteLength text⟩,
          ⟨start + byteLength text, after⟩) :=
        (token_of_gap_iff split ignored opens).2 ⟨text, lexical, same, rfl, rfl, rfl⟩
      rw [read] at accepted
      cases accepted
    | ok found =>
      obtain ⟨⟨lexeme, start, stop⟩, ⟨offset, after⟩⟩ := found
      obtain ⟨text, lexical, same, begins, ends, onward⟩ :=
        (token_of_gap_iff split ignored opens).1 read
      dsimp only at lexical same begins ends onward ⊢
      by_cases last : lexeme = .finish
      · subst last
        obtain rfl := lexical.empty_iff.2 rfl
        cases lexical with
        | finish none =>
          obtain rfl : rest = [] := same.trans none
          obtain rfl : stop = start := ends
          rw [if_pos rfl, split, List.append_nil, begins]
          exact .finish ignored
      · have shorter := token_shortens read last
        rw [if_neg last, split, same]
        rw [same] at ignored
        have filled : text ≠ [] := fun empty => last (lexical.empty_iff.1 empty)
        have more := @ih ⟨offset, after⟩ (by omega)
        rw [onward] at more ⊢
        exact .token ignored lexical filled begins ends more

/-- No other tokens tile a text. -/
theorem tokens_of_tiles {fuel offset : Nat} {tokens : List Token} {fault : Option LexicalFault}
    (tiles : Tiles offset rest tokens fault) (enough : rest.length < fuel) :
    tokens = (Lexer.tokens fuel ⟨offset, rest⟩).1 ∧
      fault.isSome = (Lexer.tokens fuel ⟨offset, rest⟩).2.isSome := by
  induction tiles generalizing fuel with
  | @finish offset gap ignored =>
    cases fuel with
    | zero => exact absurd enough (Nat.not_lt_zero _)
    | succ fuel =>
      have opens : Opens [] := by simp [Opens]
      have read : token ⟨offset, gap⟩ = .ok (⟨.finish, offset + byteLength gap,
          offset + byteLength gap⟩, ⟨offset + byteLength gap, []⟩) :=
        (token_of_gap_iff (List.append_nil gap).symm ignored opens).2
          ⟨[], .finish rfl, rfl, rfl, rfl, rfl⟩
      rw [Lexer.tokens, read]
      exact ⟨rfl, rfl⟩
  | @token offset start stop gap text rest lexeme tokens fault ignored lexical filled begins ends _ ih =>
    cases fuel with
    | zero => exact absurd enough (Nat.not_lt_zero _)
    | succ fuel =>
      have other : lexeme ≠ .finish := fun last => filled (lexical.empty_iff.2 last)
      have read : token ⟨offset, gap ++ (text ++ rest)⟩ = .ok (⟨lexeme, start, stop⟩, ⟨stop, rest⟩) :=
        (token_of_gap_iff rfl ignored lexical.opens).2 ⟨text, lexical, rfl, begins, ends, rfl⟩
      have shorter := token_shortens read other
      obtain ⟨same, failed⟩ := @ih fuel (by dsimp only at shorter; omega)
      rw [Lexer.tokens, read]
      simp only [if_neg other]
      exact ⟨congrArg _ same, failed⟩
  | @stuck offset gap rest fault ignored opens none _ _ =>
    cases fuel with
    | zero => exact absurd enough (Nat.not_lt_zero _)
    | succ fuel =>
      cases read : token ⟨offset, gap ++ rest⟩ with
      | error other =>
        rw [Lexer.tokens, read]
        exact ⟨rfl, rfl⟩
      | ok found =>
        obtain ⟨text, lexical, same, -⟩ := (token_of_gap_iff rfl ignored opens).1 read
        exact absurd same (none _ _ _ lexical)

/-- Names and numbers are their texts. -/
theorem Lexical.value (lexical : Lexical rest found text) (runs : found.runsOn = true) :
    found.value? = some (String.ofList text) := by
  cases lexical with
  | name | int | float => rfl
  | finish | punctuator | string => cases runs

/-- A lexeme that starts with a digit or a minus is a number. -/
theorem Lexical.writing {c : Char} (lexical : Lexical rest found text) (first : c ∈ (text ++ rest).head?)
    (numeric : c = '-' ∨ isDigit c = true) : Writing found text ∧ Stops rest := by
  cases lexical with
  | int int stops => exact ⟨.inl ⟨int, rfl⟩, stops⟩
  | float float stops => exact ⟨.inr ⟨float, rfl⟩, stops⟩
  | finish none =>
    subst none
    cases first
  | punctuator mark =>
    exfalso
    cases mark <;> (cases first; revert numeric; decide)
  | name name _ =>
    exfalso
    obtain ⟨d, ds, rfl, start, -⟩ := name
    cases first
    rcases numeric with rfl | digit
    · exact absurd start (by decide)
    · rw [Lexeme.digit_not_nameStart start] at digit
      cases digit
  | string _ =>
    exfalso
    cases first
    revert numeric
    decide

/-- A lexeme that starts with a quote is a string. -/
theorem Lexical.body {inner : List Char} (lexical : Lexical rest found text)
    (split : '"' :: inner = text ++ rest) : ∃ value body,
      Body value body ∧ found = .string (String.ofList value) ∧ text = '"' :: (body ++ ['"']) := by
  have notWord : isNameStart '"' = false := by decide
  have number {found : Lexeme} (writing : Writing found text) : False := by
    obtain ⟨d, ds, rfl, numeric⟩ := writing.starts
    obtain ⟨rfl, -⟩ := List.cons.inj split
    revert numeric
    decide
  cases lexical with
  | string body => exact ⟨_, _, body, rfl, rfl⟩
  | finish none =>
    subst none
    cases split
  | punctuator mark =>
    exfalso
    cases mark <;> exact absurd (List.cons.inj split).1 (by decide)
  | name name _ =>
    obtain ⟨d, ds, rfl, start, -⟩ := name
    obtain ⟨rfl, -⟩ := List.cons.inj split
    rw [notWord] at start
    cases start
  | int int _ => exact (number (.inl ⟨int, rfl⟩)).elim
  | float float _ => exact (number (.inr ⟨float, rfl⟩)).elim

end Runs
end GraphQL.Lexis
