import GraphQL.Proofs.Language.Slices
import GraphQL.Proofs.Language.Tiling

/-! The tokens at a byte offset. Inside a character there are none. Between two characters the text is
tiled by tokens from there on, and what the first of them is, the lexical grammar says. -/
namespace GraphQL

theorem Text.length_le_byteLength (cs : List Char) : cs.length ≤ Text.byteLength cs := by
  induction cs with
  | nil => exact Nat.le_refl _
  | cons c cs ih =>
    have size := c.utf8Size_pos
    rw [List.length_cons, Text.byteLength]
    omega

theorem Text.splitAt_iff {bytes : Nat} {cs front back : List Char} :
    Text.splitAt? bytes cs = some (front, back) ↔
      cs = front ++ back ∧ Text.byteLength front = bytes := by
  constructor
  · intro split
    induction cs generalizing bytes front with
    | nil =>
      cases bytes with
      | zero =>
        cases split
        exact ⟨rfl, rfl⟩
      | succ bytes => cases split
    | cons c cs ih =>
      cases bytes with
      | zero =>
        cases split
        exact ⟨rfl, rfl⟩
      | succ bytes =>
        rw [Text.splitAt?] at split
        split at split
        · rename_i enough
          obtain ⟨⟨more, behind⟩, step, ends⟩ := Option.map_eq_some_iff.1 split
          cases ends
          obtain ⟨rfl, length⟩ := ih step
          refine ⟨rfl, ?_⟩
          rw [Text.byteLength, length]
          omega
        · cases split
  · rintro ⟨rfl, rfl⟩
    exact Text.splitAt_append front back

namespace Source
open Lexer Lexis
open Text (byteLength)

/-- A text from a byte offset on, which is that of its end when it lies past the end: what is ignored,
and what has to start with a lexeme. -/
structure Cuts (source : Source) (offset : Nat) (before gap rest : List Char) : Prop where
  chars : source.chars = before ++ (gap ++ rest)
  offset : byteLength before = min offset source.size
  ignored : Ignored rest gap
  opens : Opens rest

/-- What the scanner finds at a byte offset, by the lexical grammar. -/
structure Exact (source : Source) (offset : Nat) : Prop where
  /-- Inside a character there are no tokens. -/
  inside : ¬ source.Boundary (min offset source.size) →
    let error : SyntaxError := ⟨source, min offset source.size, .unexpectedCharacter none⟩
    source.tokenAt offset = .error error ∧ source.tokensFrom offset = ⟨[], some error⟩
  /-- Between two characters the text is tiled by tokens, up to its end or to where none stands. -/
  tiled : ∀ before behind, source.chars = before ++ behind →
    byteLength before = min offset source.size → ∃ fault,
      Tiles (min offset source.size) behind (source.tokensFrom offset).tokens fault ∧
      (source.tokensFrom offset).failure = fault.map source.errorAt
  /-- No other tokens tile it. -/
  unique : ∀ before behind, source.chars = before ++ behind →
    byteLength before = min offset source.size → ∀ tokens fault,
      Tiles (min offset source.size) behind tokens fault →
      tokens = (source.tokensFrom offset).tokens ∧
        fault.isSome = (source.tokensFrom offset).failure.isSome
  /-- From there on, some of the text is ignored. -/
  cut : source.Boundary (min offset source.size) → ∃ before gap rest, source.Cuts offset before gap rest
  /-- A token takes the bytes of its lexeme, right behind the ignored ones. -/
  accepted : ∀ before gap rest, source.Cuts offset before gap rest → ∀ found,
    source.tokenAt offset = .ok found ↔ ∃ text after, Lexical after found.lexeme text ∧
      rest = text ++ after ∧ found.start = byteLength (before ++ gap) ∧
      found.stop = found.start + byteLength text
  /-- A failure lies between what is no lexeme and the end of the text. -/
  refused : ∀ before gap rest, source.Cuts offset before gap rest → ∀ error,
    source.tokenAt offset = .error error → error.source = source ∧
      byteLength (before ++ gap) ≤ error.position ∧ error.position ≤ source.size
  /-- A token stands between characters, and only the end of the text is empty. -/
  ordered : ∀ found, source.tokenAt offset = .ok found →
    min offset source.size ≤ found.start ∧ found.start ≤ found.stop ∧ found.stop ≤ source.size ∧
      source.Boundary found.start ∧ source.Boundary found.stop ∧
      (found.start = found.stop ↔ found.lexeme = .finish)
  /-- A token is cut out of the text, and the value of a name or a number is what is cut out. -/
  sliced : ∀ found, source.tokenAt offset = .ok found → ∃ text,
    Text.slice? found.start found.stop source.chars = some text ∧
      (found.lexeme.runsOn = true → found.lexeme.value? = some (String.ofList text))
  /-- No name or number is longer than one that is found. -/
  longest : ∀ before gap rest, source.Cuts offset before gap rest → ∀ found,
    source.tokenAt offset = .ok found → found.lexeme.runsOn = true → ∀ longer, longer <+: rest →
      IsName longer ∨ IsInt longer ∨ IsFloat longer → byteLength longer ≤ found.stop - found.start
  /-- What starts with a digit or a minus has to be a number that runs into no digit, dot or name, and
  is a Float exactly if it has a fraction or an exponent. -/
  number : ∀ before gap rest, source.Cuts offset before gap rest →
    (∃ c ∈ rest.head?, c = '-' ∨ isDigit c = true) → ∀ found, source.tokenAt offset = .ok found ↔
      ∃ sign whole fraction exponent after, Sign sign ∧ Whole whole ∧ Fraction fraction ∧
        Exponent exponent ∧ rest = sign ++ (whole ++ (fraction ++ exponent)) ++ after ∧
        Stops after ∧ found.lexeme = ofParts sign whole fraction exponent ∧
        found.start = byteLength (before ++ gap) ∧
        found.stop = found.start + byteLength (sign ++ (whole ++ (fraction ++ exponent)))
  /-- What starts with a quote has to be a string that closes behind characters that it may hold. -/
  string : ∀ before gap inner, source.Cuts offset before gap ('"' :: inner) → ∀ found,
    source.tokenAt offset = .ok found ↔ ∃ value text after, Body value text ∧
      inner = text ++ '"' :: after ∧ found.lexeme = .string (String.ofList value) ∧
      found.start = byteLength (before ++ gap) ∧ found.stop = found.start + 1 + byteLength text + 1

section Exact
variable {source : Source} {offset : Nat} {before gap rest : List Char} {found : Token}

theorem cursorAt_between {behind : List Char} (chars : source.chars = before ++ behind)
    (reached : byteLength before = min offset source.size) :
    cursorAt source offset = .ok ⟨min offset source.size, behind⟩ := by
  have split : Text.splitAt? (min offset source.size) source.chars = some (before, behind) :=
    Text.splitAt_iff.2 ⟨chars, reached⟩
  simp only [cursorAt, split]
  rfl

theorem cursorAt_inside (inside : ¬ source.Boundary (min offset source.size)) :
    cursorAt source offset = .error ⟨min offset source.size, .unexpectedCharacter none⟩ := by
  have none : Text.splitAt? (min offset source.size) source.chars = none := by
    rw [Option.eq_none_iff_forall_ne_some]
    rintro ⟨front, back⟩ split
    obtain ⟨chars, reached⟩ := Text.splitAt_iff.1 split
    exact inside ⟨front, back, chars, reached⟩
  simp only [cursorAt, none]
  rfl

theorem exists_cuts (between : source.Boundary (min offset source.size)) :
    ∃ before gap rest, source.Cuts offset before gap rest := by
  obtain ⟨before, behind, chars, reached⟩ := between
  obtain ⟨gap, rest, split, ignored, opens⟩ := exists_gap behind
  exact ⟨before, gap, rest, by rw [chars, split], reached, ignored, opens⟩

theorem Cuts.tokenAt (cuts : source.Cuts offset before gap rest) :
    source.tokenAt offset = ((token ⟨min offset source.size, gap ++ rest⟩).map Prod.fst).mapError
      source.errorAt := by
  have bound : (cursorAt source offset >>= token) =
      token ⟨min offset source.size, gap ++ rest⟩ := by
    rw [cursorAt_between cuts.chars cuts.offset]
    rfl
  rw [Source.tokenAt, bound]
  cases token ⟨min offset source.size, gap ++ rest⟩ <;> rfl

theorem Cuts.start (cuts : source.Cuts offset before gap rest) :
    byteLength (before ++ gap) = min offset source.size + byteLength gap := by
  rw [Text.byteLength_append, cuts.offset]

theorem Cuts.size (cuts : source.Cuts offset before gap rest) :
    source.size = byteLength (before ++ gap) + byteLength rest := by
  rw [Source.size, cuts.chars, ← List.append_assoc, Text.byteLength_append]

theorem Cuts.accepted (cuts : source.Cuts offset before gap rest) :
    source.tokenAt offset = .ok found ↔ ∃ text after, Lexical after found.lexeme text ∧
      rest = text ++ after ∧ found.start = byteLength (before ++ gap) ∧
      found.stop = found.start + byteLength text := by
  rw [cuts.tokenAt, cuts.start]
  constructor
  · intro run
    cases read : token ⟨min offset source.size, gap ++ rest⟩ with
    | error fault =>
      rw [read] at run
      cases run
    | ok pair =>
      obtain ⟨same, after⟩ := pair
      rw [read] at run
      cases run
      obtain ⟨text, lexical, split, start, stop, -⟩ :=
        (token_of_gap_iff rfl cuts.ignored cuts.opens).1 read
      exact ⟨text, after.rest, lexical, split, start, stop⟩
  · rintro ⟨text, after, lexical, split, start, stop⟩
    have read : token ⟨min offset source.size, gap ++ rest⟩ = .ok (found, ⟨found.stop, after⟩) :=
      (token_of_gap_iff rfl cuts.ignored cuts.opens).2 ⟨text, lexical, split, start, stop, rfl⟩
    rw [read]
    rfl

theorem Cuts.refused (cuts : source.Cuts offset before gap rest) {error : SyntaxError}
    (run : source.tokenAt offset = .error error) : error.source = source ∧
      byteLength (before ++ gap) ≤ error.position ∧ error.position ≤ source.size := by
  rw [cuts.tokenAt] at run
  cases read : token ⟨min offset source.size, gap ++ rest⟩ with
  | ok pair =>
    rw [read] at run
    cases run
  | error fault =>
    rw [read] at run
    cases run
    obtain ⟨behind, within⟩ := token_failsWithin rfl cuts.ignored cuts.opens read
    have total : source.size = min offset source.size + byteLength (gap ++ rest) := by
      have whole := cuts.size
      rwa [cuts.start, Nat.add_assoc, ← Text.byteLength_append] at whole
    exact ⟨rfl, cuts.start ▸ behind, within.trans_eq total.symm⟩

/-- Tokens are found only between two characters. -/
theorem cuts_of_accepted (run : source.tokenAt offset = .ok found) :
    ∃ before gap rest, source.Cuts offset before gap rest := by
  by_contra none
  have inside : ¬ source.Boundary (min offset source.size) := fun between => none (exists_cuts between)
  rw [Source.tokenAt, cursorAt_inside inside] at run
  cases run

theorem Cuts.ordered (cuts : source.Cuts offset before gap rest)
    (run : source.tokenAt offset = .ok found) :
    min offset source.size ≤ found.start ∧ found.start ≤ found.stop ∧ found.stop ≤ source.size ∧
      source.Boundary found.start ∧ source.Boundary found.stop ∧
      (found.start = found.stop ↔ found.lexeme = .finish) := by
  obtain ⟨text, after, lexical, rfl, start, stop⟩ := cuts.accepted.1 run
  have first := cuts.start
  have total := cuts.size
  rw [Text.byteLength_append text] at total
  have chars : source.chars = (before ++ gap ++ text) ++ after := by
    rw [cuts.chars]
    simp only [List.append_assoc]
  have ends : byteLength (before ++ gap ++ text) = found.stop := by
    rw [Text.byteLength_append, stop, start]
  refine ⟨by omega, by omega, by omega, ⟨before ++ gap, text ++ after, ?_, start.symm⟩,
    ⟨_, after, chars, ends⟩, ?_⟩
  · rw [cuts.chars, List.append_assoc]
  · rw [← lexical.empty_iff, stop]
    constructor
    · intro same
      by_contra filled
      have positive := Text.byteLength_pos filled
      omega
    · rintro rfl
      rfl

theorem Cuts.sliced (cuts : source.Cuts offset before gap rest)
    (run : source.tokenAt offset = .ok found) : ∃ text,
    Text.slice? found.start found.stop source.chars = some text ∧
      (found.lexeme.runsOn = true → found.lexeme.value? = some (String.ofList text)) := by
  obtain ⟨text, after, lexical, rfl, start, stop⟩ := cuts.accepted.1 run
  refine ⟨text, ?_, lexical.value⟩
  rw [stop, start, cuts.chars, ← List.append_assoc]
  exact Text.slice_append (before ++ gap) text after

theorem Cuts.longest (cuts : source.Cuts offset before gap rest)
    (run : source.tokenAt offset = .ok found) (runs : found.lexeme.runsOn = true) {longer : List Char}
    (kept : longer <+: rest) (word : IsName longer ∨ IsInt longer ∨ IsFloat longer) :
    byteLength longer ≤ found.stop - found.start := by
  obtain ⟨text, after, lexical, rfl, start, stop⟩ := cuts.accepted.1 run
  have shorter := lexical.longest runs kept word
  have low : byteLength longer = longer.length := by
    rcases word with name | int | float
    · exact name.low
    · exact Writing.low (.inl ⟨int, rfl⟩)
    · exact Writing.low (.inr ⟨float, rfl⟩)
  have bytes : text.length ≤ byteLength text := Text.length_le_byteLength text
  omega

theorem Cuts.number (cuts : source.Cuts offset before gap rest)
    (starts : ∃ c ∈ rest.head?, c = '-' ∨ isDigit c = true) : source.tokenAt offset = .ok found ↔
      ∃ sign whole fraction exponent after, Sign sign ∧ Whole whole ∧ Fraction fraction ∧
        Exponent exponent ∧ rest = sign ++ (whole ++ (fraction ++ exponent)) ++ after ∧
        Stops after ∧ found.lexeme = ofParts sign whole fraction exponent ∧
        found.start = byteLength (before ++ gap) ∧
        found.stop = found.start + byteLength (sign ++ (whole ++ (fraction ++ exponent))) := by
  obtain ⟨c, first, numeric⟩ := starts
  rw [cuts.accepted]
  constructor
  · rintro ⟨text, after, lexical, rfl, start, stop⟩
    obtain ⟨writing, stops⟩ := lexical.writing first numeric
    obtain ⟨sign, whole, fraction, exponent, signs, digits, point, power, rfl, kind⟩ := writing.parts
    exact ⟨sign, whole, fraction, exponent, after, signs, digits, point, power, rfl, stops, kind,
      start, stop⟩
  · rintro ⟨sign, whole, fraction, exponent, after, signs, digits, point, power, split, stops, kind,
      start, stop⟩
    have lexical := (writing_ofParts signs digits point power).lexical stops
    rw [← kind] at lexical
    exact ⟨_, after, lexical, split, start, stop⟩

theorem Cuts.string {inner : List Char} (cuts : source.Cuts offset before gap ('"' :: inner)) :
    source.tokenAt offset = .ok found ↔ ∃ value text after, Body value text ∧
      inner = text ++ '"' :: after ∧ found.lexeme = .string (String.ofList value) ∧
      found.start = byteLength (before ++ gap) ∧
      found.stop = found.start + 1 + byteLength text + 1 := by
  have quote : byteLength ['"'] = 1 := rfl
  have quoted (text : List Char) : byteLength ('"' :: (text ++ ['"'])) = 1 + byteLength text + 1 := by
    rw [byteLength, Text.byteLength_append, quote, Nat.add_assoc]
    rfl
  rw [cuts.accepted]
  constructor
  · rintro ⟨text, after, lexical, split, start, stop⟩
    obtain ⟨value, body, written, kind, rfl⟩ := lexical.body split
    refine ⟨value, body, after, written, ?_, kind, start, ?_⟩
    · simpa using split
    · rw [stop, quoted, Nat.add_assoc, Nat.add_assoc, Nat.add_assoc]
  · rintro ⟨value, body, after, written, rfl, kind, start, stop⟩
    have lexical : Lexical after (.string (String.ofList value)) ('"' :: (body ++ ['"'])) :=
      .string written
    rw [← kind] at lexical
    refine ⟨_, after, lexical, by simp, start, ?_⟩
    rw [stop, quoted, Nat.add_assoc, Nat.add_assoc, Nat.add_assoc]

end Exact

/-- The scanner finds the tokens of the lexical grammar, at every byte offset of every text. -/
theorem tokens_exact (source : Source) (offset : Nat) : source.Exact offset where
  inside inside := by
    rw [Source.tokenAt, Source.tokensFrom, cursorAt_inside inside]
    exact ⟨rfl, rfl⟩
  tiled before behind chars reached := by
    rw [Source.tokensFrom, cursorAt_between chars reached]
    exact ⟨_, @tokens_tile _ ⟨min offset source.size, behind⟩ (Nat.lt_succ_self _), rfl⟩
  unique before behind chars reached tokens fault tiles := by
    rw [Source.tokensFrom, cursorAt_between chars reached]
    obtain ⟨same, failed⟩ := tokens_of_tiles tiles (Nat.lt_succ_self _)
    exact ⟨same, failed.trans Option.isSome_map.symm⟩
  cut := exists_cuts
  accepted _ _ _ cuts _ := cuts.accepted
  refused _ _ _ cuts _ := cuts.refused
  ordered found run := by
    obtain ⟨before, gap, rest, cuts⟩ := cuts_of_accepted run
    exact cuts.ordered run
  sliced found run := by
    obtain ⟨before, gap, rest, cuts⟩ := cuts_of_accepted run
    exact cuts.sliced run
  longest _ _ _ cuts _ run runs _ kept word := cuts.longest run runs kept word
  number _ _ _ cuts starts _ := cuts.number starts
  string _ _ _ cuts _ := cuts.string

/-- A comment, part of which is no ASCII text, and a number behind it. -/
def commentedNumber : Source where
  body := "# é\n-0.5e1,x"

/-- The number is found behind the comment, and nothing inside a character. -/
theorem tokens_exact_commented :
    commentedNumber.Cuts 0 [] ['#', ' ', 'é', '\n'] ['-', '0', '.', '5', 'e', '1', ',', 'x'] ∧
    commentedNumber.tokenAt 0 = .ok ⟨.float "-0.5e1", 5, 11⟩ ∧
    ¬ commentedNumber.Boundary 3 ∧
    commentedNumber.tokenAt 3 = .error ⟨commentedNumber, 3, .unexpectedCharacter none⟩ := by
  have ignored : Ignored ['-', '0', '.', '5', 'e', '1', ',', 'x'] ['#', ' ', 'é', '\n'] :=
    @Ignored.comment _ [' ', 'é'] _ (by simp) (by simp) (.blank (by decide) .nil)
  have cuts : commentedNumber.Cuts 0 [] ['#', ' ', 'é', '\n']
      ['-', '0', '.', '5', 'e', '1', ',', 'x'] :=
    ⟨by decide, by decide, ignored, by simp [Opens, blanks]⟩
  have inside : ¬ commentedNumber.Boundary 3 := by
    rintro ⟨front, back, chars, length⟩
    have none : Text.splitAt? 3 commentedNumber.chars = none := by decide
    rw [Text.splitAt_iff.2 ⟨chars, length⟩] at none
    cases none
  refine ⟨cuts, ?_, inside, ((tokens_exact commentedNumber 3).inside inside).1⟩
  apply ((tokens_exact commentedNumber 0).number _ _ _ cuts ⟨'-', rfl, .inl rfl⟩ _).2
  have stops : Stops [',', 'x'] := by decide
  exact ⟨['-'], ['0'], ['.', '5'], ['e', '1'], [',', 'x'], .inr rfl, .zero,
    .some ⟨by simp, List.forall_mem_singleton.2 rfl⟩,
    @Exponent.some 'e' [] ['1'] (.inl rfl) (.inl rfl) ⟨by simp, List.forall_mem_singleton.2 rfl⟩, rfl,
    stops, by decide, rfl, rfl⟩

end Source
end GraphQL
