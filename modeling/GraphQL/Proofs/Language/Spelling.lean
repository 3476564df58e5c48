import Mathlib.Data.List.TakeWhile
import GraphQL.Language.Lexer
import GraphQL.Text.Quoted

/-! The spelling of a lexeme is the text that the printer gives it. The scanner reads it
back whatever follows, as long as what follows does not run on a name or a number. Every
lexeme that the scanner finds has such a spelling. -/
namespace GraphQL

namespace Lexer

/-- Text that ends a name or a number standing before it. -/
def Stops (cs : List Char) : Prop := ∀ c ∈ cs.head?, isNameRest c = false ∧ c ≠ '.'

instance (cs : List Char) : Decidable (Stops cs) :=
  decidable_of_iff (cs.head?.all (fun c => !isNameRest c && c != '.') = true) <| by
    cases cs <;> simp [Stops]

def NoDigit (cs : List Char) : Prop := ∀ c ∈ cs.head?, isDigit c = false

/-- A part of a number is found again in front of any text with the property. -/
structure Refound (scan : Cursor → Scan (List Char × Cursor)) (before : List Char → Prop)
    (found : List Char) : Prop where
  oneLine : '\n' ∉ found
  again : ∀ offset rest, before rest →
    ∃ stop, scan ⟨offset, found ++ rest⟩ = .ok (found, ⟨stop, rest⟩)

theorem Stops.noDigit {cs : List Char} (stops : Stops cs) : NoDigit cs := by
  intro c first
  have := (stops c first).1
  simp_all [isNameRest]

theorem takeWhile_stop {p : Char → Bool} {found rest : List Char} (all : ∀ c ∈ found, p c = true)
    (stop : ∀ c ∈ rest.head?, p c = false) :
    (found ++ rest).takeWhile p = found ∧ (found ++ rest).dropWhile p = rest := by
  rw [List.takeWhile_append_of_pos all, List.dropWhile_append_of_pos all]
  cases rest with
  | nil => simp
  | cons c rest => simp [stop c (by simp)]

theorem digits_refound {here after : Cursor} {found : List Char}
    (h : digits here = .ok (found, after)) :
    (∃ c cs, found = c :: cs ∧ here.rest.head? = some c ∧ isDigit c = true) ∧
      Refound digits NoDigit found := by
  have all : ∀ c ∈ here.rest.takeWhile isDigit, isDigit c = true :=
    fun c member => List.mem_takeWhile_imp member
  unfold digits at h
  split at h
  · cases h
  · rename_i nonempty
    cases h
    refine ⟨?_, fun lineFeed => absurd (all _ lineFeed) (by decide), fun offset rest stop => ?_⟩
    · cases chars : here.rest with
      | nil => simp [chars] at nonempty
      | cons c cs =>
        by_cases digit : isDigit c = true
        · exact ⟨c, _, List.takeWhile_cons_of_pos digit, rfl, digit⟩
        · simp [chars, List.takeWhile_cons_of_neg digit] at nonempty
    · obtain ⟨taken, dropped⟩ := takeWhile_stop all stop
      refine ⟨offset + (here.rest.takeWhile isDigit).length, ?_⟩
      unfold digits
      simp only [taken, dropped]
      rfl

theorem integerPart_refound {here after : Cursor} {found : List Char}
    (h : integerPart here = .ok (found, after)) :
    (∃ c cs, found = c :: cs ∧ isDigit c = true) ∧ Refound integerPart NoDigit found := by
  unfold integerPart at h
  split at h
  · rename_i rest zero
    have lone : found = ['0'] := by
      split at h
      · split at h
        · cases h
        · cases h; rfl
      · cases h; rfl
    subst lone
    refine ⟨⟨'0', [], rfl, rfl⟩, by decide, fun offset rest stop => ⟨offset + 1, ?_⟩⟩
    cases rest with
    | nil => rfl
    | cons c rest => simp [integerPart, stop c (by simp), pure, Except.pure]
  · rename_i other
    obtain ⟨⟨c, cs, rfl, first, digit⟩, again⟩ := digits_refound h
    refine ⟨⟨c, cs, rfl, digit⟩, again.oneLine, fun offset rest stop => ?_⟩
    obtain ⟨stop', reads⟩ := again.again offset rest stop
    refine ⟨stop', ?_⟩
    unfold integerPart
    split
    · rename_i tail eq
      simp only [List.cons_append, List.cons.injEq] at eq
      obtain ⟨rfl, rfl⟩ := eq
      cases chars : here.rest with
      | nil => simp [chars] at first
      | cons d ds =>
        simp only [chars, List.head?_cons, Option.some.injEq] at first
        exact absurd (first ▸ chars) (other ds)
    · exact reads

theorem fractionPart_refound {here after : Cursor} {found : List Char}
    (h : fractionPart here = .ok (found, after)) :
    (found = [] ∨ ∃ cs, found = '.' :: cs) ∧
      Refound fractionPart (fun rest => NoDigit rest ∧ rest.head? ≠ some '.') found := by
  unfold fractionPart at h
  split at h
  · rename_i rest dot
    cases scanned : digits ⟨here.offset + 1, rest⟩ with
    | error fault => simp [scanned, bind, Except.bind] at h
    | ok parts =>
      simp only [scanned, bind, Except.bind, pure, Except.pure, Except.ok.injEq, Prod.mk.injEq] at h
      obtain ⟨rfl, rfl⟩ := h
      have digits := (digits_refound scanned).2
      refine ⟨.inr ⟨_, rfl⟩, by simpa using digits.oneLine, fun offset rest stop => ?_⟩
      obtain ⟨stop', reads⟩ := digits.again (offset + 1) rest stop.1
      exact ⟨stop', by simp [fractionPart, reads, bind, Except.bind, pure, Except.pure]⟩
  · cases h
    refine ⟨.inl rfl, by simp, fun offset rest stop => ⟨offset, ?_⟩⟩
    unfold fractionPart
    split
    · rename_i tail eq
      simp only [List.nil_append] at eq
      simp [eq] at stop
    · rfl

theorem signPart_refound (signs : List Char) (here : Cursor) :
    (signPart signs here).1 = [] ∨ ∃ c ∈ signs, (signPart signs here).1 = [c] := by
  unfold signPart
  split
  · split
    · rename_i member
      exact .inr ⟨_, by simpa using member, rfl⟩
    · exact .inl rfl
  · exact .inl rfl

/-- A sign, or its absence before a digit, is found again. -/
theorem signPart_append {signs sign : List Char} {digit : Char} (offset : Nat) (rest : List Char)
    (known : sign = [] ∨ ∃ c ∈ signs, sign = [c]) (other : digit ∉ signs) :
    ∃ stop, signPart signs ⟨offset, sign ++ digit :: rest⟩ = (sign, ⟨stop, digit :: rest⟩) := by
  rcases known with rfl | ⟨c, member, rfl⟩
  · exact ⟨offset, by simp [signPart, other]⟩
  · exact ⟨offset + 1, by simp [signPart, member]⟩

theorem digit_not_sign {c : Char} (digit : isDigit c = true) : c ∉ ['+', '-'] := by
  intro member
  simp only [List.mem_cons, List.not_mem_nil, or_false] at member
  rcases member with rfl | rfl <;> exact absurd digit (by decide)

theorem exponentPart_none {offset : Nat} {rest : List Char} (stop : Stops rest) :
    exponentPart ⟨offset, rest⟩ = .ok ([], ⟨offset, rest⟩) := by
  cases rest with
  | nil => rfl
  | cons c rest =>
    have other : ¬(c = 'e' ∨ c = 'E') := by
      rintro (rfl | rfl) <;> exact absurd (stop _ rfl).1 (by decide)
    simp [exponentPart, other, pure, Except.pure]

theorem exponentPart_refound {here after : Cursor} {found : List Char}
    (h : exponentPart here = .ok (found, after)) :
    (found = [] ∨ ∃ c cs, found = c :: cs ∧ (c = 'e' ∨ c = 'E')) ∧
      Refound exponentPart Stops found := by
  have none : found = [] → (found = [] ∨ ∃ c cs, found = c :: cs ∧ (c = 'e' ∨ c = 'E')) ∧
      Refound exponentPart Stops found := by
    rintro rfl
    exact ⟨.inl rfl, by simp, fun offset rest stop => ⟨offset, exponentPart_none stop⟩⟩
  unfold exponentPart at h
  split at h
  · rename_i c rest chars
    split at h
    · rename_i letter
      simp only [Bool.or_eq_true, beq_iff_eq] at letter
      have known := signPart_refound ['+', '-'] ⟨here.offset + 1, rest⟩
      rcases signed : signPart ['+', '-'] ⟨here.offset + 1, rest⟩ with ⟨sign, unsigned⟩
      simp only [signed] at h known
      cases scanned : digits unsigned with
      | error fault => simp [scanned, bind, Except.bind] at h
      | ok parts =>
        simp only [scanned, bind, Except.bind, pure, Except.pure, Except.ok.injEq,
          Prod.mk.injEq] at h
        obtain ⟨rfl, rfl⟩ := h
        obtain ⟨⟨d, ds, eq, -, digit⟩, again⟩ := digits_refound scanned
        refine ⟨.inr ⟨c, _, rfl, letter⟩, ?_, fun offset rest stop => ?_⟩
        · have noSign : '\n' ∉ sign := by
            rcases known with rfl | ⟨d, member, rfl⟩
            · simp
            · rw [List.mem_singleton]
              rintro rfl
              exact absurd member (by decide)
          have noLetter : '\n' ≠ c := by rcases letter with rfl | rfl <;> decide
          simp [noLetter, noSign, again.oneLine]
        obtain ⟨here', resigned⟩ :=
          signPart_append (offset + 1) (ds ++ rest) known (digit_not_sign digit)
        obtain ⟨stop', reads⟩ := again.again here' rest stop.noDigit
        refine ⟨stop', ?_⟩
        simp only [eq, List.cons_append] at reads
        simp [exponentPart, letter, eq, resigned, reads, bind, Except.bind, pure, Except.pure]
    · cases h
      exact none rfl
  · cases h
    exact none rfl

/-- What a number may run into, as it stands in front of the text that follows. -/
theorem number_tail {fraction exponent rest : List Char} (stop : Stops rest)
    (dot : fraction = [] ∨ ∃ cs, fraction = '.' :: cs)
    (letter : exponent = [] ∨ ∃ c cs, exponent = c :: cs ∧ (c = 'e' ∨ c = 'E')) :
    NoDigit (fraction ++ (exponent ++ rest)) ∧
      NoDigit (exponent ++ rest) ∧ (exponent ++ rest).head? ≠ some '.' := by
  have after : NoDigit (exponent ++ rest) ∧ (exponent ++ rest).head? ≠ some '.' := by
    rcases letter with rfl | ⟨c, cs, rfl, letter⟩
    · exact ⟨stop.noDigit, fun dot => (stop _ dot).2 rfl⟩
    · rcases letter with rfl | rfl <;> exact ⟨by rintro _ ⟨⟩; decide, by simp⟩
  refine ⟨?_, after⟩
  rcases dot with rfl | ⟨cs, rfl⟩
  · exact after.1
  · rintro _ ⟨⟩
    decide

theorem bind_eq_ok {α β : Type} {first : Scan α} {next : α → Scan β} {b : β} :
    (first >>= next) = .ok b ↔ ∃ a, first = .ok a ∧ next a = .ok b := by
  cases first <;> simp [bind, Except.bind]

/-- The lexeme that the parts of a number make up. -/
def ofParts (sign whole fraction exponent : List Char) : Lexeme :=
  let text := String.ofList (sign ++ whole ++ fraction ++ exponent)
  if fraction.isEmpty && exponent.isEmpty then .int text else .float text

theorem number_parts {here after : Cursor} {found : Lexeme} :
    number here = .ok (found, after) ↔
      ∃ whole afterWhole fraction afterFraction exponent,
        integerPart (signPart ['-'] here).2 = .ok (whole, afterWhole) ∧
        fractionPart afterWhole = .ok (fraction, afterFraction) ∧
        exponentPart afterFraction = .ok (exponent, after) ∧
        (∀ c ∈ after.rest.head?, (c == '.' || isNameStart c) = false) ∧
        found = ofParts (signPart ['-'] here).1 whole fraction exponent := by
  simp only [number, bind_eq_ok, Prod.exists]
  constructor
  · rintro ⟨whole, afterWhole, hw, fraction, afterFraction, hf, exponent, last, he, h⟩
    refine ⟨whole, afterWhole, fraction, afterFraction, exponent, hw, hf, ?_⟩
    split at h
    · rename_i next first
      split at h
      · cases h
      · rename_i free
        cases h
        exact ⟨he, by simpa [first] using free, rfl⟩
    · rename_i first
      cases h
      exact ⟨he, by simp [first], rfl⟩
  · rintro ⟨whole, afterWhole, fraction, afterFraction, exponent, hw, hf, he, free, rfl⟩
    refine ⟨whole, afterWhole, hw, fraction, afterFraction, hf, exponent, after, he, ?_⟩
    split
    · rename_i next first
      rw [if_neg (by simpa using free next first)]
      rfl
    · rfl

theorem number_refound {here after : Cursor} {found : Lexeme}
    (h : number here = .ok (found, after)) :
    ∃ c cs, (found = .int (String.ofList (c :: cs)) ∨ found = .float (String.ofList (c :: cs))) ∧
      (c = '-' ∨ isDigit c = true) ∧ '\n' ∉ c :: cs ∧
      ∀ offset rest, Stops rest →
        ∃ stop, number ⟨offset, c :: cs ++ rest⟩ = .ok (found, ⟨stop, rest⟩) := by
  obtain ⟨whole, afterWhole, fraction, afterFraction, exponent, hw, hf, he, -, rfl⟩ :=
    number_parts.mp h
  have known := signPart_refound ['-'] here
  generalize (signPart ['-'] here).1 = sign at known
  obtain ⟨⟨d, ds, rfl, digit⟩, wholeAgain⟩ := integerPart_refound hw
  obtain ⟨dot, fractionAgain⟩ := fractionPart_refound hf
  obtain ⟨letter, exponentAgain⟩ := exponentPart_refound he
  have lead : ∃ c cs, sign ++ d :: ds ++ fraction ++ exponent = c :: cs ∧
      (c = '-' ∨ isDigit c = true) := by
    rcases known with rfl | ⟨c, member, rfl⟩
    · exact ⟨d, _, rfl, .inr digit⟩
    · exact ⟨c, _, rfl, .inl (by simpa using member)⟩
  obtain ⟨c, cs, text, first⟩ := lead
  refine ⟨c, cs, ?_, first, ?_, fun offset rest stop => ?_⟩
  · unfold ofParts
    rw [text]
    split
    · exact .inl rfl
    · exact .inr rfl
  · have noSign : '\n' ∉ sign := by
      rcases known with rfl | ⟨c, member, rfl⟩
      · simp
      · simp_all
    rw [← text]
    simp only [List.mem_append, not_or]
    exact ⟨⟨⟨noSign, wholeAgain.oneLine⟩, fractionAgain.oneLine⟩, exponentAgain.oneLine⟩
  · obtain ⟨beforeFraction, beforeExponent⟩ := number_tail stop dot letter
    obtain ⟨o₁, resigned⟩ := signPart_append offset (ds ++ (fraction ++ (exponent ++ rest)))
      known (fun member => digit_not_sign digit (List.mem_cons_of_mem _ member))
    obtain ⟨o₂, rewhole⟩ := wholeAgain.again o₁ _ beforeFraction
    obtain ⟨o₃, refraction⟩ := fractionAgain.again o₂ _ beforeExponent
    obtain ⟨o₄, reexponent⟩ := exponentAgain.again o₃ _ stop
    refine ⟨o₄, ?_⟩
    have shape : c :: cs ++ rest = sign ++ d :: (ds ++ (fraction ++ (exponent ++ rest))) := by
      rw [← text]
      simp
    rw [shape]
    refine number_parts.mpr ⟨d :: ds, _, fraction, _, exponent, ?_, refraction, reexponent, ?_, ?_⟩
    · rw [resigned]
      exact rewhole
    · intro next first
      obtain ⟨notRest, notDot⟩ := stop next first
      simp_all [isNameRest]
    · rw [resigned]

/-- Each character below a blank is read back from its four hexadecimal digits. -/
theorem unicodeEscape_low {c : Char} (low : c.toNat < 32) :
    unicodeEscape? '0' '0' (Text.hexDigit (c.toNat / 16)) (Text.hexDigit (c.toNat % 16)) =
      some c := by
  have all : ∀ n < 32, unicodeEscape? '0' '0' (Text.hexDigit (n / 16)) (Text.hexDigit (n % 16)) =
      some (Char.ofNat n) := by decide
  rw [all _ low, Char.ofNat_toNat]

theorem stringBody_letter {letter c : Char} (offset : Nat) (rest : List Char)
    (other : letter ≠ 'u') (known : simpleEscape? letter = some c) :
    stringBody offset ('\\' :: letter :: rest) = prepend c (stringBody (offset + 2) rest) := by
  rw [stringBody]
  · simp only [known]
  · exact other

/-- A quoted character is a one-letter escape, four digits, or the character itself. -/
theorem escapeChar_forms (c : Char) :
    (∃ letter, letter ≠ 'u' ∧ letter ≠ '\n' ∧ simpleEscape? letter = some c ∧
      Text.escapeChar c = ['\\', letter]) ∨
    (c.toNat < 32 ∧ Text.escapeChar c =
      ['\\', 'u', '0', '0', Text.hexDigit (c.toNat / 16), Text.hexDigit (c.toNat % 16)]) ∨
    (32 ≤ c.toNat ∧ c ≠ '"' ∧ c ≠ '\\' ∧ Text.escapeChar c = [c]) := by
  unfold Text.escapeChar
  iterate 7
    split
    · subst c
      exact .inl ⟨_, by decide, by decide, rfl, rfl⟩
  split
  · rename_i low
    exact .inr (.inl ⟨low, rfl⟩)
  · rename_i notQuote notBackslash _ _ _ _ _ high
    exact .inr (.inr ⟨Nat.le_of_not_lt high, notQuote, notBackslash, rfl⟩)

theorem stringBody_escape (c : Char) (offset : Nat) (rest : List Char) :
    ∃ next, stringBody offset (Text.escapeChar c ++ rest) = prepend c (stringBody next rest) := by
  rcases escapeChar_forms c with ⟨letter, other, -, known, form⟩ | ⟨low, form⟩ |
    ⟨high, notQuote, notBackslash, form⟩
  · rw [form]
    exact ⟨_, stringBody_letter offset rest other known⟩
  · refine ⟨offset + 6, ?_⟩
    simp only [form, List.cons_append, List.nil_append]
    rw [stringBody]
    simp only [unicodeEscape_low low]
  · refine ⟨offset + c.utf8Size, ?_⟩
    have noBreak : ¬isLineBreak c = true := by
      intro lineBreak
      rcases (by simpa [isLineBreak] using lineBreak : c = '\n' ∨ c = '\r') with rfl | rfl <;>
        exact absurd high (by decide)
    rw [form, List.singleton_append, stringBody]
    · simp [noBreak, Nat.not_lt.mpr high]
    · exact notQuote
    · exact notBackslash

theorem lineFeed_notMem_escapeChar (c : Char) : '\n' ∉ Text.escapeChar c := by
  have digit : ∀ n < 16, Text.hexDigit n ≠ '\n' := by decide
  rcases escapeChar_forms c with ⟨letter, -, other, -, form⟩ | ⟨low, form⟩ | ⟨high, -, -, form⟩
  · simp [form, other.symm]
  · have upper := digit (c.toNat / 16) (by omega)
    have lower := digit (c.toNat % 16) (by omega)
    simp [form, upper.symm, lower.symm]
  · rw [form, List.mem_singleton]
    rintro rfl
    exact absurd high (by decide)

/-- A quoted text is read back, whatever follows it. -/
theorem stringBody_quoted (value : List Char) (offset : Nat) (rest : List Char) :
    ∃ stop, stringBody offset (value.flatMap Text.escapeChar ++ '"' :: rest) =
      .ok (value, ⟨stop, rest⟩) := by
  induction value generalizing offset with
  | nil => exact ⟨offset + 1, by rw [List.flatMap_nil, List.nil_append, stringBody]; rfl⟩
  | cons c value ih =>
    obtain ⟨next, step⟩ := stringBody_escape c offset (value.flatMap Text.escapeChar ++ '"' :: rest)
    obtain ⟨stop, tail⟩ := ih next
    refine ⟨stop, ?_⟩
    rw [List.flatMap_cons, List.append_assoc, step, tail]
    rfl

end Lexer

namespace Lexeme
open Lexer

/-- The canonical text of a lexeme. -/
def spelling : Lexeme → List Char
  | finish => []
  | punctuator mark => mark.text.toList
  | name text | int text | float text => text.toList
  | string value => Text.quoteChars value.toList

/-- Whether the text of a lexeme may run into the text that follows. -/
def runsOn : Lexeme → Bool
  | name _ | int _ | float _ => true
  | _ => false

/-- What may stand right after a lexeme. -/
def Before (lexeme : Lexeme) (rest : List Char) : Prop := lexeme.runsOn = true → Stops rest

/-- The scanner reads a lexeme back from its canonical text, which starts a new lexeme and
holds no line break. -/
structure Spelled (lexeme : Lexeme) : Prop where
  starts : ∃ c cs, lexeme.spelling = c :: cs ∧ isBlank c = false ∧ c ≠ '#'
  oneLine : '\n' ∉ lexeme.spelling
  reads : ∀ offset rest, lexeme.Before rest →
    ∃ stop, Lexer.lexeme ⟨offset, lexeme.spelling ++ rest⟩ = .ok (lexeme, ⟨stop, rest⟩)

theorem punctuator_spelled (mark : Punctuator) : (punctuator mark).Spelled where
  starts := by cases mark <;> exact ⟨_, _, rfl, by decide, by decide⟩
  oneLine := by cases mark <;> decide
  reads offset rest _ := by cases mark <;> exact ⟨_, rfl⟩

theorem string_spelled (value : String) : (string value).Spelled where
  starts := ⟨'"', _, rfl, by decide, by decide⟩
  oneLine := by
    simp [spelling, Text.quoteChars, lineFeed_notMem_escapeChar]
  reads offset rest _ := by
    obtain ⟨stop, reads⟩ := stringBody_quoted value.toList (offset + 1) rest
    refine ⟨stop, ?_⟩
    simp [spelling, Text.quoteChars, Lexer.lexeme, reads, bind, Except.bind, pure, Except.pure]

/-- The characters that names and numbers start with start no other lexeme. -/
theorem word_start {c : Char} (word : isNameRest c = true ∨ c = '-') :
    isBlank c = false ∧ c ≠ '#' ∧ c ≠ '"' ∧ c ≠ '.' ∧ Punctuator.ofChar? c = none := by
  refine ⟨Bool.eq_false_iff.mpr fun blank => ?_, ?_, ?_, ?_, ?_⟩
  · simp only [isBlank, isLineBreak, Bool.or_eq_true, beq_iff_eq] at blank
    rcases blank with (((rfl | rfl) | rfl) | rfl | rfl) | rfl <;> exact absurd word (by decide)
  · rintro rfl
    exact absurd word (by decide)
  · rintro rfl
    exact absurd word (by decide)
  · rintro rfl
    exact absurd word (by decide)
  · unfold Punctuator.ofChar?
    split <;> first | rfl | exact absurd word (by decide)

theorem lexeme_word {c : Char} (word : isNameRest c = true ∨ c = '-') (offset : Nat)
    (cs : List Char) : Lexer.lexeme ⟨offset, c :: cs⟩ =
      if c == '-' || isDigit c then number ⟨offset, c :: cs⟩
      else
        let text := (c :: cs).takeWhile isNameRest
        .ok (.name (String.ofList text), ⟨offset + text.length, (c :: cs).dropWhile isNameRest⟩) := by
  obtain ⟨-, -, notQuote, notDot, notMark⟩ := word_start word
  unfold Lexer.lexeme
  split
  · rename_i none
    cases none
  · rename_i dots
    cases dots
    contradiction
  · rename_i quote
    cases quote
    contradiction
  · rename_i d ds _ _ eq
    cases eq
    simp only [notMark]
    split
    · rfl
    · rename_i notNumber
      have start : isNameStart c = true := by
        rcases word with word | rfl
        · simp_all [isNameRest]
        · simp at notNumber
      rw [if_pos start]
      rfl

theorem digit_not_nameStart {c : Char} (start : isNameStart c = true) : isDigit c = false := by
  simp only [isNameStart, Bool.or_eq_true, beq_iff_eq, Bool.and_eq_true, decide_eq_true_eq,
    Char.le_def, UInt32.le_iff_toNat_le] at start
  rcases start with (rfl | ⟨low, -⟩) | ⟨low, -⟩
  · decide
  · exact Bool.eq_false_iff.mpr fun digit => by
      simp [isDigit, Char.le_def, UInt32.le_iff_toNat_le] at digit low
      omega
  · exact Bool.eq_false_iff.mpr fun digit => by
      simp [isDigit, Char.le_def, UInt32.le_iff_toNat_le] at digit low
      omega

theorem name_spelled {c : Char} {cs : List Char} (start : isNameStart c = true)
    (more : ∀ d ∈ cs, isNameRest d = true) : (name (String.ofList (c :: cs))).Spelled := by
  have word : isNameRest c = true := by simp [isNameRest, start]
  have all : ∀ d ∈ c :: cs, isNameRest d = true := by simpa [word] using more
  have notMinus : c ≠ '-' := by
    rintro rfl
    exact absurd start (by decide)
  obtain ⟨notBlank, notHash, -⟩ := word_start (.inl word)
  refine ⟨⟨c, cs, by simp [spelling], notBlank, notHash⟩, ?_, fun offset rest stops => ?_⟩
  · rw [spelling, String.toList_ofList]
    exact fun lineFeed => absurd (all _ lineFeed) (by decide)
  · obtain ⟨taken, dropped⟩ := takeWhile_stop all fun d first => (stops rfl d first).1
    rw [List.cons_append] at taken dropped
    refine ⟨offset + (c :: cs).length, ?_⟩
    rw [spelling, String.toList_ofList, List.cons_append, lexeme_word (.inl word)]
    simp [notMinus, digit_not_nameStart start, taken, dropped]

theorem number_spelled {here after : Cursor} {found : Lexeme}
    (h : number here = .ok (found, after)) : found.Spelled := by
  obtain ⟨c, cs, kind, first, oneLine, again⟩ := number_refound h
  have word : isNameRest c = true ∨ c = '-' := by
    rcases first with rfl | digit
    · exact .inr rfl
    · exact .inl (by simp [isNameRest, digit])
  have spelled : found.spelling = c :: cs := by
    rcases kind with rfl | rfl <;> exact String.toList_ofList
  have runs : found.runsOn = true := by rcases kind with rfl | rfl <;> rfl
  obtain ⟨notBlank, notHash, -⟩ := word_start word
  refine ⟨⟨c, cs, spelled, notBlank, notHash⟩, spelled ▸ oneLine, fun offset rest stops => ?_⟩
  obtain ⟨stop, reads⟩ := again offset rest (stops runs)
  refine ⟨stop, ?_⟩
  rw [spelled, List.cons_append, lexeme_word word, if_pos (by simpa using first)]
  exact reads

/-- Every lexeme that the scanner finds is spelled, the end of the text aside. -/
theorem lexeme_spelled {here after : Cursor} {found : Lexeme}
    (h : Lexer.lexeme here = .ok (found, after)) : found = .finish ∨ found.Spelled := by
  unfold Lexer.lexeme at h
  split at h
  · cases h
    exact .inl rfl
  · cases h
    exact .inr (punctuator_spelled _)
  · obtain ⟨⟨value, stop⟩, -, ends⟩ := bind_eq_ok.mp h
    cases ends
    exact .inr (string_spelled _)
  · rename_i c rest _ _ chars
    right
    split at h
    · cases h
      exact punctuator_spelled _
    split at h
    · exact number_spelled h
    split at h
    · rename_i notNumber start
      cases h
      have word : isNameRest c = true := by simp [isNameRest, start]
      rw [chars, List.takeWhile_cons_of_pos word]
      exact name_spelled start fun d member => List.mem_takeWhile_imp member
    · cases h

end Lexeme
end GraphQL
