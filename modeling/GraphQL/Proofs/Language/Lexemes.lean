import Mathlib.Data.List.Chain
import GraphQL.Proofs.Language.Lexis

/-! Lexemes and their texts. The scanner reads a lexeme exactly where a text of it stands, in front
of what it may run into. Names and numbers are the longest texts that could be read there. -/
namespace GraphQL.Lexis

open Lexer
open Text (byteLength)

section Strings

theorem hexValue_iff {c : Char} {value : Nat} : hexValue? c = some value ↔ HexDigit c value := by
  constructor
  · intro known
    have digits : ∀ n < 10, Char.ofNat (n + 48) = n.digitChar := by decide
    have lower : ∀ n < 6, Char.ofNat (n + 97) = (n + 10).digitChar := by decide
    have upper : ∀ n < 6, Char.ofNat (n + 65) = (n + 10).digitChar.toUpper := by decide
    have same (base n : Nat) (found : c.toNat = n + base) : c = Char.ofNat (n + base) := by
      rw [← found, Char.ofNat_toNat]
    simp only [hexValue?, isDigit, Bool.and_eq_true, decide_eq_true_eq, Char.le_def,
      UInt32.le_iff_toNat_le] at known
    split at known
    · rename_i range
      obtain ⟨low, high⟩ : 48 ≤ c.toNat ∧ c.toNat ≤ 57 := range
      obtain rfl : c.toNat - 48 = value := Option.some.inj known
      refine ⟨by omega, .inl ?_⟩
      rw [← digits _ (by omega)]
      exact same 48 _ (by omega)
    split at known
    · rename_i range
      obtain ⟨low, high⟩ : 97 ≤ c.toNat ∧ c.toNat ≤ 102 := range
      obtain rfl : c.toNat - 97 + 10 = value := Option.some.inj known
      refine ⟨by omega, .inl ?_⟩
      rw [← lower _ (by omega)]
      exact same 97 _ (by omega)
    split at known
    · rename_i range
      obtain ⟨low, high⟩ : 65 ≤ c.toNat ∧ c.toNat ≤ 70 := range
      obtain rfl : c.toNat - 65 + 10 = value := Option.some.inj known
      refine ⟨by omega, .inr ?_⟩
      rw [← upper _ (by omega)]
      exact same 65 _ (by omega)
    · cases known
  · have all : ∀ n < 16, hexValue? n.digitChar = some n ∧ hexValue? n.digitChar.toUpper = some n := by
      decide
    rintro ⟨small, rfl | rfl⟩
    · exact (all value small).1
    · exact (all value small).2

theorem unicodeEscape_iff {d₁ d₂ d₃ d₄ c : Char} : unicodeEscape? d₁ d₂ d₃ d₄ = some c ↔
    ∃ n₁ n₂ n₃ n₄, HexDigit d₁ n₁ ∧ HexDigit d₂ n₂ ∧ HexDigit d₃ n₃ ∧ HexDigit d₄ n₄ ∧
      c.toNat = ((n₁ * 16 + n₂) * 16 + n₃) * 16 + n₄ := by
  simp only [unicodeEscape?, Option.bind_eq_bind, Option.bind_eq_some_iff, ← hexValue_iff]
  constructor
  · rintro ⟨n₁, h₁, n₂, h₂, n₃, h₃, n₄, h₄, decoded⟩
    refine ⟨n₁, n₂, n₃, n₄, h₁, h₂, h₃, h₄, ?_⟩
    split at decoded
    · rename_i valid
      cases decoded
      rw [Char.ofNat, dif_pos valid]
      rfl
    · cases decoded
  · rintro ⟨n₁, n₂, n₃, n₄, h₁, h₂, h₃, h₄, code⟩
    refine ⟨n₁, h₁, n₂, h₂, n₃, h₃, n₄, h₄, ?_⟩
    rw [← code, if_pos (show c.toNat.isValidChar from c.valid), Char.ofNat_toNat]
    rfl

theorem simpleEscape_iff {letter c : Char} :
    simpleEscape? letter = some c ↔ (letter, c) ∈ escapes := by
  constructor
  · intro known
    unfold simpleEscape? at known
    split at known <;> cases known <;> decide
  · intro member
    simp only [escapes, List.mem_cons, Prod.mk.injEq, List.not_mem_nil, or_false] at member
    rcases member with ⟨rfl, rfl⟩ | ⟨rfl, rfl⟩ | ⟨rfl, rfl⟩ | ⟨rfl, rfl⟩ | ⟨rfl, rfl⟩ | ⟨rfl, rfl⟩ |
      ⟨rfl, rfl⟩ | ⟨rfl, rfl⟩ <;> rfl

/-- The characters that may stand in a string as they are. -/
theorem plain_iff {c : Char} : (isLineBreak c = false ∧ (c.toNat < 32 && c != '\t') = false) ↔
    c = '\t' ∨ 32 ≤ c.toNat := by
  constructor
  · rintro ⟨-, allowed⟩
    by_cases tab : c = '\t'
    · exact .inl tab
    · right
      simpa [tab] using allowed
  · rintro (rfl | high)
    · decide
    · refine ⟨Bool.eq_false_iff.2 fun breaks => ?_, by simp; omega⟩
      rcases isLineBreak_iff.1 breaks with rfl | rfl
      · exact absurd high (by decide)
      · exact absurd high (by decide)

/-- A written character is read with one step. -/
theorem stringBody_writes {c : Char} {text : List Char} (writes : Writes c text) (offset : Nat)
    (rest : List Char) : stringBody offset (text ++ rest) =
      prepend c (stringBody (offset + byteLength text) rest) := by
  cases writes with
  | plain notQuote notBackslash allowed =>
    obtain ⟨sameLine, allowed⟩ := plain_iff.2 allowed
    rw [List.singleton_append, stringBody]
    · simp [sameLine, allowed, byteLength]
    · exact notQuote
    · exact notBackslash
  | @escape letter _ member =>
    have known := simpleEscape_iff.2 member
    have other : letter ≠ 'u' := by
      rintro rfl
      cases known
    have size : byteLength ['\\', letter] = 2 := by
      simp [byteLength, simpleEscape_low known]
      rfl
    rw [size]
    exact stringBody_letter offset rest other known
  | unicode h₁ h₂ h₃ h₄ code =>
    have known := unicodeEscape_iff.2 ⟨_, _, _, _, h₁, h₂, h₃, h₄, code⟩
    rw [unicodeEscape_size known]
    simp [stringBody, known]

variable {offset stop : Nat} {chars rest value : List Char}

/-- A character that is written in front of a body makes a body with it. -/
theorem body_cons {c : Char} {front behind : List Char} (writes : Writes c front)
    (later : ∃ text, Body value text ∧ behind = text ++ '"' :: rest ∧
      stop = offset + byteLength front + byteLength text + 1) :
    ∃ text, Body (c :: value) text ∧ front ++ behind = text ++ '"' :: rest ∧
      stop = offset + byteLength text + 1 := by
  obtain ⟨text, body, rfl, stops⟩ := later
  refine ⟨front ++ text, .cons writes body, by rw [List.append_assoc], ?_⟩
  rw [stops, Text.byteLength_append]
  omega

theorem stringBody_iff : stringBody offset chars = .ok (value, ⟨stop, rest⟩) ↔
    ∃ text, Body value text ∧ chars = text ++ '"' :: rest ∧
      stop = offset + byteLength text + 1 := by
  constructor
  · intro run
    fun_induction stringBody offset chars generalizing value with
    | case1 | case3 | case5 | case6 | case8 | case9 | case10 => cases run
    | case2 offset behind =>
      cases run
      exact ⟨[], .nil, rfl, rfl⟩
    | case4 offset a b c d behind decoded known ih =>
      obtain ⟨inner, read, rfl⟩ := prepend_ok run
      obtain ⟨_, _, _, _, h₁, h₂, h₃, h₄, code⟩ := unicodeEscape_iff.1 known
      have size := unicodeEscape_size known
      rw [← size] at ih read
      exact body_cons (.unicode h₁ h₂ h₃ h₄ code) (ih read)
    | case7 offset letter behind other decoded known ih =>
      obtain ⟨inner, read, rfl⟩ := prepend_ok run
      have size : byteLength ['\\', letter] = 2 := by
        simp [byteLength, simpleEscape_low known]
        rfl
      rw [← size] at ih read
      exact body_cons (.escape (simpleEscape_iff.1 known)) (ih read)
    | case11 offset c behind notQuote notBackslash sameLine allowed ih =>
      obtain ⟨inner, read, rfl⟩ := prepend_ok run
      have size : byteLength [c] = c.utf8Size := Nat.add_zero _
      rw [← size] at ih read
      have plain := plain_iff.1 ⟨Bool.eq_false_iff.2 sameLine, Bool.eq_false_iff.2 allowed⟩
      exact body_cons (.plain (fun same => notQuote same) (fun same => notBackslash same) plain) (ih read)
  · rintro ⟨text, body, rfl, rfl⟩
    induction body generalizing offset with
    | nil => rfl
    | @cons c value text more writes _ ih =>
      rw [List.append_assoc, stringBody_writes writes, ih, Text.byteLength_append, ← Nat.add_assoc]
      rfl

end Strings

section Lexemes
variable {offset stop : Nat} {chars rest text : List Char} {found : Lexeme}

theorem ofChar_text {c : Char} {mark : Punctuator} (known : Punctuator.ofChar? c = some mark) :
    mark.text.toList = [c] := by
  unfold Punctuator.ofChar? at known
  split at known <;> cases known <;> rfl

/-- The characters of names, and those of numbers, take one byte each. -/
theorem IsName.low (name : IsName text) : byteLength text = text.length := by
  obtain ⟨c, cs, rfl, start, more⟩ := name
  apply Text.byteLength_low
  have first : c.utf8Size = 1 := nameRest_low (by simp [isNameRest, start])
  exact List.forall_mem_cons.2 ⟨first, fun d member => nameRest_low (more d member)⟩

theorem Whole.digits {whole : List Char} (digits : Whole whole) : ∀ c ∈ whole, isDigit c = true := by
  cases digits with
  | zero => exact List.forall_mem_singleton.2 rfl
  | other first _ more => exact List.forall_mem_cons.2 ⟨first, more⟩

/-- The characters of numbers. -/
def isNumeric (c : Char) : Bool := isDigit c || ['-', '+', '.', 'e', 'E'].contains c

theorem numeric_of_digits {cs : List Char} (digits : ∀ c ∈ cs, isDigit c = true) :
    ∀ c ∈ cs, isNumeric c = true := by
  intro c member
  simp [isNumeric, digits c member]

theorem Writing.numeric (writing : Writing found text) : ∀ c ∈ text, isNumeric c = true := by
  obtain ⟨sign, whole, fraction, exponent, signs, digits, point, power, rfl, -⟩ := writing.parts
  simp only [List.forall_mem_append]
  refine ⟨?_, numeric_of_digits digits.digits, ?_, ?_⟩
  · rcases signs with rfl | rfl
    · exact List.forall_mem_nil _
    · exact List.forall_mem_singleton.2 rfl
  · cases point with
    | none => simp
    | some digits => exact List.forall_mem_cons.2 ⟨by decide, numeric_of_digits digits.2⟩
  · cases power with
    | none => simp
    | some letter signs digits =>
      refine List.forall_mem_cons.2 ⟨?_, List.forall_mem_append.2 ⟨?_, numeric_of_digits digits.2⟩⟩
      · rcases letter with rfl | rfl <;> decide
      · rcases signs with rfl | rfl | rfl
        · exact List.forall_mem_nil _
        · exact List.forall_mem_singleton.2 rfl
        · exact List.forall_mem_singleton.2 rfl

theorem Writing.low (writing : Writing found text) : byteLength text = text.length := by
  apply Text.byteLength_low
  intro c member
  have numeric := writing.numeric c member
  simp only [isNumeric, Bool.or_eq_true, List.contains_iff_mem, List.mem_cons, List.not_mem_nil,
    or_false] at numeric
  rcases numeric with digit | rfl | rfl | rfl | rfl | rfl
  · exact digit_low digit
  all_goals decide

/-- A number starts with a digit or a minus. -/
theorem Writing.starts (writing : Writing found text) :
    ∃ c cs, text = c :: cs ∧ (c == '-' || isDigit c) = true := by
  obtain ⟨sign, whole, fraction, exponent, signs, digits, point, power, rfl, -⟩ := writing.parts
  obtain ⟨d, ds, rfl, digit⟩ := digits.starts
  rcases signs with rfl | rfl
  · exact ⟨d, _, rfl, by simp [digit]⟩
  · exact ⟨'-', _, rfl, rfl⟩

theorem Writing.lexical (writing : Writing found text) (stops : Stops rest) :
    Lexical rest found text := by
  rcases writing with ⟨int, rfl⟩ | ⟨float, rfl⟩
  · exact .int int stops
  · exact .float float stops

theorem lexeme_sound (run : lexeme ⟨offset, chars⟩ = .ok (found, ⟨stop, rest⟩)) :
    ∃ text, Lexical rest found text ∧ chars = text ++ rest ∧ stop = offset + byteLength text := by
  unfold lexeme at run
  split at run
  · rename_i none
    obtain rfl : chars = [] := none
    cases run
    exact ⟨[], .finish rfl, rfl, rfl⟩
  · rename_i behind dots
    obtain rfl : chars = '.' :: '.' :: '.' :: behind := dots
    cases run
    exact ⟨_, .punctuator .spread, rfl, rfl⟩
  · rename_i behind quote
    obtain rfl : chars = '"' :: behind := quote
    obtain ⟨⟨value, last⟩, step, ends⟩ := bind_eq_ok.mp run
    cases ends
    obtain ⟨text, body, rfl, rfl⟩ := stringBody_iff.1 step
    refine ⟨_, .string body, by simp, ?_⟩
    have quote : byteLength ['"'] = 1 := rfl
    have front : byteLength ('"' :: (text ++ ['"'])) = 1 + byteLength (text ++ ['"']) := rfl
    show offset + 1 + byteLength text + 1 = _
    rw [front, Text.byteLength_append, quote]
    omega
  · rename_i c behind _ _ split
    obtain rfl : chars = c :: behind := split
    split at run
    · rename_i mark known
      cases run
      refine ⟨_, .punctuator mark, by rw [ofChar_text known]; rfl, ?_⟩
      rw [ofChar_text known, byteLength, (lexeme_mark known 0 []).2]
      rfl
    split at run
    · obtain ⟨text, writing, split, rfl, stops⟩ := number_lexical.1 run
      exact ⟨text, writing.lexical stops, split, by rw [writing.low]⟩
    split at run
    · rename_i start
      cases run
      have word : isNameRest c = true := by simp [isNameRest, start]
      have name : IsName ((c :: behind).takeWhile isNameRest) := by
        rw [List.takeWhile_cons_of_pos word]
        exact ⟨c, _, rfl, start, fun d member => List.mem_takeWhile_imp member⟩
      exact ⟨_, .name name fun d => head_dropWhile d, List.takeWhile_append_dropWhile.symm,
        by rw [name.low]⟩
    · cases run

theorem lexeme_complete (lexical : Lexical rest found text) (offset : Nat) :
    lexeme ⟨offset, text ++ rest⟩ = .ok (found, ⟨offset + byteLength text, rest⟩) := by
  have number {text : List Char} {found : Lexeme} (writing : Writing found text)
      (stops : Stops rest) :
      lexeme ⟨offset, text ++ rest⟩ = .ok (found, ⟨offset + byteLength text, rest⟩) := by
    obtain ⟨c, cs, same, numeric⟩ := writing.starts
    have word : isNameRest c = true ∨ c = '-' := by
      simp only [Bool.or_eq_true, beq_iff_eq] at numeric
      rcases numeric with minus | digit
      · exact .inr minus
      · exact .inl (by simp [isNameRest, digit])
    have read : lexeme ⟨offset, text ++ rest⟩ = Lexer.number ⟨offset, text ++ rest⟩ := by
      rw [same, List.cons_append, Lexeme.lexeme_word word, if_pos numeric]
    rw [read, writing.low]
    exact number_lexical.2 ⟨text, writing, rfl, rfl, stops⟩
  cases lexical with
  | finish none =>
    subst none
    rfl
  | punctuator mark => cases mark <;> rfl
  | int int stops => exact number (.inl ⟨int, rfl⟩) stops
  | float float stops => exact number (.inr ⟨float, rfl⟩) stops
  | name name stops =>
    have low := name.low
    obtain ⟨c, cs, rfl, start, more⟩ := name
    have word : isNameRest c = true := by simp [isNameRest, start]
    have all : ∀ d ∈ c :: cs, isNameRest d = true := List.forall_mem_cons.2 ⟨word, more⟩
    have notMinus : (c == '-') = false := by
      rw [beq_eq_false_iff_ne]
      rintro rfl
      exact absurd start (by decide)
    obtain ⟨taken, dropped⟩ := takeWhile_stop all stops
    rw [List.cons_append, Lexeme.lexeme_word (.inl word), ← List.cons_append]
    simp only [notMinus, Lexeme.digit_not_nameStart start, Bool.or_self, Bool.false_eq_true, if_false,
      taken, dropped, low]
  | @string value text body =>
    have read : stringBody (offset + 1) (text ++ '"' :: rest) =
        .ok (value, ⟨offset + 1 + byteLength text + 1, rest⟩) :=
      stringBody_iff.2 ⟨text, body, rfl, rfl⟩
    have total : offset + byteLength ('"' :: (text ++ ['"'])) =
        offset + 1 + byteLength text + 1 := by
      have quote : byteLength ['"'] = 1 := rfl
      have front : byteLength ('"' :: (text ++ ['"'])) = 1 + byteLength (text ++ ['"']) := rfl
      rw [front, Text.byteLength_append, quote]
      omega
    rw [List.cons_append, List.append_assoc, List.singleton_append, total]
    simp only [lexeme, read]
    rfl

/-- A lexeme is read where its text stands, in front of what it may run into. -/
theorem lexeme_iff : lexeme ⟨offset, chars⟩ = .ok (found, ⟨stop, rest⟩) ↔ ∃ text,
    Lexical rest found text ∧ chars = text ++ rest ∧ stop = offset + byteLength text := by
  constructor
  · exact lexeme_sound
  · rintro ⟨text, lexical, rfl, rfl⟩
    exact lexeme_complete lexical offset

theorem Lexical.spelled (lexical : Lexical [] found text) (unfinished : found ≠ .finish) :
    found.Spelled :=
  (Lexeme.lexeme_spelled (lexeme_complete lexical 0)).resolve_left unfinished

theorem IsName.spelled {word : String} (name : IsName word.toList) : (Lexeme.name word).Spelled := by
  have lexical : Lexical [] (.name (String.ofList word.toList)) word.toList := .name name nofun
  rw [String.ofList_toList] at lexical
  exact lexical.spelled nofun

theorem int_spelled_iff {digits : String} : (Lexeme.int digits).Spelled ↔ IsInt digits.toList := by
  constructor
  · intro spelled
    obtain ⟨_, read⟩ := spelled.reads 0 [] fun _ => nofun
    obtain ⟨_, lexical, same, -⟩ := lexeme_sound read
    rw [List.append_nil, List.append_nil] at same
    rw [show digits.toList = _ from same]
    cases lexical with
    | int int _ => exact int
  · intro int
    have lexical : Lexical [] (.int (String.ofList digits.toList)) digits.toList := .int int nofun
    rw [String.ofList_toList] at lexical
    exact lexical.spelled nofun

end Lexemes

section Longest
variable {rest text longer : List Char} {found other : Lexeme}

/-- A sign stands behind the letter of an exponent. -/
def SignBehind (before sign : Char) : Prop :=
  sign = '-' ∨ sign = '+' → before = 'e' ∨ before = 'E'

theorem digit_not_sign {c : Char} (digit : isDigit c = true) : ¬ (c = '-' ∨ c = '+') := by
  rintro (rfl | rfl)
  · exact absurd digit (by decide)
  · exact absurd digit (by decide)

/-- Among digits there are no signs. -/
theorem digits_chain {cs : List Char} (digits : ∀ c ∈ cs, isDigit c = true) :
    cs.IsChain SignBehind := by
  induction cs with
  | nil => exact .nil
  | cons c cs ih =>
    obtain ⟨_, more⟩ := List.forall_mem_cons.1 digits
    refine List.isChain_cons.2 ⟨fun d first sign => ?_, ih more⟩
    exact absurd sign (digit_not_sign (more d (List.mem_of_mem_head? first)))

theorem chain_append {front back : List Char} (first : front.IsChain SignBehind)
    (second : back.IsChain SignBehind)
    (free : ∀ c ∈ back.head?, ¬ (c = '-' ∨ c = '+')) : (front ++ back).IsChain SignBehind :=
  List.isChain_append.2 ⟨first, second, fun _ _ d here sign => absurd sign (free d here)⟩

theorem Fraction.chain {fraction : List Char} (point : Fraction fraction) :
    fraction.IsChain SignBehind ∧ ∀ c ∈ fraction.head?, ¬ (c = '-' ∨ c = '+') := by
  cases point with
  | none => exact ⟨.nil, by simp⟩
  | some digits =>
    constructor
    · refine List.isChain_cons.2 ⟨fun d first sign => ?_, digits_chain digits.2⟩
      exact absurd sign (digit_not_sign (digits.2 d (List.mem_of_mem_head? first)))
    · rintro c ⟨⟩
      decide

theorem Exponent.chain {exponent : List Char} (power : Exponent exponent) :
    exponent.IsChain SignBehind ∧ ∀ c ∈ exponent.head?, ¬ (c = '-' ∨ c = '+') := by
  cases power with
  | none => exact ⟨.nil, by simp⟩
  | @some letter sign cs known signs digits =>
    constructor
    · refine List.isChain_cons.2 ⟨fun _ _ _ => known, ?_⟩
      refine chain_append ?_ (digits_chain digits.2) fun c first =>
        digit_not_sign (digits.2 c (List.mem_of_mem_head? first))
      rcases signs with rfl | rfl | rfl <;> simp
    · rintro c ⟨⟩
      rcases known with rfl | rfl <;> decide

/-- A sign inside a number stands behind the letter of its exponent. -/
theorem Writing.chain (writing : Writing found text) : text.IsChain SignBehind := by
  obtain ⟨sign, whole, fraction, exponent, signs, digits, point, power, rfl, -⟩ := writing.parts
  obtain ⟨d, ds, rfl, digit⟩ := digits.starts
  have inner : (fraction ++ exponent).IsChain SignBehind :=
    chain_append point.chain.1 power.chain.1 power.chain.2
  have behind : ∀ c ∈ (fraction ++ exponent).head?, ¬ (c = '-' ∨ c = '+') := by
    cases fraction with
    | nil => exact power.chain.2
    | cons c cs => exact point.chain.2
  have number := chain_append (digits_chain digits.digits) inner behind
  refine chain_append ?_ number fun c first => ?_
  · rcases signs with rfl | rfl <;> simp
  · cases first
    exact digit_not_sign digit

theorem getLast_digits {cs : List Char} (digits : Digits cs) :
    ∀ c ∈ cs.getLast?, isDigit c = true :=
  fun c last => digits.2 c (List.mem_of_getLast? last)

/-- A number ends with a digit. -/
theorem Writing.ends (writing : Writing found text) : ∀ c ∈ text.getLast?, isDigit c = true := by
  obtain ⟨sign, whole, fraction, exponent, signs, digits, point, power, rfl, -⟩ := writing.parts
  obtain ⟨d, ds, rfl, digit⟩ := digits.starts
  intro c last
  cases power with
  | @some letter sign' cs known signs' more =>
    apply getLast_digits more c
    rw [← List.append_assoc, ← List.append_assoc, List.getLast?_append_cons, ← List.cons_append] at last
    rwa [List.getLast?_append_of_ne_nil _ more.1] at last
  | none =>
    cases point with
    | some more =>
      apply getLast_digits more c
      rw [List.append_nil, ← List.append_assoc, List.getLast?_append_cons] at last
      rw [← List.singleton_append, List.getLast?_append_of_ne_nil _ more.1] at last
      exact last
    | none =>
      rw [List.append_nil, List.append_nil, List.getLast?_append_cons] at last
      exact digits.digits c (List.mem_of_getLast? last)

theorem IsName.letters (name : IsName text) : ∀ c ∈ text, isNameRest c = true := by
  obtain ⟨c, cs, rfl, start, more⟩ := name
  exact List.forall_mem_cons.2 ⟨by simp [isNameRest, start], more⟩

/-- No name starts like a number. -/
theorem IsName.not_writing (name : IsName (text ++ rest)) (writing : Writing found text) : False := by
  obtain ⟨c, cs, rfl, numeric⟩ := writing.starts
  obtain ⟨d, ds, same, start, -⟩ := name
  obtain ⟨rfl, -⟩ := List.cons.inj same
  simp only [Bool.or_eq_true, beq_iff_eq] at numeric
  rcases numeric with rfl | digit
  · exact absurd start (by decide)
  · rw [Lexeme.digit_not_nameStart start] at digit
    cases digit

/-- No number starts like a name. -/
theorem Writing.not_name (writing : Writing found (text ++ rest)) (name : IsName text) : False := by
  obtain ⟨c, cs, rfl, start, -⟩ := name
  obtain ⟨d, ds, same, numeric⟩ := writing.starts
  obtain ⟨rfl, -⟩ := List.cons.inj same
  simp only [Bool.or_eq_true, beq_iff_eq] at numeric
  rcases numeric with rfl | digit
  · exact absurd start (by decide)
  · rw [Lexeme.digit_not_nameStart start] at digit
    cases digit

/-- A number does not go on with what stops numbers: a sign would stand behind a digit. -/
theorem Writing.not_longer {c : Char} {extra : List Char} (writing : Writing found text)
    (longer : Writing other (text ++ c :: extra)) : ¬ (isNameRest c = false ∧ c ≠ '.') := by
  rintro ⟨notRest, notDot⟩
  have numeric := longer.numeric c (List.mem_append_right _ List.mem_cons_self)
  have notDigit : isDigit c = false := by
    rw [isNameRest, Bool.or_eq_false_iff] at notRest
    exact notRest.2
  simp only [isNumeric, notDigit, Bool.false_or, List.contains_iff_mem, List.mem_cons,
    List.not_mem_nil, or_false] at numeric
  have sign : c = '-' ∨ c = '+' := by
    rcases numeric with rfl | rfl | rfl | rfl | rfl
    · exact .inl rfl
    · exact .inr rfl
    · exact absurd rfl notDot
    · exact absurd notRest (by decide)
    · exact absurd notRest (by decide)
  obtain ⟨d, ds, rfl, -⟩ := writing.starts
  obtain ⟨last, final⟩ : ∃ last, last ∈ (d :: ds).getLast? := ⟨_, List.getLast?_cons ..⟩
  obtain ⟨-, -, behind⟩ := List.isChain_append.1 longer.chain
  have digit := writing.ends last final
  rcases behind last final c rfl sign with rfl | rfl
  · exact absurd digit (by decide)
  · exact absurd digit (by decide)

/-- Nothing that goes on with a name or a number is one. -/
theorem Lexical.longest (lexical : Lexical rest found text) (runs : found.runsOn = true)
    (cut : longer <+: text ++ rest) (word : IsName longer ∨ IsInt longer ∨ IsFloat longer) :
    longer.length ≤ text.length := by
  by_contra more
  obtain ⟨extra, rfl⟩ : text <+: longer :=
    List.prefix_of_prefix_length_le (List.prefix_append text rest) cut (by omega)
  rw [List.prefix_append_right_inj] at cut
  cases extra with
  | nil => simp at more
  | cons c extra =>
    have first : c ∈ rest.head? := head_of_kept cut c rfl
    have number (number : IsInt (text ++ c :: extra) ∨ IsFloat (text ++ c :: extra)) :
        ∃ other, Writing other (text ++ c :: extra) := by
      rcases number with int | float
      · exact ⟨_, .inl ⟨int, rfl⟩⟩
      · exact ⟨_, .inr ⟨float, rfl⟩⟩
    have behind {found : Lexeme} (writing : Writing found text) (stops : Stops rest) : False := by
      rcases word with name | longer
      · exact name.not_writing writing
      · obtain ⟨other, longer⟩ := number longer
        exact writing.not_longer longer (stops c first)
    cases lexical with
    | finish => cases runs
    | punctuator => cases runs
    | string => cases runs
    | int int stops => exact behind (.inl ⟨int, rfl⟩) stops
    | float float stops => exact behind (.inr ⟨float, rfl⟩) stops
    | name name stops =>
      rcases word with longer | longer
      · have goes := IsName.letters longer c (List.mem_append_right _ List.mem_cons_self)
        rw [stops c first] at goes
        cases goes
      · obtain ⟨other, longer⟩ := number longer
        exact longer.not_name name

end Longest

end GraphQL.Lexis
