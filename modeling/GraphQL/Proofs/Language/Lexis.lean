import GraphQL.Proofs.Language.Cutting

/-! The lexical grammar: which texts are lexemes, what a lexeme may run into, and what is ignored
between lexemes. The scanner reads exactly these texts. -/
namespace GraphQL.Lexis

open Lexer
open Text (byteLength)

/-- What separates lexemes, wherever it stands. -/
def blanks : List Char := [' ', '\t', ',', '\n', '\r', '\ufeff']

/-- Ignored text in front of some other text: blanks, and comments up to the end of their line. -/
inductive Ignored (after : List Char) : List Char → Prop
  | nil : Ignored after []
  | blank {c : Char} {rest : List Char} : c ∈ blanks → Ignored after rest → Ignored after (c :: rest)
  | comment {body rest : List Char} : (∀ c ∈ body, c ≠ '\n' ∧ c ≠ '\r') →
      (∀ c ∈ (rest ++ after).head?, c = '\n' ∨ c = '\r') → Ignored after rest →
      Ignored after ('#' :: (body ++ rest))

/-- Text at whose front nothing is ignored. -/
def Opens (cs : List Char) : Prop := ∀ c ∈ cs.head?, c ∉ blanks ∧ c ≠ '#'

/-- Names: `[_A-Za-z][_0-9A-Za-z]*` -/
def IsName (text : List Char) : Prop :=
  ∃ c cs, text = c :: cs ∧ isNameStart c = true ∧ ∀ d ∈ cs, isNameRest d = true

instance (text : List Char) : Decidable (IsName text) :=
  match text with
  | [] => isFalse nofun
  | c :: cs => decidable_of_iff (isNameStart c = true ∧ cs.all isNameRest = true) <| by
      rw [List.all_eq_true]
      refine ⟨fun ⟨start, more⟩ => ⟨c, cs, rfl, start, more⟩, ?_⟩
      rintro ⟨_, _, ⟨⟩, starts⟩
      exact starts

/-- Digits: `[0-9]+` -/
def Digits (text : List Char) : Prop := text ≠ [] ∧ ∀ c ∈ text, isDigit c = true

/-- The sign of a number: `-?` -/
def Sign (text : List Char) : Prop := text = [] ∨ text = ['-']

/-- The digits before the point: `0|[1-9][0-9]*` -/
inductive Whole : List Char → Prop
  | zero : Whole ['0']
  | other {c : Char} {cs : List Char} : isDigit c = true → c ≠ '0' →
      (∀ d ∈ cs, isDigit d = true) → Whole (c :: cs)

/-- The point and the digits after it: `(\.[0-9]+)?` -/
inductive Fraction : List Char → Prop
  | none : Fraction []
  | some {cs : List Char} : Digits cs → Fraction ('.' :: cs)

/-- The exponent: `([eE][+-]?[0-9]+)?` -/
inductive Exponent : List Char → Prop
  | none : Exponent []
  | some {letter : Char} {sign cs : List Char} : letter = 'e' ∨ letter = 'E' →
      sign = [] ∨ sign = ['+'] ∨ sign = ['-'] → Digits cs → Exponent (letter :: (sign ++ cs))

/-- Whole numbers: `-?(0|[1-9][0-9]*)` -/
def IsInt (text : List Char) : Prop := ∃ sign whole, Sign sign ∧ Whole whole ∧ text = sign ++ whole

/-- Other numbers: `-?(0|[1-9][0-9]*)(\.[0-9]+)?([eE][+-]?[0-9]+)?`, of which a fraction or an
exponent is there. -/
def IsFloat (text : List Char) : Prop :=
  ∃ sign whole fraction exponent, Sign sign ∧ Whole whole ∧ Fraction fraction ∧ Exponent exponent ∧
    (fraction ≠ [] ∨ exponent ≠ []) ∧ text = sign ++ (whole ++ (fraction ++ exponent))

/-- The letters of escapes, with the characters that they stand for. -/
def escapes : List (Char × Char) :=
  [('"', '"'), ('\\', '\\'), ('/', '/'), ('b', '\x08'), ('f', '\x0c'), ('n', '\n'), ('r', '\r'),
    ('t', '\t')]

/-- A hexadecimal digit, in either case, and its value. -/
def HexDigit (c : Char) (value : Nat) : Prop :=
  value < 16 ∧ (c = value.digitChar ∨ c = value.digitChar.toUpper)

/-- How a character of a string may be written. Since each character is a scalar value, four digits
that make up a surrogate write none. -/
inductive Writes : Char → List Char → Prop
  | plain {c : Char} : c ≠ '"' → c ≠ '\\' → c = '\t' ∨ 32 ≤ c.toNat → Writes c [c]
  | escape {letter c : Char} : (letter, c) ∈ escapes → Writes c ['\\', letter]
  | unicode {c d₁ d₂ d₃ d₄ : Char} {n₁ n₂ n₃ n₄ : Nat} : HexDigit d₁ n₁ → HexDigit d₂ n₂ →
      HexDigit d₃ n₃ → HexDigit d₄ n₄ → c.toNat = ((n₁ * 16 + n₂) * 16 + n₃) * 16 + n₄ →
      Writes c ['\\', 'u', d₁, d₂, d₃, d₄]

/-- The characters of a string, and the text between its quotes. -/
inductive Body : List Char → List Char → Prop
  | nil : Body [] []
  | cons {c : Char} {value text rest : List Char} : Writes c text → Body value rest →
      Body (c :: value) (text ++ rest)

/-- The text of a lexeme in front of some other text. Names and numbers do not run into what could
go on with them, nor numbers into a dot or a name. -/
inductive Lexical (after : List Char) : Lexeme → List Char → Prop
  | finish : after = [] → Lexical after .finish []
  | punctuator (mark : Punctuator) : Lexical after (.punctuator mark) mark.text.toList
  | name {text : List Char} : IsName text → (∀ c ∈ after.head?, isNameRest c = false) →
      Lexical after (.name (String.ofList text)) text
  | int {text : List Char} : IsInt text → Stops after →
      Lexical after (.int (String.ofList text)) text
  | float {text : List Char} : IsFloat text → Stops after →
      Lexical after (.float (String.ofList text)) text
  | string {value text : List Char} : Body value text →
      Lexical after (.string (String.ofList value)) ('"' :: (text ++ ['"']))

section Blanks

theorem isLineBreak_iff {c : Char} : isLineBreak c = true ↔ c = '\n' ∨ c = '\r' := by
  simp [isLineBreak]

theorem isBlank_iff {c : Char} : isBlank c = true ↔ c ∈ blanks := by
  simp [isBlank, isLineBreak, blanks, or_assoc]

/-- What is dropped after the start of a comment: the comment, and what is ignored behind it. -/
def Line (comment : Bool) (body behind : List Char) : Prop :=
  if comment then (∀ c ∈ body, c ≠ '\n' ∧ c ≠ '\r') ∧ ∀ c ∈ behind.head?, c = '\n' ∨ c = '\r'
  else body = []

theorem dropIgnored_sound {comment : Bool} {offset stop : Nat} {chars rest : List Char}
    (run : dropIgnored comment offset chars = ⟨stop, rest⟩) :
    ∃ body gap, chars = body ++ (gap ++ rest) ∧ stop = offset + byteLength (body ++ gap) ∧
      Line comment body (gap ++ rest) ∧ Ignored rest gap ∧ Opens rest := by
  induction chars generalizing comment offset with
  | nil =>
    cases run
    refine ⟨[], [], rfl, rfl, ?_, .nil, by simp [Opens]⟩
    cases comment <;> simp [Line]
  | cons c chars ih =>
    rw [dropIgnored] at run
    split at run
    · rename_i inside
      obtain ⟨rfl, same⟩ := by simpa [isLineBreak] using inside
      obtain ⟨body, gap, split, stops, line, ignored, opens⟩ := ih run
      obtain ⟨within, ends⟩ : (∀ d ∈ body, d ≠ '\n' ∧ d ≠ '\r') ∧ _ := line
      refine ⟨c :: body, gap, by rw [split]; rfl, ?_, ⟨?_, ends⟩, ignored, opens⟩
      · rw [stops, List.cons_append, byteLength, Nat.add_assoc]
      · exact List.forall_mem_cons.2 ⟨same, within⟩
    rename_i outside
    have line (behind : List Char) (breaks : comment = true → c = '\n' ∨ c = '\r') :
        Line comment [] (c :: behind) := by
      cases comment with
      | false => rfl
      | true =>
        refine ⟨by simp, fun d first => ?_⟩
        cases first
        exact breaks rfl
    have breaks (open_ : comment = true) : c = '\n' ∨ c = '\r' := by
      rw [open_, Bool.true_and, Bool.not_eq_true', Bool.not_eq_false] at outside
      exact isLineBreak_iff.1 outside
    split at run
    · rename_i blank
      obtain ⟨body, gap, split, stops, none, ignored, opens⟩ := ih run
      obtain rfl : body = [] := none
      refine ⟨[], c :: gap, by rw [split]; rfl, ?_, line _ breaks, ?_, opens⟩
      · rw [stops, List.nil_append, List.nil_append, byteLength, Nat.add_assoc]
      · exact .blank (isBlank_iff.1 blank) ignored
    rename_i solid
    split at run
    · rename_i hash
      obtain rfl := beq_iff_eq.1 hash
      obtain ⟨body, gap, split, stops, ⟨within, ends⟩, ignored, opens⟩ := ih run
      refine ⟨[], '#' :: (body ++ gap), ?_, ?_, line _ breaks, .comment within ends ignored, opens⟩
      · rw [split, List.nil_append, List.cons_append, List.append_assoc]
      · rw [stops, List.nil_append, byteLength, Nat.add_assoc]
    · rename_i other
      cases run
      refine ⟨[], [], rfl, rfl, line _ breaks, .nil, fun d first => ?_⟩
      cases first
      exact ⟨fun blank => solid (isBlank_iff.2 blank), fun hash => other (beq_iff_eq.2 hash)⟩

/-- The rest of a comment is dropped. -/
theorem dropIgnored_comment {body rest : List Char} (within : ∀ c ∈ body, c ≠ '\n' ∧ c ≠ '\r')
    (ends : ∀ c ∈ rest.head?, c = '\n' ∨ c = '\r') (offset : Nat) :
    dropIgnored true offset (body ++ rest) = dropIgnored false (offset + byteLength body) rest := by
  induction body generalizing offset with
  | nil =>
    cases rest with
    | nil => rfl
    | cons c rest =>
      have breaks : isLineBreak c = true := isLineBreak_iff.2 (ends c rfl)
      rw [List.nil_append, dropIgnored, dropIgnored, breaks]
      rfl
  | cons c body ih =>
    obtain ⟨same, within⟩ := List.forall_mem_cons.1 within
    have inside : (true && !isLineBreak c) = true := by simp [isLineBreak, same]
    rw [List.cons_append, dropIgnored, if_pos inside, ih within, byteLength, Nat.add_assoc]

theorem dropIgnored_complete {gap rest : List Char} (ignored : Ignored rest gap) (opens : Opens rest)
    (offset : Nat) : dropIgnored false offset (gap ++ rest) = ⟨offset + byteLength gap, rest⟩ := by
  induction ignored generalizing offset with
  | nil =>
    cases rest with
    | nil => rfl
    | cons c rest =>
      obtain ⟨solid, other⟩ := opens c rfl
      rw [← isBlank_iff] at solid
      rw [List.nil_append, dropIgnored, if_neg (by simp), if_neg solid, if_neg (by simpa using other)]
      rfl
  | blank blank _ ih =>
    rw [List.cons_append, dropIgnored, if_neg (by simp), if_pos (isBlank_iff.2 blank), ih, byteLength,
      Nat.add_assoc]
  | @comment body gap within ends _ ih =>
    have solid : isBlank '#' = false := by decide
    have hash : (('#' : Char) == '#') = true := rfl
    rw [List.cons_append, List.append_assoc, dropIgnored, if_neg (by simp), solid,
      if_neg Bool.false_ne_true, if_pos hash, dropIgnored_comment within ends, ih, byteLength,
      Text.byteLength_append, Nat.add_assoc, Nat.add_assoc]

/-- All that is ignored is dropped, and nothing else. -/
theorem dropIgnored_iff {offset stop : Nat} {chars rest : List Char} :
    dropIgnored false offset chars = ⟨stop, rest⟩ ↔ ∃ gap, chars = gap ++ rest ∧
      stop = offset + byteLength gap ∧ Ignored rest gap ∧ Opens rest := by
  constructor
  · intro run
    obtain ⟨body, gap, split, stops, none, ignored, opens⟩ := dropIgnored_sound run
    obtain rfl : body = [] := none
    exact ⟨gap, split, stops, ignored, opens⟩
  · rintro ⟨gap, rfl, rfl, ignored, opens⟩
    exact dropIgnored_complete ignored opens offset

end Blanks

section Numbers
variable {offset stop : Nat} {chars rest found : List Char}

theorem digits_iff : digits ⟨offset, chars⟩ = .ok (found, ⟨stop, rest⟩) ↔
    Digits found ∧ chars = found ++ rest ∧ stop = offset + found.length ∧ NoDigit rest := by
  constructor
  · intro run
    unfold digits at run
    split at run
    · cases run
    · rename_i some
      cases run
      exact ⟨⟨some, fun c member => List.mem_takeWhile_imp member⟩,
        List.takeWhile_append_dropWhile.symm, rfl, fun c => head_dropWhile c⟩
  · rintro ⟨⟨some, all⟩, rfl, rfl, free⟩
    obtain ⟨taken, dropped⟩ := takeWhile_stop all free
    unfold digits
    simp only [taken, dropped]
    rfl

/-- The digits before the point are read until there are no more. -/
theorem integerPart_iff : integerPart ⟨offset, chars⟩ = .ok (found, ⟨stop, rest⟩) ↔
    Whole found ∧ chars = found ++ rest ∧ stop = offset + found.length ∧ NoDigit rest := by
  constructor
  · intro run
    unfold integerPart at run
    split at run
    · rename_i behind zero
      obtain rfl : chars = '0' :: behind := zero
      split at run
      · rename_i next first
        split at run
        · cases run
        · rename_i other
          cases run
          exact ⟨.zero, rfl, rfl, by simpa [NoDigit, first] using other⟩
      · rename_i last
        cases run
        exact ⟨.zero, rfl, rfl, by simp [NoDigit, last]⟩
    · rename_i other
      obtain ⟨⟨some, all⟩, rfl, onward⟩ := digits_iff.1 run
      refine ⟨?_, rfl, onward⟩
      cases found with
      | nil => contradiction
      | cons c cs =>
        obtain ⟨first, more⟩ := List.forall_mem_cons.1 all
        apply Whole.other first ?_ more
        rintro rfl
        exact other _ rfl
  · rintro ⟨whole, rfl, rfl, free⟩
    cases whole with
    | zero =>
      cases rest with
      | nil => rfl
      | cons c rest =>
        have other : isDigit c = false := free c rfl
        simp [integerPart, other, pure, Except.pure]
    | other first notZero more =>
      rw [List.cons_append, integerPart_digits notZero, ← List.cons_append, digits_iff]
      exact ⟨⟨by simp, List.forall_mem_cons.2 ⟨first, more⟩⟩, rfl, rfl, free⟩

/-- What a fraction may run into: no more digits, and no point if there is no fraction. -/
def AfterFraction (fraction rest : List Char) : Prop :=
  if fraction = [] then rest.head? ≠ some '.' else NoDigit rest

theorem fractionPart_iff : fractionPart ⟨offset, chars⟩ = .ok (found, ⟨stop, rest⟩) ↔
    Fraction found ∧ chars = found ++ rest ∧ stop = offset + found.length ∧
      AfterFraction found rest := by
  constructor
  · intro run
    unfold fractionPart at run
    split at run
    · rename_i behind dot
      obtain rfl : chars = '.' :: behind := dot
      obtain ⟨⟨more, last⟩, step, ends⟩ := bind_eq_ok.mp run
      cases ends
      obtain ⟨digits, rfl, rfl, free⟩ := digits_iff.1 step
      refine ⟨.some digits, rfl, ?_, free⟩
      show offset + 1 + more.length = offset + (more.length + 1)
      omega
    · rename_i other
      cases run
      refine ⟨.none, rfl, rfl, fun dot => ?_⟩
      obtain ⟨behind, same⟩ := List.head?_eq_some_iff.mp dot
      exact other behind same
  · rintro ⟨fraction, rfl, rfl, free⟩
    cases fraction with
    | none =>
      unfold fractionPart
      split
      · rename_i behind dot
        exact absurd (congrArg List.head? dot) free
      · rfl
    | @some cs digits =>
      have step : Lexer.digits ⟨offset + 1, cs ++ rest⟩ = .ok (cs, ⟨offset + 1 + cs.length, rest⟩) :=
        digits_iff.2 ⟨digits, rfl, rfl, free⟩
      have total : offset + ('.' :: cs).length = offset + 1 + cs.length := by
        rw [List.length_cons]
        omega
      rw [List.cons_append, total]
      simp only [fractionPart, step]
      rfl

/-- What an exponent may run into: no more digits, and no letter if there is no exponent. -/
def AfterExponent (exponent rest : List Char) : Prop :=
  if exponent = [] then ∀ c ∈ rest.head?, c ≠ 'e' ∧ c ≠ 'E' else NoDigit rest

theorem signPart_some (offset : Nat) (rest : List Char) {signs sign : List Char}
    (known : sign = [] ∨ ∃ c ∈ signs, sign = [c]) (free : ∀ c ∈ rest.head?, c ∉ signs) :
    signPart signs ⟨offset, sign ++ rest⟩ = (sign, ⟨offset + sign.length, rest⟩) := by
  rcases known with rfl | ⟨c, member, rfl⟩
  · cases rest with
    | nil => rfl
    | cons d rest => simp [signPart, free d rfl]
  · simp [signPart, member]

/-- A sign is taken where one stands. -/
theorem signPart_sound {signs sign : List Char} {after : Cursor}
    (run : signPart signs ⟨offset, chars⟩ = (sign, after)) :
    (sign = [] ∨ ∃ c ∈ signs, sign = [c]) ∧ chars = sign ++ after.rest ∧
      after.offset = offset + sign.length := by
  unfold signPart at run
  split at run
  · rename_i c behind split
    obtain rfl : chars = c :: behind := split
    split at run
    · rename_i member
      cases run
      exact ⟨.inr ⟨c, by simpa using member, rfl⟩, rfl, rfl⟩
    · cases run
      exact ⟨.inl rfl, rfl, rfl⟩
  · cases run
    exact ⟨.inl rfl, rfl, rfl⟩

theorem exponentSign_iff {sign : List Char} : (sign = [] ∨ ∃ c ∈ ['+', '-'], sign = [c]) ↔
    sign = [] ∨ sign = ['+'] ∨ sign = ['-'] := by
  simp

theorem Digits.starts {cs : List Char} (digits : Digits cs) :
    ∃ c rest, cs = c :: rest ∧ isDigit c = true := by
  obtain ⟨some, all⟩ := digits
  cases cs with
  | nil => contradiction
  | cons c rest => exact ⟨c, rest, rfl, all c List.mem_cons_self⟩

theorem exponentPart_iff : exponentPart ⟨offset, chars⟩ = .ok (found, ⟨stop, rest⟩) ↔
    Exponent found ∧ chars = found ++ rest ∧ stop = offset + found.length ∧
      AfterExponent found rest := by
  constructor
  · intro run
    unfold exponentPart at run
    split at run
    · rename_i letter behind split
      obtain rfl : chars = letter :: behind := split
      split at run
      · rename_i known
        cases signed : signPart ['+', '-'] ⟨offset + 1, behind⟩ with
        | mk sign unsigned =>
          obtain ⟨signs, rfl, onward⟩ := signPart_sound signed
          simp only [signed] at run
          obtain ⟨⟨cs, last⟩, step, ends⟩ := bind_eq_ok.mp run
          cases ends
          obtain ⟨digits, split, rfl, free⟩ := digits_iff.1 step
          refine ⟨.some (by simpa using known) (exponentSign_iff.1 signs) digits, ?_, ?_, free⟩
          · simp only [split, List.cons_append, List.append_assoc]
          · rw [onward]
            simp only [List.cons_append, List.length_cons, List.length_append]
            omega
      · rename_i other
        cases run
        refine ⟨.none, rfl, rfl, fun c first => ?_⟩
        cases first
        simpa using other
    · rename_i none
      cases run
      obtain rfl : chars = [] := none
      exact ⟨.none, rfl, rfl, by simp [AfterExponent]⟩
  · rintro ⟨exponent, rfl, rfl, free⟩
    cases exponent with
    | none =>
      cases rest with
      | nil => rfl
      | cons c rest =>
        have other : ¬ (c = 'e' ∨ c = 'E') := not_or.2 (free c rfl)
        simp [exponentPart, other, pure, Except.pure]
    | @some letter sign cs known signs digits =>
      obtain ⟨d, ds, rfl, digit⟩ := digits.starts
      have signed := signPart_some (offset + 1) (d :: ds ++ rest) (exponentSign_iff.2 signs)
        fun c first => by
          cases first
          exact digit_not_sign digit
      have step : Lexer.digits ⟨offset + 1 + sign.length, d :: ds ++ rest⟩ =
          .ok (d :: ds, ⟨offset + 1 + sign.length + (d :: ds).length, rest⟩) :=
        digits_iff.2 ⟨digits, rfl, rfl, free⟩
      have total : offset + (letter :: (sign ++ d :: ds)).length =
          offset + 1 + sign.length + (d :: ds).length := by
        simp only [List.length_cons, List.length_append]
        omega
      rw [List.cons_append, List.append_assoc, total]
      simp only [exponentPart, known, signed, step, Bool.or_eq_true, beq_iff_eq, if_true]
      rfl

/-- The number that a text writes. -/
def Writing (found : Lexeme) (text : List Char) : Prop :=
  (IsInt text ∧ found = .int (String.ofList text)) ∨ (IsFloat text ∧ found = .float (String.ofList text))

theorem sign_iff {sign : List Char} : (sign = [] ∨ ∃ c ∈ ['-'], sign = [c]) ↔ Sign sign := by
  simp [Sign]

theorem Whole.starts {whole : List Char} (digits : Whole whole) :
    ∃ c cs, whole = c :: cs ∧ isDigit c = true := by
  cases digits with
  | zero => exact ⟨'0', [], rfl, rfl⟩
  | @other c cs first _ _ => exact ⟨c, cs, rfl, first⟩

/-- The parts of a number are a number, a whole one if only the digits before the point are there. -/
theorem writing_ofParts {sign whole fraction exponent : List Char} (signs : Sign sign)
    (digits : Whole whole) (point : Fraction fraction) (power : Exponent exponent) :
    Writing (ofParts sign whole fraction exponent) (sign ++ (whole ++ (fraction ++ exponent))) := by
  unfold ofParts
  by_cases plain : fraction = [] ∧ exponent = []
  · obtain ⟨rfl, rfl⟩ := plain
    simp only [List.append_nil]
    exact .inl ⟨⟨sign, whole, signs, digits, rfl⟩, rfl⟩
  · have some : fraction ≠ [] ∨ exponent ≠ [] := Classical.not_and_iff_not_or_not.1 plain
    have notEmpty : (fraction.isEmpty && exponent.isEmpty) = false := by
      simpa [List.isEmpty_iff] using plain
    simp only [notEmpty, List.append_assoc]
    exact .inr ⟨⟨sign, whole, fraction, exponent, signs, digits, point, power, some, rfl⟩, rfl⟩

/-- A number is made of such parts. -/
theorem Writing.parts {found : Lexeme} {text : List Char} (writing : Writing found text) :
    ∃ sign whole fraction exponent, Sign sign ∧ Whole whole ∧ Fraction fraction ∧ Exponent exponent ∧
      text = sign ++ (whole ++ (fraction ++ exponent)) ∧
      found = ofParts sign whole fraction exponent := by
  rcases writing with ⟨⟨sign, whole, signs, digits, rfl⟩, rfl⟩ |
    ⟨⟨sign, whole, fraction, exponent, signs, digits, point, power, some, rfl⟩, rfl⟩
  · refine ⟨sign, whole, [], [], signs, digits, .none, .none, by simp, ?_⟩
    simp [ofParts]
  · refine ⟨sign, whole, fraction, exponent, signs, digits, point, power, rfl, ?_⟩
    have notEmpty : (fraction.isEmpty && exponent.isEmpty) = false := by
      simp only [Bool.and_eq_false_iff, List.isEmpty_eq_false_iff]
      exact some
    simp [ofParts, notEmpty]

/-- A number is read until nothing goes on with it. -/
theorem stops_of_parts {fraction exponent : List Char} (whole : NoDigit (fraction ++ (exponent ++ rest)))
    (point : AfterFraction fraction (exponent ++ rest)) (power : AfterExponent exponent rest)
    (free : ∀ c ∈ rest.head?, (c == '.' || isNameStart c) = false) : Stops rest := by
  have noDigit : NoDigit rest := by
    unfold AfterFraction at point
    unfold AfterExponent at power
    split at power
    · rename_i none
      subst none
      split at point
      · rename_i none
        subst none
        exact whole
      · exact point
    · exact power
  intro c first
  have other := free c first
  rw [Bool.or_eq_false_iff, beq_eq_false_iff_ne] at other
  exact ⟨by rw [isNameRest, other.2, noDigit c first]; rfl, other.1⟩

theorem stops_free (stops : Stops rest) :
    ∀ c ∈ rest.head?, (c == '.' || isNameStart c) = false := by
  intro c first
  obtain ⟨notRest, notDot⟩ := stops c first
  rw [isNameRest, Bool.or_eq_false_iff] at notRest
  simp [notDot, notRest.1]

theorem stops_afterExponent (stops : Stops rest) (exponent : List Char) :
    AfterExponent exponent rest := by
  unfold AfterExponent
  split
  · intro c first
    constructor
    · rintro rfl
      exact absurd (stops _ first).1 (by decide)
    · rintro rfl
      exact absurd (stops _ first).1 (by decide)
  · exact stops.noDigit

/-- What stands before a fraction and behind it, if an exponent and then the end of the number
follow. -/
theorem Fraction.before {fraction exponent : List Char} (point : Fraction fraction)
    (power : Exponent exponent) (stops : Stops rest) :
    NoDigit (fraction ++ (exponent ++ rest)) ∧ AfterFraction fraction (exponent ++ rest) := by
  have dot : fraction = [] ∨ ∃ cs, fraction = '.' :: cs := by
    cases point with
    | none => exact .inl rfl
    | some _ => exact .inr ⟨_, rfl⟩
  have letter : exponent = [] ∨ ∃ c cs, exponent = c :: cs ∧ (c = 'e' ∨ c = 'E') := by
    cases power with
    | none => exact .inl rfl
    | some known _ _ => exact .inr ⟨_, _, rfl, known⟩
  obtain ⟨beforeFraction, beforeExponent, noDot⟩ := number_tail stops dot letter
  refine ⟨beforeFraction, ?_⟩
  unfold AfterFraction
  split
  · exact noDot
  · exact beforeExponent

theorem number_lexical {found : Lexeme} : number ⟨offset, chars⟩ = .ok (found, ⟨stop, rest⟩) ↔
    ∃ text, Writing found text ∧ chars = text ++ rest ∧ stop = offset + text.length ∧
      Stops rest := by
  rw [number_parts]
  constructor
  · rintro ⟨whole, ⟨o₂, cs₂⟩, fraction, ⟨o₃, cs₃⟩, exponent, hw, hf, he, free, rfl⟩
    cases signed : signPart ['-'] ⟨offset, chars⟩ with
    | mk sign unsigned =>
      obtain ⟨o₁, cs₁⟩ := unsigned
      obtain ⟨signs, rfl, onward⟩ := signPart_sound signed
      rw [signed] at hw
      obtain ⟨digits, split, rfl, noDigit⟩ := integerPart_iff.1 hw
      obtain rfl : cs₁ = whole ++ cs₂ := split
      obtain ⟨point, rfl, rfl, afterFraction⟩ := fractionPart_iff.1 hf
      obtain ⟨power, rfl, rfl, afterExponent⟩ := exponentPart_iff.1 he
      refine ⟨_, writing_ofParts (sign_iff.1 signs) digits point power, ?_, ?_,
        stops_of_parts noDigit afterFraction afterExponent free⟩
      · simp only [List.append_assoc]
      · have onward : o₁ = offset + sign.length := onward
        simp only [onward, List.length_append]
        omega
  · rintro ⟨text, writing, rfl, rfl, stops⟩
    obtain ⟨sign, whole, fraction, exponent, signs, digits, point, power, rfl, rfl⟩ := writing.parts
    obtain ⟨d, ds, rfl, digit⟩ := digits.starts
    obtain ⟨beforeFraction, afterFraction⟩ := point.before power stops
    have signed := signPart_some offset (d :: ds ++ (fraction ++ (exponent ++ rest)))
      (sign_iff.2 signs) fun c first => by
        cases first
        exact fun minus => digit_not_sign digit (List.mem_cons_of_mem _ minus)
    have same : sign ++ (d :: ds ++ (fraction ++ exponent)) ++ rest =
        sign ++ (d :: ds ++ (fraction ++ (exponent ++ rest))) := by
      simp only [List.append_assoc]
    have total : offset + (sign ++ (d :: ds ++ (fraction ++ exponent))).length =
        offset + sign.length + (d :: ds).length + fraction.length + exponent.length := by
      simp only [List.length_append]
      omega
    rw [same, total, signed]
    exact ⟨d :: ds, _, fraction, _, exponent, integerPart_iff.2 ⟨digits, rfl, rfl, beforeFraction⟩,
      fractionPart_iff.2 ⟨point, rfl, rfl, afterFraction⟩,
      exponentPart_iff.2 ⟨power, rfl, rfl, stops_afterExponent stops exponent⟩, stops_free stops, rfl⟩

end Numbers

end GraphQL.Lexis
