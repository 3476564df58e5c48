import GraphQL.Text.Source
import GraphQL.Language.SyntaxError

/-! Lexical analysis. Blanks, commas, byte order marks and comments separate
tokens and are dropped; every other character belongs to exactly one token.
A lexeme is read from the characters at hand together with the byte offset at
which they stand. -/
namespace GraphQL

/-- A fault and the byte offset at which it was met. -/
structure LexicalFault where
  position : Nat
  fault : Fault
deriving DecidableEq, Repr

/-- The characters from a byte offset to the end of a text. -/
structure Cursor where
  offset : Nat
  rest : List Char
deriving DecidableEq, Repr

namespace Lexer

def isLineBreak (c : Char) : Bool := c == '\n' || c == '\r'

/-- The characters that separate tokens. -/
def isBlank (c : Char) : Bool :=
  c == ' ' || c == '\t' || c == ',' || isLineBreak c || c == '\ufeff'

def isDigit (c : Char) : Bool := '0' ≤ c && c ≤ '9'

def isNameStart (c : Char) : Bool :=
  c == '_' || ('a' ≤ c && c ≤ 'z') || ('A' ≤ c && c ≤ 'Z')

def isNameRest (c : Char) : Bool := isNameStart c || isDigit c

/-- Drops blanks and comments; `comment` tells whether a comment is open. -/
def dropIgnored (comment : Bool) (offset : Nat) : List Char → Cursor
  | [] => ⟨offset, []⟩
  | c :: rest =>
      if comment && !isLineBreak c then dropIgnored true (offset + c.utf8Size) rest
      else if isBlank c then dropIgnored false (offset + c.utf8Size) rest
      else if c == '#' then dropIgnored true (offset + c.utf8Size) rest
      else ⟨offset, c :: rest⟩

abbrev Scan (α : Type) := Except LexicalFault α

/-- One or more digits and what follows them. -/
def digits (here : Cursor) : Scan (List Char × Cursor) :=
  match here.rest.takeWhile isDigit with
  | [] => throw ⟨here.offset, .expectedDigit here.rest.head?⟩
  | found => return (found, ⟨here.offset + found.length, here.rest.dropWhile isDigit⟩)

/-- The integer digits of a number: a lone zero, or digits that start with another. -/
def integerPart (here : Cursor) : Scan (List Char × Cursor) :=
  match here.rest with
  | '0' :: rest =>
      match rest.head? with
      | some next =>
          if isDigit next then throw ⟨here.offset + 1, .digitAfterZero next⟩
          else return (['0'], ⟨here.offset + 1, rest⟩)
      | none => return (['0'], ⟨here.offset + 1, rest⟩)
  | _ => digits here

def fractionPart (here : Cursor) : Scan (List Char × Cursor) :=
  match here.rest with
  | '.' :: rest => do
      let (found, after) ← digits ⟨here.offset + 1, rest⟩
      return ('.' :: found, after)
  | _ => return ([], here)

/-- An optional sign among the given ones. -/
def signPart (signs : List Char) (here : Cursor) : List Char × Cursor :=
  match here.rest with
  | c :: rest => if signs.contains c then ([c], ⟨here.offset + 1, rest⟩) else ([], here)
  | [] => ([], here)

def exponentPart (here : Cursor) : Scan (List Char × Cursor) :=
  match here.rest with
  | c :: rest =>
      if c == 'e' || c == 'E' then do
        let (sign, unsigned) := signPart ['+', '-'] ⟨here.offset + 1, rest⟩
        let (found, after) ← digits unsigned
        return (c :: sign ++ found, after)
      else return ([], here)
  | [] => return ([], here)

/-- A number is an Int unless it has a fraction or an exponent, and runs into
neither a dot nor a name. -/
def number (here : Cursor) : Scan (Lexeme × Cursor) := do
  let (sign, unsigned) := signPart ['-'] here
  let (whole, afterWhole) ← integerPart unsigned
  let (fraction, afterFraction) ← fractionPart afterWhole
  let (exponent, after) ← exponentPart afterFraction
  let text := String.ofList (sign ++ whole ++ fraction ++ exponent)
  let lexeme := if fraction.isEmpty && exponent.isEmpty then Lexeme.int text else Lexeme.float text
  match after.rest.head? with
  | some next =>
      if next == '.' || isNameStart next then throw ⟨after.offset, .expectedDigit (some next)⟩
      else return (lexeme, after)
  | none => return (lexeme, after)

/-- The character that a one-letter escape stands for. -/
def simpleEscape? : Char → Option Char
  | '"' => some '"'
  | '\\' => some '\\'
  | '/' => some '/'
  | 'b' => some '\x08'
  | 'f' => some '\x0c'
  | 'n' => some '\n'
  | 'r' => some '\r'
  | 't' => some '\t'
  | _ => none

def hexValue? (c : Char) : Option Nat :=
  if isDigit c then some (c.toNat - '0'.toNat)
  else if 'a' ≤ c && c ≤ 'f' then some (c.toNat - 'a'.toNat + 10)
  else if 'A' ≤ c && c ≤ 'F' then some (c.toNat - 'A'.toNat + 10)
  else none

/-- The character of four hexadecimal digits; surrogates are no characters. -/
def unicodeEscape? (a b c d : Char) : Option Char := do
  let code := (((← hexValue? a) * 16 + (← hexValue? b)) * 16 + (← hexValue? c)) * 16 + (← hexValue? d)
  if code.isValidChar then return Char.ofNat code else none

/-- Puts a decoded character in front of the rest of a string literal. -/
def prepend (c : Char) (read : Scan (List Char × Cursor)) : Scan (List Char × Cursor) :=
  read.map fun parts => (c :: parts.1, parts.2)

/-- The decoded characters up to the closing quote, and what follows it. -/
def stringBody (offset : Nat) : List Char → Scan (List Char × Cursor)
  | [] => throw ⟨offset, .unterminatedString⟩
  | '"' :: rest => return ([], ⟨offset + 1, rest⟩)
  | '\\' :: escaped =>
      match escaped with
      | [] => throw ⟨offset, .invalidEscape ""⟩
      | 'u' :: code =>
          match code with
          | a :: b :: c :: d :: rest =>
              match unicodeEscape? a b c d with
              | some decoded => prepend decoded (stringBody (offset + 6) rest)
              | none => throw ⟨offset, .invalidEscape (String.ofList ['u', a, b, c, d])⟩
          | short => throw ⟨offset, .invalidEscape (String.ofList ('u' :: short))⟩
      | letter :: rest =>
          match simpleEscape? letter with
          | some decoded => prepend decoded (stringBody (offset + 2) rest)
          | none => throw ⟨offset, .invalidEscape letter.toString⟩
  | c :: rest =>
      if isLineBreak c then throw ⟨offset, .unterminatedString⟩
      else if c.toNat < 32 && c != '\t' then throw ⟨offset, .forbiddenInString c⟩
      else prepend c (stringBody (offset + c.utf8Size) rest)

/-- The lexeme that starts with the first of the characters. -/
def lexeme (here : Cursor) : Scan (Lexeme × Cursor) :=
  match here.rest with
  | [] => return (.finish, here)
  | '.' :: '.' :: '.' :: rest => return (.punctuator .spread, ⟨here.offset + 3, rest⟩)
  | '"' :: rest => do
      let (value, after) ← stringBody (here.offset + 1) rest
      return (.string (String.ofList value), after)
  | c :: rest =>
      match Punctuator.ofChar? c with
      | some mark => return (.punctuator mark, ⟨here.offset + 1, rest⟩)
      | none =>
          if c == '-' || isDigit c then number here
          else if isNameStart c then
            let text := here.rest.takeWhile isNameRest
            return (.name (String.ofList text),
              ⟨here.offset + text.length, here.rest.dropWhile isNameRest⟩)
          else throw ⟨here.offset, .unexpectedCharacter (some c)⟩

/-- The first token at or after the cursor, and what follows it. -/
def token (here : Cursor) : Scan (Token × Cursor) := do
  let start := dropIgnored false here.offset here.rest
  let (found, after) ← lexeme start
  return (⟨found, start.offset, after.offset⟩, after)

/-- All tokens from the cursor on, with what stopped them short of the end. A
token takes at least one character, so `fuel` above their number is enough. -/
def tokens : (fuel : Nat) → Cursor → List Token × Option LexicalFault
  | 0, _ => ([], none)
  | fuel + 1, here =>
      match token here with
      | .error fault => ([], some fault)
      | .ok (found, after) =>
          if found.lexeme = .finish then ([found], none)
          else
            let more := tokens fuel after
            (found :: more.1, more.2)

/-- The cursor at a byte offset; an offset past the end is the end. Inside a
character no token starts. -/
def cursorAt (source : Source) (offset : Nat) : Scan Cursor :=
  let offset := min offset source.size
  match Text.splitAt? offset source.chars with
  | some (_, rest) => return ⟨offset, rest⟩
  | none => throw ⟨offset, .unexpectedCharacter none⟩

end Lexer

/-- The outcome of reading a text token by token. The end of the text is the last
token unless a failure came first. -/
structure Lexed where
  tokens : List Token
  failure : Option SyntaxError
deriving DecidableEq, Repr

namespace Source

def errorAt (source : Source) (fault : LexicalFault) : SyntaxError :=
  ⟨source, fault.position, fault.fault⟩

/-- The first token at or after a byte offset. -/
def tokenAt (source : Source) (offset : Nat) : Except SyntaxError Token :=
  match Lexer.cursorAt source offset >>= Lexer.token with
  | .ok (found, _) => .ok found
  | .error fault => .error (source.errorAt fault)

/-- All tokens at or after a byte offset. -/
def tokensFrom (source : Source) (offset : Nat) : Lexed :=
  match Lexer.cursorAt source offset with
  | .error fault => ⟨[], some (source.errorAt fault)⟩
  | .ok here =>
      let (found, fault) := Lexer.tokens (here.rest.length + 1) here
      ⟨found, fault.map source.errorAt⟩

def tokens (source : Source) : Lexed := source.tokensFrom 0

end Source
end GraphQL
