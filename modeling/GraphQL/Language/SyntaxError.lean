import GraphQL.Text.Location
import GraphQL.Language.Token

/-! Syntax errors. A fault is what is wrong with a text; an error is a fault at
a position of a source, and renders as a diagnostic with an excerpt. -/
namespace GraphQL

/-- What is wrong with a text. -/
inductive Fault where
  /-- No token starts here; nothing is found past the end or inside a character. -/
  | unexpectedCharacter (found : Option Char)
  | forbiddenInString (found : Char)
  | unterminatedString
  /-- The text after the backslash names no escape. -/
  | invalidEscape (text : String)
  | digitAfterZero (found : Char)
  | expectedDigit (found : Option Char)
  | expectedKind (expected : Lexeme.Kind) (found : Lexeme)
  | expectedKeyword (expected : String) (found : Lexeme)
  | unexpectedLexeme (found : Lexeme)
  | duplicateObjectField (name : String)
  | nestedNonNull
  | nestingTooDeep
deriving DecidableEq, Repr

namespace Fault

def hexUpper (n : Nat) : Char := (Nat.toDigits 16 n).headD '0' |>.toUpper

/-- Four upper-case hexadecimal digits. -/
def codePoint (n : Nat) : String :=
  String.ofList [hexUpper (n / 4096 % 16), hexUpper (n / 256 % 16), hexUpper (n / 16 % 16), hexUpper (n % 16)]

/-- The C0 and C1 control characters and DEL. -/
def isControl (c : Char) : Bool := c.toNat < 32 || (127 ≤ c.toNat && c.toNat < 160)

/-- How a diagnostic mentions a character: quoted, a control character by its
code point. -/
def describeChar : Option Char → String
  | none => "<EOF>"
  | some c =>
      if isControl c then "\"\\u" ++ codePoint c.toNat ++ "\"" else "\"" ++ c.toString ++ "\""

def description : Fault → String
  | unexpectedCharacter found => "Unexpected character " ++ describeChar found ++ "."
  | forbiddenInString found => "Invalid character within String: " ++ describeChar (some found) ++ "."
  | unterminatedString => "Unterminated string."
  | invalidEscape text => "Invalid character escape sequence: \\" ++ text ++ "."
  | digitAfterZero found =>
      "Invalid number, unexpected digit after 0: " ++ describeChar (some found) ++ "."
  | expectedDigit found => "Invalid number, expected digit but got: " ++ describeChar found ++ "."
  | expectedKind expected found => "Expected " ++ expected.text ++ ", found " ++ found.describe
  | expectedKeyword expected found => "Expected \"" ++ expected ++ "\", found " ++ found.describe
  | unexpectedLexeme found => "Unexpected " ++ found.describe
  | duplicateObjectField name => "Duplicate input object field " ++ name ++ "."
  | nestedNonNull => "Unexpected !"
  | nestingTooDeep => "Document nesting too deep"

/-- The fault in a few words, for callers that sort faults and show no excerpt. -/
def summary : Fault → String
  | unexpectedCharacter _ | forbiddenInString _ => "unexpected character"
  | unterminatedString => "unterminated string"
  | invalidEscape _ => "invalid character escape sequence"
  | digitAfterZero _ | expectedDigit _ => "invalid number"
  | expectedKind expected found => "expected `" ++ expected.text ++ "`, found `" ++ found.describe ++ "`"
  | expectedKeyword expected found => "expected `" ++ expected ++ "`, found `" ++ found.describe ++ "`"
  | unexpectedLexeme found => "unexpected `" ++ found.describe ++ "`"
  | duplicateObjectField name => "duplicate object field `" ++ name ++ "`"
  | nestedNonNull => "nested non-null type"
  | nestingTooDeep => "nesting too deep"

end Fault

structure SyntaxError where
  source : Source
  position : Nat
  fault : Fault
deriving DecidableEq, Repr

namespace SyntaxError

def location (error : SyntaxError) : Location := error.source.location error.position

/-- The full diagnostic: where, what, and the lines around it. -/
def message (error : SyntaxError) : String :=
  "Syntax Error " ++ error.source.name ++ " (" ++ error.location.toString ++ ") "
    ++ error.fault.description ++ "\n\n" ++ error.source.excerpt error.location

end SyntaxError
end GraphQL
