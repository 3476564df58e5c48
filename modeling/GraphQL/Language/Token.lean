/-! Tokens: a lexeme with the bytes it takes up. Names, numbers and strings
carry their value, and the end of the text is a lexeme of its own. -/
namespace GraphQL

inductive Punctuator where
  | bang | dollar | parenL | parenR | spread | colon | equals | atSign
  | bracketL | bracketR | braceL | pipe | braceR
deriving DecidableEq, Repr

namespace Punctuator

def text : Punctuator → String
  | bang => "!"
  | dollar => "$"
  | parenL => "("
  | parenR => ")"
  | spread => "..."
  | colon => ":"
  | equals => "="
  | atSign => "@"
  | bracketL => "["
  | bracketR => "]"
  | braceL => "\x7b"
  | pipe => "|"
  | braceR => "\x7d"

/-- The punctuator that a single character writes. -/
def ofChar? : Char → Option Punctuator
  | '!' => some bang
  | '$' => some dollar
  | '(' => some parenL
  | ')' => some parenR
  | ':' => some colon
  | '=' => some equals
  | '@' => some atSign
  | '[' => some bracketL
  | ']' => some bracketR
  | '{' => some braceL
  | '|' => some pipe
  | '}' => some braceR
  | _ => none

end Punctuator

inductive Lexeme where
  | finish
  | punctuator (mark : Punctuator)
  | name (text : String)
  | int (text : String)
  | float (text : String)
  /-- A string literal with its escapes resolved. -/
  | string (value : String)
deriving DecidableEq, Repr

namespace Lexeme

/-- What a lexeme is, its value aside. -/
inductive Kind where
  | finish
  | punctuator (mark : Punctuator)
  | name | int | float | string
deriving DecidableEq, Repr

def Kind.text : Kind → String
  | .finish => "EOF"
  | .punctuator mark => mark.text
  | .name => "Name"
  | .int => "Int"
  | .float => "Float"
  | .string => "String"

def kind : Lexeme → Kind
  | finish => .finish
  | punctuator mark => .punctuator mark
  | name _ => .name
  | int _ => .int
  | float _ => .float
  | string _ => .string

def value? : Lexeme → Option String
  | finish | punctuator _ => none
  | name text | int text | float text | string text => some text

/-- How diagnostics mention a lexeme: its kind and, in quotes, its value. -/
def describe (lexeme : Lexeme) : String :=
  match lexeme.value? with
  | none => lexeme.kind.text
  | some value => lexeme.kind.text ++ " \"" ++ value ++ "\""

end Lexeme

structure Token where
  lexeme : Lexeme
  start : Nat
  stop : Nat
deriving DecidableEq, Repr

end GraphQL
