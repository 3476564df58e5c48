import GraphQL.Language.Lexer
import GraphQL.Ast.Value

/-! The parsing monad. A parser sees one token at a time; it consumes tokens
from the front and remembers where the last consumed one ended. A failure of
the lexer is met when the parser would step onto the token that failed. -/
namespace GraphQL

namespace Parser

/-- What stays fixed while a text is parsed. -/
structure Input where
  source : Source
  failure : Option SyntaxError
  locations : Bool

/-- The token at hand, the tokens after it, and the end of the token before it. -/
structure State where
  current : Token
  rest : List Token
  stop : Nat
deriving DecidableEq

/-- How deeply selection sets, list and object literals and list types may nest. -/
def maxDepth : Nat := 128

end Parser

abbrev Parser (α : Type) := ReaderT Parser.Input (StateT Parser.State (Except SyntaxError)) α

namespace Parser
open Ast

def current : Parser Token := return (← get).current

def lexeme : Parser Lexeme := return (← current).lexeme

def start : Parser Nat := return (← current).start

def faultAt {α : Type} (position : Nat) (fault : Fault) : Parser α := do
  throw ⟨(← read).source, position, fault⟩

/-- Fails at the token at hand. -/
def fault {α : Type} (fault : Fault) : Parser α := do faultAt (← start) fault

def unexpected {α : Type} : Parser α := do fault (.unexpectedLexeme (← lexeme))

/-- Steps over the token at hand; there is no step past the end of the text. -/
def advance : Parser Unit := do
  let state ← get
  match state.rest with
  | next :: rest => set (⟨next, rest, state.current.stop⟩ : State)
  | [] =>
      match (← read).failure with
      | some error => throw error
      | none => set { state with stop := state.current.stop }

/-- The span from an offset to the end of the last consumed token. -/
def spanFrom (start : Nat) : Parser (Option Span) := do
  let input ← read
  if input.locations then return some ⟨start, (← get).stop, input.source⟩ else return none

def sees (kind : Lexeme.Kind) : Parser Bool := return (← lexeme).kind == kind

def seesMark (mark : Punctuator) : Parser Bool := sees (.punctuator mark)

def seesKeyword (word : String) : Parser Bool := return (← lexeme) == .name word

/-- Steps over a token of the kind if it is at hand, and tells whether it was. -/
def skip (kind : Lexeme.Kind) : Parser Bool := do
  if ← sees kind then
    advance
    return true
  else return false

def skipMark (mark : Punctuator) : Parser Bool := skip (.punctuator mark)

def expect (kind : Lexeme.Kind) : Parser Unit := do
  if ← sees kind then advance else fault (.expectedKind kind (← lexeme))

def expectMark (mark : Punctuator) : Parser Unit := expect (.punctuator mark)

def expectKeyword (word : String) : Parser Unit := do
  if ← seesKeyword word then advance else fault (.expectedKeyword word (← lexeme))

/-- A bound on the items of a list, each of which takes at least one token. -/
def remaining : Parser Nat := return (← get).rest.length + 2

/-- Items while the condition holds. -/
def whileSeen {α : Type} (condition : Parser Bool) (item : Parser α) : Nat → Parser (List α)
  | 0 => unexpected
  | fuel + 1 => do
      if ← condition then
        let first ← item
        return first :: (← whileSeen condition item fuel)
      else return []

/-- Items up to the closing mark, which is consumed too. -/
def upTo {α : Type} (close : Punctuator) (item : Parser α) : Nat → Parser (List α)
  | 0 => unexpected
  | fuel + 1 => do
      if ← skipMark close then return []
      else
        let first ← item
        return first :: (← upTo close item fuel)

/-- Any number of items between two marks. -/
def any {α : Type} (opening : Punctuator) (item : Parser α) (closing : Punctuator) : Parser (List α) := do
  expectMark opening
  upTo closing item (← remaining)

/-- One or more items between two marks. -/
def many {α : Type} (opening : Punctuator) (item : Parser α) (closing : Punctuator) :
    Parser (List α) := do
  expectMark opening
  let first ← item
  return first :: (← upTo closing item (← remaining))

/-- `many`, or nothing where the opening mark is not at hand. -/
def optionalMany {α : Type} (opening : Punctuator) (item : Parser α) (closing : Punctuator) :
    Parser (List α) := do
  if ← seesMark opening then many opening item closing else return []

/-- One or more items separated by bars, a leading bar allowed. -/
def separatedByBars {α : Type} (item : Parser α) : Parser (List α) := do
  let _ ← skipMark .pipe
  let first ← item
  return first :: (← whileSeen (skipMark .pipe) item (← remaining))

def name : Parser Name := do
  let token ← current
  match token.lexeme with
  | .name text =>
      advance
      return ⟨text, ← spanFrom token.start⟩
  | found => fault (.expectedKind .name found)

def variableName : Parser Variable := do
  let start ← start
  expectMark .dollar
  let name ← name
  return ⟨name, ← spanFrom start⟩

end Parser
end GraphQL
