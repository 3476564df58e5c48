import GraphQL.Parser.Basic
import GraphQL.Ast.Selection

/-! Parsing of value literals, arguments, directives and type annotations.
`depth` is how many more levels of nesting are allowed. -/
namespace GraphQL.Parser
open Ast

/-- The literal that a bare name stands for. -/
def namedLiteral (text : String) (span : Option Span) : Value :=
  match text with
  | "true" => .boolean true span
  | "false" => .boolean false span
  | "null" => .null span
  | other => .enum other span

/-- Object fields up to the closing brace. The names met so far may not come again. -/
def objectFields (value : Parser Value) : Nat → List String → Parser (List ObjectField)
  | 0, _ => unexpected
  | fuel + 1, seen => do
      if ← skipMark .braceR then return []
      else
        let start ← start
        let name ← name
        if seen.contains name.text then faultAt start (.duplicateObjectField name.text)
        expectMark .colon
        let value' ← value
        let field := ⟨name, value', ← spanFrom start⟩
        return field :: (← objectFields value fuel (name.text :: seen))

/-- A value literal; a constant one holds no variables. -/
def value (isConst : Bool) (depth : Nat) : Parser Value := do
  let token ← current
  match token.lexeme with
  | .punctuator .bracketL =>
      match depth with
      | 0 => fault .nestingTooDeep
      | depth + 1 =>
          let values ← any .bracketL (value isConst depth) .bracketR
          return .list values (← spanFrom token.start)
  | .punctuator .braceL =>
      match depth with
      | 0 => fault .nestingTooDeep
      | depth + 1 =>
          expectMark .braceL
          let fields ← objectFields (value isConst depth) (← remaining) []
          return .object fields (← spanFrom token.start)
  | .int text => advance; return .int text (← spanFrom token.start)
  | .float text => advance; return .float text (← spanFrom token.start)
  | .string text => advance; return .string text (← spanFrom token.start)
  | .name text => advance; return namedLiteral text (← spanFrom token.start)
  | .punctuator .dollar => if isConst then unexpected else return .var (← variableName)
  | _ => unexpected

def argument (isConst : Bool) (depth : Nat) : Parser Argument := do
  let start ← start
  let name ← name
  expectMark .colon
  let value ← value isConst depth
  return ⟨name, value, ← spanFrom start⟩

def arguments (isConst : Bool) (depth : Nat) : Parser (List Argument) :=
  optionalMany .parenL (argument isConst depth) .parenR

def directive (isConst : Bool) (depth : Nat) : Parser Directive := do
  let start ← start
  expectMark .atSign
  let name ← name
  let arguments ← arguments isConst depth
  return ⟨name, arguments, ← spanFrom start⟩

def directives (isConst : Bool) (depth : Nat) : Parser (List Directive) := do
  whileSeen (seesMark .atSign) (directive isConst depth) (← remaining)

def namedType : Parser NamedType := do
  let start ← start
  let name ← name
  return ⟨name, ← spanFrom start⟩

/-- A type that a `!` may follow, but not two. -/
def withBang (start : Nat) (type : TypeAnnotation) : Parser TypeAnnotation := do
  if ← skipMark .bang then
    if ← seesMark .bang then fault .nestedNonNull
    return .nonNull type (← spanFrom start)
  else return type

def typeAnnotation (depth : Nat) : Parser TypeAnnotation := do
  let start ← start
  if ← skipMark .bracketL then
    match depth with
    | 0 => fault .nestingTooDeep
    | depth + 1 =>
        let item ← typeAnnotation depth
        expectMark .bracketR
        withBang start (.list item (← spanFrom start))
  else withBang start (.named (← namedType))

end GraphQL.Parser
