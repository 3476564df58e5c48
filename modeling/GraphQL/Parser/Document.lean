import GraphQL.Parser.Value
import GraphQL.Ast.Document

/-! Parsing of operations, fragments and whole documents. -/
namespace GraphQL.Parser
open Ast

def fragmentName : Parser Name := do
  if ← seesKeyword "on" then unexpected else name

def optionalName : Parser (Option Name) := do
  if ← sees .name then return some (← name) else return none

/-- The name of a field, with the name to answer under before it if there is one. -/
def fieldLabel : Parser (Option Name × Name) := do
  let first ← name
  if ← skipMark .colon then return (some first, ← name) else return (none, first)

def optionalSelectionSet (selectionSet : Parser SelectionSet) : Parser (Option SelectionSet) := do
  if ← seesMark .braceL then return some (← selectionSet) else return none

def field (selectionSet : Parser SelectionSet) (depth : Nat) : Parser Field := do
  let start ← start
  let (nickname, name) ← fieldLabel
  let arguments ← arguments false depth
  let directives ← directives false depth
  let selections ← optionalSelectionSet selectionSet
  return ⟨nickname, name, arguments, directives, selections, ← spanFrom start⟩

def typeCondition : Parser (Option NamedType) := do
  if ← seesKeyword "on" then
    advance
    return some (← namedType)
  else return none

/-- A spread or an inline fragment. -/
def fragmentSelection (selectionSet : Parser SelectionSet) (depth : Nat) : Parser Selection := do
  let start ← start
  expectMark .spread
  if (← sees .name) && !(← seesKeyword "on") then
    let name ← fragmentName
    let directives ← directives false depth
    return .spread ⟨name, directives, ← spanFrom start⟩
  else
    let condition ← typeCondition
    let directives ← directives false depth
    let selections ← selectionSet
    return .inline ⟨condition, directives, selections, ← spanFrom start⟩

def selection (selectionSet : Parser SelectionSet) (depth : Nat) : Parser Selection := do
  if ← seesMark .spread then fragmentSelection selectionSet depth
  else return .field (← field selectionSet depth)

def selectionSet : Nat → Parser SelectionSet
  | 0 => fault .nestingTooDeep
  | depth + 1 => do
      let start ← start
      let selections ← many .braceL (selection (selectionSet depth) depth) .braceR
      return ⟨selections, ← spanFrom start⟩

/-- The name of an operation type. -/
def operationType : Parser OperationType := do
  let token ← current
  expect .name
  match token.lexeme.value?.bind OperationType.ofText? with
  | some operation => return operation
  | none => faultAt token.start (.unexpectedLexeme token.lexeme)

/-- A constant value after an equals sign. -/
def defaultValue : Parser (Option Value) := do
  if ← skipMark .equals then return some (← value true maxDepth) else return none

def variableDefinition : Parser VariableDefinition := do
  let start ← start
  let target ← variableName
  expectMark .colon
  let type ← typeAnnotation maxDepth
  let value ← defaultValue
  return ⟨target, type, value, ← spanFrom start⟩

def operationDefinition : Parser OperationDefinition := do
  let start ← start
  if ← seesMark .braceL then
    let selections ← selectionSet maxDepth
    return ⟨.query, none, [], [], selections, ← spanFrom start⟩
  else
    let operation ← operationType
    let name ← optionalName
    let definitions ← optionalMany .parenL variableDefinition .parenR
    let directives ← directives false maxDepth
    let selections ← selectionSet maxDepth
    return ⟨operation, name, definitions, directives, selections, ← spanFrom start⟩

def fragmentDefinition : Parser FragmentDefinition := do
  let start ← start
  expectKeyword "fragment"
  let name ← fragmentName
  expectKeyword "on"
  let condition ← namedType
  let directives ← directives false maxDepth
  let selections ← selectionSet maxDepth
  return ⟨name, condition, directives, selections, ← spanFrom start⟩

end GraphQL.Parser
