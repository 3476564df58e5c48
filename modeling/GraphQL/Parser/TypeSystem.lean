import GraphQL.Parser.Document

/-! Parsing of definitions of the type system. -/
namespace GraphQL.Parser
open Ast

def constDirectives : Parser (List Directive) := directives true maxDepth

def operationTypeDefinition : Parser OperationTypeDefinition := do
  let start ← start
  let operation ← operationType
  expectMark .colon
  let type ← namedType
  return ⟨operation, type, ← spanFrom start⟩

def schemaDefinition : Parser SchemaDefinition := do
  let start ← start
  expectKeyword "schema"
  let directives ← constDirectives
  let operationTypes ← many .braceL operationTypeDefinition .braceR
  return ⟨directives, operationTypes, ← spanFrom start⟩

def inputValueDefinition : Parser InputValueDefinition := do
  let start ← start
  let name ← name
  expectMark .colon
  let type ← typeAnnotation maxDepth
  let value ← defaultValue
  let directives ← constDirectives
  return ⟨name, type, value, directives, ← spanFrom start⟩

def argumentDefinitions : Parser (List InputValueDefinition) :=
  optionalMany .parenL inputValueDefinition .parenR

def fieldDefinition : Parser FieldDefinition := do
  let start ← start
  let name ← name
  let arguments ← argumentDefinitions
  expectMark .colon
  let type ← typeAnnotation maxDepth
  let directives ← constDirectives
  return ⟨name, arguments, type, directives, ← spanFrom start⟩

def fieldDefinitions : Parser (List FieldDefinition) := any .braceL fieldDefinition .braceR

def scalarTypeDefinition : Parser ScalarTypeDefinition := do
  let start ← start
  expectKeyword "scalar"
  let name ← name
  let directives ← constDirectives
  return ⟨name, directives, ← spanFrom start⟩

/-- The names after `implements`, as many as follow. -/
def implementedInterfaces : Parser (List NamedType) := do
  if ← seesKeyword "implements" then
    advance
    let first ← namedType
    return first :: (← whileSeen (sees .name) namedType (← remaining))
  else return []

def objectTypeDefinition : Parser ObjectTypeDefinition := do
  let start ← start
  expectKeyword "type"
  let name ← name
  let interfaces ← implementedInterfaces
  let directives ← constDirectives
  let fields ← fieldDefinitions
  return ⟨name, interfaces, directives, fields, ← spanFrom start⟩

def interfaceTypeDefinition : Parser InterfaceTypeDefinition := do
  let start ← start
  expectKeyword "interface"
  let name ← name
  let directives ← constDirectives
  let fields ← fieldDefinitions
  return ⟨name, directives, fields, ← spanFrom start⟩

def unionTypeDefinition : Parser UnionTypeDefinition := do
  let start ← start
  expectKeyword "union"
  let name ← name
  let directives ← constDirectives
  expectMark .equals
  let types ← separatedByBars namedType
  return ⟨name, directives, types, ← spanFrom start⟩

def enumValueDefinition : Parser EnumValueDefinition := do
  let start ← start
  let name ← name
  let directives ← constDirectives
  return ⟨name, directives, ← spanFrom start⟩

def enumTypeDefinition : Parser EnumTypeDefinition := do
  let start ← start
  expectKeyword "enum"
  let name ← name
  let directives ← constDirectives
  let values ← many .braceL enumValueDefinition .braceR
  return ⟨name, directives, values, ← spanFrom start⟩

def inputObjectTypeDefinition : Parser InputObjectTypeDefinition := do
  let start ← start
  expectKeyword "input"
  let name ← name
  let directives ← constDirectives
  let fields ← any .braceL inputValueDefinition .braceR
  return ⟨name, directives, fields, ← spanFrom start⟩

def typeExtension : Parser TypeExtension := do
  let start ← start
  expectKeyword "extend"
  let definition ← objectTypeDefinition
  return ⟨definition, ← spanFrom start⟩

def directiveDefinition : Parser DirectiveDefinition := do
  let start ← start
  expectKeyword "directive"
  expectMark .atSign
  let name ← name
  let arguments ← argumentDefinitions
  expectKeyword "on"
  let locations ← separatedByBars Parser.name
  return ⟨name, arguments, locations, ← spanFrom start⟩

/-- A definition, by the keyword or brace that it starts with. -/
def definition : Parser Definition := do
  match ← lexeme with
  | .punctuator .braceL => return .operation (← operationDefinition)
  | .name "query" | .name "mutation" | .name "subscription" =>
      return .operation (← operationDefinition)
  | .name "fragment" => return .fragment (← fragmentDefinition)
  | .name "schema" => return .typeSystem (.schema (← schemaDefinition))
  | .name "scalar" => return .typeSystem (.type (.scalar (← scalarTypeDefinition)))
  | .name "type" => return .typeSystem (.type (.object (← objectTypeDefinition)))
  | .name "interface" => return .typeSystem (.type (.interface (← interfaceTypeDefinition)))
  | .name "union" => return .typeSystem (.type (.union (← unionTypeDefinition)))
  | .name "enum" => return .typeSystem (.type (.enum (← enumTypeDefinition)))
  | .name "input" => return .typeSystem (.type (.inputObject (← inputObjectTypeDefinition)))
  | .name "extend" => return .typeSystem (.extension (← typeExtension))
  | .name "directive" => return .typeSystem (.directive (← directiveDefinition))
  | _ => unexpected

/-- Definitions up to the end of the text. -/
def definitions : Nat → Parser (List Definition)
  | 0 => unexpected
  | fuel + 1 => do
      let first ← definition
      if ← skip .finish then return [first]
      else return first :: (← definitions fuel)

def document : Parser Document := do
  let start ← start
  let definitions ← definitions (← remaining)
  return ⟨definitions, ← spanFrom start⟩

end GraphQL.Parser

namespace GraphQL

/-- Runs a parser from the first token of a text. -/
def Parser.run {α : Type} (parser : Parser α) (source : Source) (locations : Bool) :
    Except SyntaxError α :=
  let lexed := source.tokens
  match lexed.tokens, lexed.failure with
  | first :: rest, failure =>
      (parser ⟨source, failure, locations⟩ ⟨first, rest, 0⟩).map Prod.fst
  | [], some error => .error error
  | [], none => .error ⟨source, 0, .unexpectedLexeme .finish⟩

namespace Source

/-- Reads a text as a document. Without `locations` the nodes carry no spans. -/
def parseDocument (source : Source) (locations : Bool := true) : Except SyntaxError Ast.Document :=
  Parser.document.run source locations

/-- Reads a text as one value literal, variables allowed. -/
def parseValue (source : Source) (locations : Bool := true) : Except SyntaxError Ast.Value :=
  Parser.run (do let value ← Parser.value false Parser.maxDepth; Parser.expect .finish; return value)
    source locations

/-- Reads a text as one type annotation. -/
def parseType (source : Source) (locations : Bool := true) :
    Except SyntaxError Ast.TypeAnnotation :=
  Parser.run (do let type ← Parser.typeAnnotation Parser.maxDepth; Parser.expect .finish; return type)
    source locations

end Source
end GraphQL
