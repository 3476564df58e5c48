import GraphQL.Ast.Selection

/-! Definitions of the type system as written: schemas, types, extensions and
directives. -/
namespace GraphQL.Ast

inductive OperationType where
  | query | mutation | subscription
deriving DecidableEq, Repr

def OperationType.text : OperationType → String
  | query => "query"
  | mutation => "mutation"
  | subscription => "subscription"

def OperationType.ofText? : String → Option OperationType
  | "query" => some query
  | "mutation" => some mutation
  | "subscription" => some subscription
  | _ => none

structure OperationTypeDefinition where
  operation : OperationType
  type : NamedType
  span : Option Span := none
deriving DecidableEq

structure SchemaDefinition where
  directives : List Directive
  operationTypes : List OperationTypeDefinition
  span : Option Span := none
deriving DecidableEq

structure InputValueDefinition where
  name : Name
  type : TypeAnnotation
  defaultValue : Option Value
  directives : List Directive
  span : Option Span := none
deriving DecidableEq

structure FieldDefinition where
  name : Name
  arguments : List InputValueDefinition
  type : TypeAnnotation
  directives : List Directive
  span : Option Span := none
deriving DecidableEq

structure ScalarTypeDefinition where
  name : Name
  directives : List Directive
  span : Option Span := none
deriving DecidableEq

structure ObjectTypeDefinition where
  name : Name
  interfaces : List NamedType
  directives : List Directive
  fields : List FieldDefinition
  span : Option Span := none
deriving DecidableEq

structure InterfaceTypeDefinition where
  name : Name
  directives : List Directive
  fields : List FieldDefinition
  span : Option Span := none
deriving DecidableEq

structure UnionTypeDefinition where
  name : Name
  directives : List Directive
  types : List NamedType
  span : Option Span := none
deriving DecidableEq

structure EnumValueDefinition where
  name : Name
  directives : List Directive
  span : Option Span := none
deriving DecidableEq

structure EnumTypeDefinition where
  name : Name
  directives : List Directive
  values : List EnumValueDefinition
  span : Option Span := none
deriving DecidableEq

structure InputObjectTypeDefinition where
  name : Name
  directives : List Directive
  fields : List InputValueDefinition
  span : Option Span := none
deriving DecidableEq

inductive TypeDefinition where
  | scalar (of : ScalarTypeDefinition)
  | object (of : ObjectTypeDefinition)
  | interface (of : InterfaceTypeDefinition)
  | union (of : UnionTypeDefinition)
  | enum (of : EnumTypeDefinition)
  | inputObject (of : InputObjectTypeDefinition)
deriving DecidableEq

def TypeDefinition.name : TypeDefinition → Name
  | scalar d => d.name
  | object d => d.name
  | interface d => d.name
  | union d => d.name
  | enum d => d.name
  | inputObject d => d.name

def TypeDefinition.span : TypeDefinition → Option Span
  | scalar d => d.span
  | object d => d.span
  | interface d => d.span
  | union d => d.span
  | enum d => d.span
  | inputObject d => d.span

/-- More fields and interfaces for an object type. -/
structure TypeExtension where
  definition : ObjectTypeDefinition
  span : Option Span := none
deriving DecidableEq

structure DirectiveDefinition where
  name : Name
  arguments : List InputValueDefinition
  locations : List Name
  span : Option Span := none
deriving DecidableEq

inductive TypeSystemDefinition where
  | schema (of : SchemaDefinition)
  | type (of : TypeDefinition)
  | extension (of : TypeExtension)
  | directive (of : DirectiveDefinition)
deriving DecidableEq

def TypeSystemDefinition.span : TypeSystemDefinition → Option Span
  | schema d => d.span
  | type d => d.span
  | extension d => d.span
  | directive d => d.span

end GraphQL.Ast
