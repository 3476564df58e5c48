import GraphQL.Types.Basic

/-! Directives: where they may stand and which arguments they take. -/
namespace GraphQL

inductive DirectiveLocation where
  | query | mutation | subscription | field | fragmentDefinition | fragmentSpread | inlineFragment
  | schema | scalar | object | fieldDefinition | argumentDefinition | interface | union | enum
  | enumValue | inputObject | inputFieldDefinition
deriving DecidableEq, Repr

namespace DirectiveLocation

def all : List DirectiveLocation :=
  [query, mutation, subscription, field, fragmentDefinition, fragmentSpread, inlineFragment,
    schema, scalar, object, fieldDefinition, argumentDefinition, interface, union, enum,
    enumValue, inputObject, inputFieldDefinition]

def text : DirectiveLocation → String
  | query => "QUERY"
  | mutation => "MUTATION"
  | subscription => "SUBSCRIPTION"
  | field => "FIELD"
  | fragmentDefinition => "FRAGMENT_DEFINITION"
  | fragmentSpread => "FRAGMENT_SPREAD"
  | inlineFragment => "INLINE_FRAGMENT"
  | schema => "SCHEMA"
  | scalar => "SCALAR"
  | object => "OBJECT"
  | fieldDefinition => "FIELD_DEFINITION"
  | argumentDefinition => "ARGUMENT_DEFINITION"
  | interface => "INTERFACE"
  | union => "UNION"
  | enum => "ENUM"
  | enumValue => "ENUM_VALUE"
  | inputObject => "INPUT_OBJECT"
  | inputFieldDefinition => "INPUT_FIELD_DEFINITION"

def ofText? (text : String) : Option DirectiveLocation :=
  all.find? fun location => location.text == text

end DirectiveLocation

structure DirectiveDef where
  name : String
  description : Option String := none
  locations : List DirectiveLocation
  /-- An argument that is given again replaces the first one in its place. -/
  arguments : List InputValue := []

instance : Named DirectiveDef := ⟨DirectiveDef.name⟩

namespace DirectiveDef

def argument? (directive : DirectiveDef) (name : String) : Option InputValue :=
  directive.arguments.find? fun argument => argument.name == name

/-- The reason of a deprecation that gives none. -/
def defaultReason : String := "No longer supported"

def selectionLocations : List DirectiveLocation := [.field, .fragmentSpread, .inlineFragment]

def builtinSkip : DirectiveDef where
  name := "skip"
  description := some
    "Directs the executor to skip this field or fragment when the `if` argument is true."
  locations := selectionLocations
  arguments :=
    [{ name := "if", type := .nonNull (.named "Boolean"), description := some "Skipped when true." }]

def builtinInclude : DirectiveDef where
  name := "include"
  description := some
    "Directs the executor to include this field or fragment only when the `if` argument is true."
  locations := selectionLocations
  arguments :=
    [{ name := "if", type := .nonNull (.named "Boolean"), description := some "Included when true." }]

def builtinDeprecated : DirectiveDef where
  name := "deprecated"
  description := some "Marks an element of a GraphQL schema as no longer supported."
  locations := [.fieldDefinition, .enumValue]
  arguments :=
    [{ name := "reason"
       type := .named "String"
       description := some
         "Explains why this element was deprecated, usually also including a suggestion for how to access supported similar data."
       default := some (.string defaultReason) }]

/-- The directives that every schema has. -/
def builtins : List DirectiveDef := [builtinSkip, builtinInclude, builtinDeprecated]

end DirectiveDef
end GraphQL
