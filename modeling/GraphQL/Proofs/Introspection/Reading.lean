import GraphQL.Proofs.Introspection.Telling

/-! The full introspection query, and how a schema is read back from what it answers. -/
namespace GraphQL

/-- A type that has the name of a built-in scalar is that scalar. -/
def Schema.StandardScalars (schema : Schema) : Prop :=
  ∀ scalar ∈ ScalarType.builtins, ∀ type, schema.type? scalar.name = some type → type = .scalar scalar

/-- How many wrappers there are around the name. -/
def TypeRef.wraps : TypeRef → Nat
  | named _ => 0
  | list item => item.wraps + 1
  | nonNull type => type.wraps + 1

/-- All types that a schema is written with have so many wrappers at most. -/
structure Schema.Shallow (schema : Schema) (depth : Nat) : Prop where
  types : ∀ type ∈ schema.types, ∀ reference ∈ type.typeRefs, reference.wraps ≤ depth
  arguments : ∀ directive ∈ schema.directives, ∀ argument ∈ directive.arguments,
    argument.type.wraps ≤ depth

namespace Introspection
open Execution (setOf)

section Query

def leafNode (name : String) : Ast.Field := ⟨none, ⟨name, none⟩, [], [], none, none⟩

def partNode (name : String) (nodes : List Ast.Field) : Ast.Field :=
  ⟨none, ⟨name, none⟩, [], [], some (setOf nodes), none⟩

/-- A field that is asked for what is deprecated, too. -/
def wholeNode (name : String) (nodes : List Ast.Field) : Ast.Field :=
  ⟨none, ⟨name, none⟩, [⟨⟨"includeDeprecated", none⟩, .boolean true none, none⟩], [],
    some (setOf nodes), none⟩

/-- A reference to a type, with so many wrappers around the name at most. -/
def referenceNodes : Nat → List Ast.Field
  | 0 => [leafNode "kind", leafNode "name"]
  | depth + 1 => [leafNode "kind", leafNode "name", partNode "ofType" (referenceNodes depth)]

variable (depth : Nat)

def inputNodes : List Ast.Field :=
  [leafNode "name", leafNode "description", partNode "type" (referenceNodes depth),
    leafNode "defaultValue"]

def fieldNodes : List Ast.Field :=
  [leafNode "name", leafNode "description", partNode "args" (inputNodes depth),
    partNode "type" (referenceNodes depth), leafNode "isDeprecated", leafNode "deprecationReason"]

def enumValueNodes : List Ast.Field :=
  [leafNode "name", leafNode "description", leafNode "isDeprecated", leafNode "deprecationReason"]

def typeNodes : List Ast.Field :=
  [leafNode "kind", leafNode "name", leafNode "description",
    wholeNode "fields" (fieldNodes depth), partNode "interfaces" (referenceNodes depth),
    partNode "possibleTypes" (referenceNodes depth), wholeNode "enumValues" enumValueNodes,
    partNode "inputFields" (inputNodes depth)]

def directiveNodes : List Ast.Field :=
  [leafNode "name", leafNode "description", leafNode "locations", partNode "args" (inputNodes depth)]

def schemaNodes : List Ast.Field :=
  [partNode "queryType" (referenceNodes depth), partNode "mutationType" (referenceNodes depth),
    partNode "subscriptionType" (referenceNodes depth), partNode "types" (typeNodes depth),
    partNode "directives" (directiveNodes depth)]

/-- The query for all that a schema tells about itself. -/
def query : Ast.OperationDefinition :=
  ⟨.query, none, [], [], setOf [partNode "__schema" (schemaNodes depth)], none⟩

end Query

/-! What there is to be known about a schema. -/

structure InputFacts where
  name : String
  description : Option String
  type : TypeRef
  /-- The default value as it is written. -/
  default : Option String

structure FieldFacts where
  name : String
  description : Option String
  arguments : List InputFacts
  type : TypeRef
  isDeprecated : Bool
  deprecationReason : Option String

structure EnumValueFacts where
  name : String
  description : Option String
  isDeprecated : Bool
  deprecationReason : Option String

structure TypeFacts where
  kind : TypeKind
  name : String
  description : Option String
  fields : Option (List FieldFacts)
  interfaces : Option (List TypeRef)
  possibleTypes : Option (List TypeRef)
  enumValues : Option (List EnumValueFacts)
  inputFields : Option (List InputFacts)

structure DirectiveFacts where
  name : String
  description : Option String
  locations : List DirectiveLocation
  arguments : List InputFacts

structure SchemaFacts where
  query : TypeRef
  mutation : Option TypeRef
  subscription : Option TypeRef
  types : List TypeFacts
  directives : List DirectiveFacts

section Facts
variable (schema : Schema)

def inputFacts (input : InputValue) : InputFacts :=
  { name := input.name, description := input.description, type := input.type
    default := (input.default.bind fun value =>
      schema.literalOf value input.type).map Ast.Value.text }

def fieldFacts (field : Field) : FieldFacts :=
  { name := field.name, description := field.description
    arguments := field.arguments.items.map (inputFacts schema), type := field.type
    isDeprecated := field.deprecation.isSome, deprecationReason := field.deprecation }

def enumValueFacts (value : EnumValue) : EnumValueFacts :=
  { name := value.name, description := value.description
    isDeprecated := value.deprecation.isSome, deprecationReason := value.deprecation }

/-- The enum that a type is. -/
def enum? : TypeDef → Option EnumType
  | .enum enum => some enum
  | _ => none

/-- The input object that a type is. -/
def inputObject? : TypeDef → Option InputObjectType
  | .inputObject input => some input
  | _ => none

/-- The facts of a type. One that cannot have members of some kind has no list of them. -/
def typeFacts (type : TypeDef) : TypeFacts :=
  { kind := type.kind, name := type.name, description := type.description
    fields := type.fields?.map fun fields => fields.items.map (fieldFacts schema)
    interfaces := type.object?.map fun object => object.interfaces.map TypeRef.named
    possibleTypes := ((some type).filter TypeDef.isAbstract).map fun type =>
      (schema.possibleTypes type.name).map fun object => .named object.name
    enumValues := (enum? type).map fun enum => enum.values.items.map enumValueFacts
    inputFields := (inputObject? type).map fun input =>
      input.fields.items.map (inputFacts schema) }

def directiveFacts (directive : DirectiveDef) : DirectiveFacts :=
  { name := directive.name, description := directive.description
    locations := directive.locations
    arguments := directive.arguments.map (inputFacts schema) }

def schemaFacts : SchemaFacts :=
  { query := .named schema.query.name
    mutation := schema.mutation.map fun root => .named root.name
    subscription := schema.subscription.map fun root => .named root.name
    types := schema.types.map (typeFacts schema)
    directives := schema.directives.map (directiveFacts schema) }

end Facts

/-! How they are read back from the data of a response. -/

section Reading
variable {α : Type}

/-- Reads a member of an object. -/
def member (key : String) (read : Value → Option α) (value : Value) : Option α :=
  (value.get? key).bind read

def readText : Value → Option String
  | .string text => some text
  | _ => none

def readTruth : Value → Option Bool := Value.boolean?

def readEnum (text : α → String) (all : List α) : Value → Option α
  | .enum name => all.find? fun one => text one == name
  | _ => none

def readList (read : Value → Option α) : Value → Option (List α)
  | .list values => values.mapM read
  | _ => none

def readOptional (read : Value → Option α) : Value → Option (Option α)
  | .null => some none
  | value => (read value).map some

def readKind : Value → Option TypeKind := readEnum TypeKind.text kinds

def readReference : Nat → Value → Option TypeRef
  | 0, value => (member "name" readText value).map .named
  | depth + 1, value => do
      match ← member "kind" readKind value with
      | .list => (member "ofType" (readReference depth) value).map .list
      | .nonNull => (member "ofType" (readReference depth) value).map .nonNull
      | _ => (member "name" readText value).map .named

variable (depth : Nat) (value : Value)

def readInput : Option InputFacts := do
  let name ← member "name" readText value
  let description ← member "description" (readOptional readText) value
  let type ← member "type" (readReference depth) value
  let default ← member "defaultValue" (readOptional readText) value
  return { name, description, type, default }

def readField : Option FieldFacts := do
  let name ← member "name" readText value
  let description ← member "description" (readOptional readText) value
  let arguments ← member "args" (readList (readInput depth)) value
  let type ← member "type" (readReference depth) value
  let isDeprecated ← member "isDeprecated" readTruth value
  let deprecationReason ← member "deprecationReason" (readOptional readText) value
  return { name, description, arguments, type, isDeprecated, deprecationReason }

def readEnumValue : Option EnumValueFacts := do
  let name ← member "name" readText value
  let description ← member "description" (readOptional readText) value
  let isDeprecated ← member "isDeprecated" readTruth value
  let deprecationReason ← member "deprecationReason" (readOptional readText) value
  return { name, description, isDeprecated, deprecationReason }

def readType : Option TypeFacts := do
  let kind ← member "kind" readKind value
  let name ← member "name" readText value
  let description ← member "description" (readOptional readText) value
  let fields ← member "fields" (readOptional (readList (readField depth))) value
  let interfaces ← member "interfaces" (readOptional (readList (readReference depth))) value
  let possibleTypes ← member "possibleTypes" (readOptional (readList (readReference depth))) value
  let enumValues ← member "enumValues" (readOptional (readList readEnumValue)) value
  let inputFields ← member "inputFields" (readOptional (readList (readInput depth))) value
  return { kind, name, description, fields, interfaces, possibleTypes, enumValues, inputFields }

def readDirective : Option DirectiveFacts := do
  let name ← member "name" readText value
  let description ← member "description" (readOptional readText) value
  let locations ←
    member "locations" (readList (readEnum DirectiveLocation.text DirectiveLocation.all)) value
  let arguments ← member "args" (readList (readInput depth)) value
  return { name, description, locations, arguments }

def readSchema : Option SchemaFacts := do
  let query ← member "queryType" (readReference depth) value
  let mutation ← member "mutationType" (readOptional (readReference depth)) value
  let subscription ← member "subscriptionType" (readOptional (readReference depth)) value
  let types ← member "types" (readList (readType depth)) value
  let directives ← member "directives" (readList (readDirective depth)) value
  return { query, mutation, subscription, types, directives }

/-- Reads a schema back from the data that answers its introspection. -/
def readData : Option SchemaFacts := member "__schema" (readSchema depth) value

end Reading
end Introspection
end GraphQL
