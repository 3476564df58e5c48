import GraphQL.Schema.Basic
import GraphQL.Schema.Error
import GraphQL.Schema.Introspection
import GraphQL.Types.BuiltinScalars

/-! Building schemas. The types of a schema are those given and all that they
refer to, in the order in which a depth-first search from the given ones meets
them. The first thing found wrong is the error. -/
namespace GraphQL

/-- The definitions that a schema is built from, each listed once, and the names of
the root types among them. -/
structure SchemaBuilder where
  query : Option String := none
  mutation : Option String := none
  subscription : Option String := none
  types : List TypeDef := []
  directives : List DirectiveDef := []

namespace SchemaBuilder

/-- One step of the search for types. -/
inductive Demand where
  /-- A type is referred to, perhaps from a known place. -/
  | type (name : String) (referencedBy : Option String)
  | refuse (error : SchemaError)

/-- Refuses type references that no type can have. -/
def wellWrapped (type : TypeRef) (coordinate : String) : List Demand :=
  if type.hasNestedNonNull then [.refuse (.nestedNonNull coordinate type.text)] else []

def reference (type : TypeRef) (coordinate : String) : List Demand :=
  wellWrapped type coordinate ++ [.type type.innermost (some coordinate)]

def argumentCoordinate (coordinate argument : String) : String :=
  coordinate ++ "(" ++ argument ++ ":)"

def argumentDemands (coordinate : String) (arguments : List InputValue) : List Demand :=
  arguments.flatMap fun argument =>
    reference argument.type (argumentCoordinate coordinate argument.name)

def fieldDemands (type : String) (field : Field) : List Demand :=
  let coordinate := type ++ "." ++ field.name
  match field.arguments.repeated with
  | argument :: _ => [.refuse (.duplicateArgumentName coordinate argument)]
  | [] => reference field.type coordinate ++ argumentDemands coordinate field.arguments.items

def fieldsDemands (type : String) (fields : Definitions Field) : List Demand :=
  match fields.repeated with
  | field :: _ => [.refuse (.duplicateFieldName type field)]
  | [] => fields.items.flatMap (fieldDemands type)

/-- What a type refers to, in order, up to the first thing wrong with it. -/
def demands : TypeDef → List Demand
  | .scalar _ => []
  | .object object =>
      fieldsDemands object.name object.fields
        ++ object.interfaces.map fun interface => .type interface (some object.name)
  | .interface interface => fieldsDemands interface.name interface.fields
  | .union union => union.members.map fun member => .type member (some union.name)
  | .enum enum =>
      match enum.values.repeated with
      | value :: _ => [.refuse (.duplicateEnumValue enum.name value)]
      | [] => []
  | .inputObject input =>
      match input.fields.repeated with
      | field :: _ => [.refuse (.duplicateFieldName input.name field)]
      | [] => input.fields.items.flatMap fun field => reference field.type (input.name ++ "." ++ field.name)

/-- What the directives refer to; `seen` holds the names of those before. -/
def directiveDemands (seen : List String) : List DirectiveDef → List Demand
  | [] => []
  | directive :: rest =>
      if seen.contains directive.name then [.refuse (.duplicateDirectiveName directive.name)]
      else argumentDemands ("@" ++ directive.name) directive.arguments
        ++ directiveDemands (directive.name :: seen) rest

/-- Meets the demands from front to back. A type that is met for the first time puts its own
demands in front. Each type does so once, which bounds the steps. -/
def gather (catalogue : List TypeDef) :
    (steps : Nat) → List Demand → List TypeDef → Except SchemaError (List TypeDef)
  | _, [], found => .ok found
  | 0, _ :: _, found => .ok found
  | _ + 1, .refuse error :: _, _ => .error error
  | steps + 1, .type name referencedBy :: rest, found =>
      if found.any fun type => type.name == name then gather catalogue steps rest found
      else
        match catalogue.find? fun type => type.name == name with
        | none => .error (.unknownType name referencedBy)
        | some type => gather catalogue steps (demands type ++ rest) (found ++ [type])

/-- The types that may be referred to without being given. -/
def knownTypes : List TypeDef := ScalarType.builtins.map TypeDef.scalar ++ Introspection.types

/-- Names that are reserved or taken; `seen` holds the names of the types before. -/
def registrationErrors (seen : List String) : List TypeDef → List SchemaError
  | [] => []
  | type :: rest =>
      (if type.name.startsWith "__" then [.reservedTypeName type.name]
        else if seen.contains type.name then [.duplicateTypeName type.name] else [])
        ++ registrationErrors (type.name :: seen) rest

def findType? (types : List TypeDef) (name : String) : Option TypeDef :=
  types.find? fun type => type.name == name

def interfaceErrors (types : List TypeDef) (object : String) (seen : List String) :
    List String → List SchemaError
  | [] => []
  | interface :: rest =>
      (if seen.contains interface then [.duplicateInterface object interface]
        else
          match findType? types interface with
          | some (.interface _) => []
          | _ => [.implementsNonInterface object interface])
        ++ interfaceErrors types object (interface :: seen) rest

def memberErrors (types : List TypeDef) (union : String) (seen : List String) :
    List String → List SchemaError
  | [] => []
  | member :: rest =>
      (match findType? types member with
        | some (.object _) =>
            if seen.contains member then [.duplicateMember union member] else []
        | _ => [.memberNotObject union member])
        ++ memberErrors types union (member :: seen) rest

/-- Interfaces that are none, members that are no objects, and repetitions of either. -/
def membershipErrors (types : List TypeDef) : TypeDef → List SchemaError
  | .object object => interfaceErrors types object.name [] object.interfaces
  | .union union => memberErrors types union.name [] union.members
  | _ => []

def inputErrors (schema : Schema) (type : TypeRef) (coordinate : String) : List SchemaError :=
  if ((schema.named? type).map TypeDef.isInput).getD false then []
  else [.inputTypeExpected coordinate type.text]

def argumentErrors (schema : Schema) (coordinate : String) (arguments : List InputValue) :
    List SchemaError :=
  arguments.flatMap fun argument =>
    inputErrors schema argument.type (argumentCoordinate coordinate argument.name)

def fieldPositionErrors (schema : Schema) (type : String) (field : Field) : List SchemaError :=
  let coordinate := type ++ "." ++ field.name
  (if ((schema.named? field.type).map TypeDef.isOutput).getD false then []
    else [.outputTypeExpected coordinate field.type.text])
    ++ argumentErrors schema coordinate field.arguments.items

/-- Input types where values are given out, and output types where they are taken. -/
def positionErrors (schema : Schema) : TypeDef → List SchemaError
  | .inputObject input =>
      input.fields.items.flatMap fun field =>
        inputErrors schema field.type (input.name ++ "." ++ field.name)
  | .object object => object.fields.items.flatMap (fieldPositionErrors schema object.name)
  | .interface interface =>
      interface.fields.items.flatMap (fieldPositionErrors schema interface.name)
  | _ => []

/-- How an object's field fails to stand for the field of an interface. -/
def implementedFieldErrors (schema : Schema) (object : ObjectType) (interface : String)
    (declared : Field) : List SchemaError :=
  match object.fields.find? declared.name with
  | none => [.fieldNotImplemented object.name interface declared.name]
  | some field =>
      (if schema.isSubtype field.type declared.type then []
        else [.fieldTypeMismatch object.name interface declared.name declared.type.text field.type.text])
        ++ declared.arguments.items.flatMap fun argument =>
          let found := (field.arguments.find? argument.name).map InputValue.type
          if found = some argument.type then []
          else [.argumentMismatch object.name interface declared.name argument.name
            argument.type.text (found.map TypeRef.text)]

def implementationErrors (schema : Schema) : TypeDef → List SchemaError
  | .object object =>
      object.interfaces.flatMap fun name =>
        match schema.type? name with
        | some (.interface interface) =>
            interface.fields.items.flatMap (implementedFieldErrors schema object name)
        | _ => []
  | _ => []

/-- Everything that is wrong with the types and directives of a schema. -/
def schemaErrors (schema : Schema) : List SchemaError :=
  schema.types.flatMap (membershipErrors schema.types)
    ++ schema.types.flatMap (positionErrors schema)
    ++ (schema.directives.flatMap fun directive =>
      argumentErrors schema ("@" ++ directive.name) directive.arguments)
    ++ schema.types.flatMap (implementationErrors schema)

def refuseFirst : List SchemaError → Except SchemaError Unit
  | [] => .ok ()
  | error :: _ => .error error

/-- The object type of a root name. -/
def root (builder : SchemaBuilder) (name : String) : Except SchemaError ObjectType :=
  match (findType? builder.types name).bind TypeDef.object? with
  | some object => .ok object
  | none => .error (.unknownType name none)

def optionalRoot (builder : SchemaBuilder) : Option String → Except SchemaError (Option ObjectType)
  | none => .ok none
  | some name => some <$> builder.root name

def allDirectives (builder : SchemaBuilder) : List DirectiveDef :=
  DirectiveDef.builtins ++ builder.directives

/-- Where the search for types starts. -/
def initialDemands (builder : SchemaBuilder) : List Demand :=
  (builder.types.map fun type => .type type.name none)
    ++ directiveDemands [] builder.allDirectives ++ [.type "__Schema" none]

def gatherTypes (builder : SchemaBuilder) : Except SchemaError (List TypeDef) :=
  let catalogue := builder.types ++ knownTypes
  let steps := builder.initialDemands.length + (catalogue.flatMap demands).length
  gather catalogue steps builder.initialDemands []

def build (builder : SchemaBuilder) : Except SchemaError Schema := do
  match builder.query with
  | none => throw .missingQueryType
  | some query =>
      refuseFirst (registrationErrors [] builder.types)
      let types ← builder.gatherTypes
      let schema : Schema :=
        { query := ← builder.root query
          mutation := ← builder.optionalRoot builder.mutation
          subscription := ← builder.optionalRoot builder.subscription
          types
          directives := builder.allDirectives }
      refuseFirst (schemaErrors schema)
      return schema

end SchemaBuilder
end GraphQL
