import GraphQL.Types.Directive

/-! The types by which a schema describes itself, and the fields that lead to them.
All their fields are computed from the schema. -/
namespace GraphQL.Introspection

def fieldOf (name : String) (type : TypeRef) (description : Option String := none)
    (arguments : List InputValue := []) : Field :=
  { name, type, description, arguments := ⟨arguments, []⟩, resolver := some .introspection }

def nonNull (name : String) : TypeRef := .nonNull (.named name)

/-- A list that may be null, of items that may not. -/
def nullableListOf (name : String) : TypeRef := .list (nonNull name)

def listOf (name : String) : TypeRef := .nonNull (nullableListOf name)

def string : TypeRef := .named "String"

def includeDeprecated : List InputValue :=
  [{ name := "includeDeprecated", type := .named "Boolean", default := some (.boolean false) }]

def objectOf (name description : String) (fields : List Field) : TypeDef :=
  .object { name, description := some description, fields := ⟨fields, []⟩ }

def schemaType : TypeDef :=
  objectOf "__Schema"
    "A GraphQL Schema defines the capabilities of a GraphQL server. It exposes all available types and directives on the server, as well as the entry points for query, mutation, and subscription operations."
    [fieldOf "types" (listOf "__Type") (some "A list of all types supported by this server."),
      fieldOf "queryType" (nonNull "__Type")
        (some "The type that query operations will be rooted at."),
      fieldOf "mutationType" (.named "__Type")
        (some "If this server supports mutation, the type that mutation operations will be rooted at."),
      fieldOf "subscriptionType" (.named "__Type")
        (some "If this server support subscription, the type that subscription operations will be rooted at."),
      fieldOf "directives" (listOf "__Directive")
        (some "A list of all directives supported by this server.")]

def typeType : TypeDef :=
  objectOf "__Type"
    "The fundamental unit of any GraphQL Schema is the type. There are many kinds of types in GraphQL as represented by the `__TypeKind` enum.\n\nDepending on the kind of a type, certain fields describe information about that type. Scalar types provide no information beyond a name and description, while Enum types provide their values. Object and Interface types provide the fields they describe. Abstract types, Union and Interface, provide the Object types possible at runtime. List and NonNull types compose other types."
    [fieldOf "kind" (nonNull "__TypeKind"),
      fieldOf "name" string,
      fieldOf "description" string,
      fieldOf "fields" (nullableListOf "__Field") none includeDeprecated,
      fieldOf "interfaces" (nullableListOf "__Type"),
      fieldOf "possibleTypes" (nullableListOf "__Type"),
      fieldOf "enumValues" (nullableListOf "__EnumValue") none includeDeprecated,
      fieldOf "inputFields" (nullableListOf "__InputValue"),
      fieldOf "ofType" (.named "__Type")]

def fieldType : TypeDef :=
  objectOf "__Field"
    "Object and Interface types are described by a list of Fields, each of which has a name, potentially a list of arguments, and a return type."
    [fieldOf "name" (nonNull "String"),
      fieldOf "description" string,
      fieldOf "args" (listOf "__InputValue"),
      fieldOf "type" (nonNull "__Type"),
      fieldOf "isDeprecated" (nonNull "Boolean"),
      fieldOf "deprecationReason" string]

def inputValueType : TypeDef :=
  objectOf "__InputValue"
    "Arguments provided to Fields or Directives and the input fields of an InputObject are represented as Input Values which describe their type and optionally a default value."
    [fieldOf "name" (nonNull "String"),
      fieldOf "description" string,
      fieldOf "type" (nonNull "__Type"),
      fieldOf "defaultValue" string
        (some "A GraphQL-formatted string representing the default value for this input value.")]

def enumValueType : TypeDef :=
  objectOf "__EnumValue"
    "One possible value for a given Enum. Enum values are unique values, not a placeholder for a string or numeric value. However an Enum value is returned in a JSON response as a string."
    [fieldOf "name" (nonNull "String"),
      fieldOf "description" string,
      fieldOf "isDeprecated" (nonNull "Boolean"),
      fieldOf "deprecationReason" string]

def directiveType : TypeDef :=
  objectOf "__Directive"
    "A Directive provides a way to describe alternate runtime execution and type validation behavior in a GraphQL document.\n\nIn some cases, you need to provide options to alter GraphQL's execution behavior in ways field arguments will not suffice, such as conditionally including or skipping a field. Directives provide this by describing additional information to the executor."
    [fieldOf "name" (nonNull "String"),
      fieldOf "description" string,
      fieldOf "locations" (listOf "__DirectiveLocation"),
      fieldOf "args" (listOf "__InputValue")]

def kindDescription : TypeKind → String
  | .scalar => "Indicates this type is a scalar."
  | .object => "Indicates this type is an object. `fields` and `interfaces` are valid fields."
  | .interface => "Indicates this type is an interface. `fields` and `possibleTypes` are valid fields."
  | .union => "Indicates this type is a union. `possibleTypes` is a valid field."
  | .enum => "Indicates this type is an enum. `enumValues` is a valid field."
  | .inputObject => "Indicates this type is an input object. `inputFields` is a valid field."
  | .list => "Indicates this type is a list. `ofType` is a valid field."
  | .nonNull => "Indicates this type is a non-null. `ofType` is a valid field."

def kinds : List TypeKind :=
  [.scalar, .object, .interface, .union, .enum, .inputObject, .list, .nonNull]

def typeKindType : TypeDef :=
  .enum
    { name := "__TypeKind"
      description := some "An enum describing what kind of type a given `__Type` is."
      values := ⟨kinds.map fun kind =>
        { EnumValue.simple kind.text with description := some (kindDescription kind) }, []⟩ }

def directiveLocationType : TypeDef :=
  .enum
    { name := "__DirectiveLocation"
      description := some
        "A Directive can be adjacent to many parts of the GraphQL language, a __DirectiveLocation describes one such possible adjacencies."
      values := ⟨DirectiveLocation.all.map fun location => EnumValue.simple location.text, []⟩ }

def types : List TypeDef :=
  [schemaType, typeType, fieldType, inputValueType, enumValueType, directiveType, typeKindType,
    directiveLocationType]

/-! The fields that every query root has, and the one that every composite type has. -/

def schemaField : Field :=
  fieldOf "__schema" (nonNull "__Schema") (some "Access the current type schema of this server.")

def typeField : Field :=
  fieldOf "__type" (.named "__Type") (some "Request the type information of a single type.")
    [{ name := "name", type := nonNull "String" }]

def typenameField : Field :=
  fieldOf "__typename" (nonNull "String")
    (some "The name of the current Object type at runtime.")

end GraphQL.Introspection
