import GraphQL.Coercion.ToLiteral
import GraphQL.Execution.Host
import GraphQL.Printer

/-! How a schema answers questions about itself. -/
namespace GraphQL.Execution
namespace Introspection

variable {τ : Type}

def text (s : String) : FieldResult τ := .ok (.value (.string s))

def optionalText (s : Option String) : FieldResult τ := .ok (.ofOption (fun s => .value (.string s)) s)

def truth (b : Bool) : FieldResult τ := .ok (.value (.boolean b))

def typeOf (type : TypeRef) : FieldValue τ := .described (.type type)

def typeNamed (name : String) : FieldValue τ := typeOf (.named name)

def inputs (arguments : List InputValue) : FieldResult τ :=
  .ok (.list (arguments.map fun argument => .described (.input argument)))

def ofSchema (schema : Schema) : String → FieldResult τ
  | "types" => .ok (.list (schema.types.map fun type => typeNamed type.name))
  | "queryType" => .ok (typeNamed schema.query.name)
  | "mutationType" => .ok (.ofOption (fun root => typeNamed root.name) schema.mutation)
  | "subscriptionType" => .ok (.ofOption (fun root => typeNamed root.name) schema.subscription)
  | "directives" =>
      .ok (.list (schema.directives.map fun directive => .described (.directive directive)))
  | _ => .ok .null

/-- The type behind a reference without wrappers. -/
def bare? (schema : Schema) : TypeRef → Option TypeDef
  | .named name => schema.type? name
  | _ => none

def kindOf (schema : Schema) : TypeRef → Except String TypeKind
  | .nonNull _ => .ok .nonNull
  | .list _ => .ok .list
  | .named name =>
      match schema.type? name with
      | some type => .ok type.kind
      | none => .error ("Unknown type \"" ++ name ++ "\"")

/-- What a type that is not bare, or of another kind, answers for a list. -/
def optionalList {α : Type} (f : α → FieldValue τ) (items : Option (List α)) : FieldResult τ :=
  .ok (.ofOption (fun items => .list (items.map f)) items)

def ofType (schema : Schema) (type : TypeRef) (withDeprecated : Bool) : String → FieldResult τ
  | "kind" => (kindOf schema type).map fun kind => .value (.string kind.text)
  | "name" =>
      optionalText (match type with
        | .named name => some name
        | _ => none)
  | "description" => optionalText ((bare? schema type).bind TypeDef.description)
  | "fields" =>
      optionalList (fun field => .described (.field field))
        (((bare? schema type).bind TypeDef.fields?).map fun fields =>
          fields.items.filter fun field => withDeprecated || field.deprecation.isNone)
  | "interfaces" =>
      optionalList typeNamed (((bare? schema type).bind TypeDef.object?).map ObjectType.interfaces)
  | "possibleTypes" =>
      optionalList (fun object => typeNamed object.name)
        (((bare? schema type).filter TypeDef.isAbstract).map fun type =>
          schema.possibleTypes type.name)
  | "enumValues" =>
      optionalList (fun value => .described (.enumValue value))
        (match bare? schema type with
          | some (.enum enum) =>
              some (enum.values.items.filter fun value =>
                withDeprecated || value.deprecation.isNone)
          | _ => none)
  | "inputFields" =>
      optionalList (fun field => .described (.input field))
        (match bare? schema type with
          | some (.inputObject input) => some input.fields.items
          | _ => none)
  | "ofType" =>
      match type with
      | .list inner | .nonNull inner => .ok (typeOf inner)
      | .named _ => .ok .null
  | _ => .ok .null

def ofField (field : Field) : String → FieldResult τ
  | "name" => text field.name
  | "description" => optionalText field.description
  | "args" => inputs field.arguments.items
  | "type" => .ok (typeOf field.type)
  | "isDeprecated" => truth field.deprecation.isSome
  | "deprecationReason" => optionalText field.deprecation
  | _ => .ok .null

def ofInput (schema : Schema) (input : InputValue) : String → FieldResult τ
  | "name" => text input.name
  | "description" => optionalText input.description
  | "type" => .ok (typeOf input.type)
  | "defaultValue" =>
      optionalText ((input.default.bind fun value =>
        schema.literalOf value input.type).map Ast.Value.text)
  | _ => .ok .null

def ofEnumValue (value : EnumValue) : String → FieldResult τ
  | "name" => text value.name
  | "description" => optionalText value.description
  | "isDeprecated" => truth value.deprecation.isSome
  | "deprecationReason" => optionalText value.deprecation
  | _ => .ok .null

def ofDirective (directive : DirectiveDef) : String → FieldResult τ
  | "name" => text directive.name
  | "description" => optionalText directive.description
  | "locations" =>
      .ok (.list (directive.locations.map fun location => .value (.string location.text)))
  | "args" => inputs directive.arguments
  | _ => .ok .null

/-- The type of a name, if the schema has it. -/
def typeByName (schema : Schema) (name : String) : FieldValue τ :=
  if (schema.type? name).isSome then typeNamed name else .null

/-- Computes a field of a type by which a schema describes itself, or a field that types have
without defining it. -/
def resolve (source : FieldValue τ) (arguments : Entries Value) (info : Info τ) : FieldResult τ :=
  let schema := info.plan.schema
  let withDeprecated :=
    ((arguments.get? "includeDeprecated").bind Value.boolean?).getD false
  match info.site.field.name with
  | "__typename" => text info.site.parent.name
  | "__schema" => .ok (.described .schema)
  | "__type" =>
      .ok (typeByName schema (((arguments.get? "name").bind Value.string?).getD ""))
  | field =>
      match info.site.parent.name, source with
      | "__Schema", _ => ofSchema schema field
      | "__Type", .described (.type type) => ofType schema type withDeprecated field
      | "__Field", .described (.field of) => ofField of field
      | "__InputValue", .described (.input of) => ofInput schema of field
      | "__EnumValue", .described (.enumValue of) => ofEnumValue of field
      | "__Directive", .described (.directive of) => ofDirective of field
      | type, _ =>
          .error ("Introspection field resolved on a value that is not a " ++ type)

end Introspection
end GraphQL.Execution
