import GraphQL.Ast.TypeAnnotation
import GraphQL.Types.Directive

/-! Schemas: the root types, all types by name, and the directives. -/
namespace GraphQL

structure Schema where
  query : ObjectType
  mutation : Option ObjectType
  subscription : Option ObjectType
  types : List TypeDef
  directives : List DirectiveDef

namespace Schema

def type? (schema : Schema) (name : String) : Option TypeDef :=
  schema.types.find? fun type => type.name == name

/-- The type that a reference names. -/
def named? (schema : Schema) (type : TypeRef) : Option TypeDef := schema.type? type.innermost

def object? (schema : Schema) (name : String) : Option ObjectType :=
  (schema.type? name).bind TypeDef.object?

def directive? (schema : Schema) (name : String) : Option DirectiveDef :=
  schema.directives.find? fun directive => directive.name == name

/-- The object types that implement an interface, or the members of a union. -/
def possibleTypes (schema : Schema) (name : String) : List ObjectType :=
  match schema.type? name with
  | some (.interface interface) =>
      (schema.types.filterMap TypeDef.object?).filter fun object =>
        object.interfaces.contains interface.name
  | some (.union union) => union.members.filterMap schema.object?
  | _ => []

/-- Whether an object type can stand for an abstract one. -/
def isPossibleType (schema : Schema) (abstract object : String) : Bool :=
  (schema.possibleTypes abstract).any fun possible => possible.name == object

/-- Whether values of the first type can stand where the second one is declared. -/
def isSubtype (schema : Schema) (sub super : TypeRef) : Bool :=
  sub == super ||
    match sub, super with
    | .nonNull a, .nonNull b => isSubtype schema a b
    | _, .nonNull _ => false
    | .nonNull a, _ => isSubtype schema a super
    | .list a, .list b => isSubtype schema a b
    | _, .list _ => false
    | .list _, _ => false
    | .named a, .named b =>
        ((schema.type? b).map TypeDef.isAbstract).getD false && schema.isPossibleType b a

/-- Whether some object type can stand for both types. -/
def overlap (schema : Schema) (a b : TypeDef) : Bool :=
  a.name == b.name ||
    match a.isAbstract, b.isAbstract with
    | true, true =>
        (schema.possibleTypes a.name).any fun possible => schema.isPossibleType b.name possible.name
    | true, false => schema.isPossibleType a.name b.name
    | false, true => schema.isPossibleType b.name a.name
    | false, false => false

/-- The type that an annotation stands for, where the schema has it. -/
def typeOf? (schema : Schema) : Ast.TypeAnnotation → Option TypeRef
  | .named type => (schema.type? type.name.text).map fun _ => .named type.name.text
  | .list item _ => (schema.typeOf? item).map TypeRef.list
  | .nonNull type _ => (schema.typeOf? type).map TypeRef.nonNull

end Schema
end GraphQL
