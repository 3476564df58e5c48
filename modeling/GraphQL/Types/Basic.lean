import GraphQL.Types.TypeRef
import GraphQL.Types.Scalar
import GraphQL.Types.Definitions

/-! The types of a schema. Behaviour that a host supplies is named by a handle,
which the host interprets when an operation is executed; so a schema is data. -/
namespace GraphQL

/-- The host's number for one of its functions. -/
abbrev Handle := Nat

/-- An argument or a field of an input object. -/
structure InputValue where
  name : String
  type : TypeRef
  description : Option String := none
  default : Option Value := none

instance : Named InputValue := ⟨InputValue.name⟩

/-- What computes a field: a function of the host, or the schema itself. -/
inductive Resolver where
  | host (handle : Handle)
  | introspection
deriving DecidableEq, Repr

structure Field where
  name : String
  type : TypeRef
  description : Option String := none
  arguments : Definitions InputValue := ⟨[], []⟩
  /-- Fields without a resolver read from their source. -/
  resolver : Option Resolver := none
  /-- Why the field should no longer be used. -/
  deprecation : Option String := none

instance : Named Field := ⟨Field.name⟩

structure ObjectType where
  name : String
  description : Option String := none
  fields : Definitions Field := ⟨[], []⟩
  interfaces : List String := []
  /-- Tells whether a value belongs to the type. -/
  isTypeOf : Option Handle := none

structure InterfaceType where
  name : String
  description : Option String := none
  fields : Definitions Field := ⟨[], []⟩
  /-- Names the object type of a value. -/
  resolveType : Option Handle := none

structure UnionType where
  name : String
  description : Option String := none
  members : List String := []
  /-- Names the object type of a value. -/
  resolveType : Option Handle := none

/-- One value of an enum, with the value that stands for it inside the host. -/
structure EnumValue where
  name : String
  internal : Value
  description : Option String := none
  deprecation : Option String := none

instance : Named EnumValue := ⟨EnumValue.name⟩

/-- An enum value that stands for its own name. -/
def EnumValue.simple (name : String) : EnumValue := { name, internal := .string name }

structure EnumType where
  name : String
  description : Option String := none
  values : Definitions EnumValue := ⟨[], []⟩

namespace EnumType

/-- The enum value of an internal value, or an enum value given by name. -/
def serialize (type : EnumType) (value : Value) : Option Value :=
  match type.values.items.find? fun v => v.internal == value with
  | some v => some (.enum v.name)
  | none =>
      match value with
      | .enum name => if type.values.contains name then some (.enum name) else none
      | _ => none

def internal? (type : EnumType) (name : String) : Option Value :=
  (type.values.find? name).map EnumValue.internal

def parseValue (type : EnumType) (value : Value) : Option Value :=
  match value with
  | .string name | .enum name => type.internal? name
  | _ => none

def parseLiteral (type : EnumType) (literal : Ast.Value) : Option Value :=
  match literal with
  | .enum name _ => type.internal? name
  | _ => none

end EnumType

structure InputObjectType where
  name : String
  description : Option String := none
  fields : Definitions InputValue := ⟨[], []⟩

inductive TypeDef where
  | scalar (of : ScalarType)
  | object (of : ObjectType)
  | interface (of : InterfaceType)
  | union (of : UnionType)
  | enum (of : EnumType)
  | inputObject (of : InputObjectType)

/-- The kinds of types, wrappers included. -/
inductive TypeKind where
  | scalar | object | interface | union | enum | inputObject | list | nonNull
deriving DecidableEq, Repr

def TypeKind.text : TypeKind → String
  | scalar => "SCALAR"
  | object => "OBJECT"
  | interface => "INTERFACE"
  | union => "UNION"
  | enum => "ENUM"
  | inputObject => "INPUT_OBJECT"
  | list => "LIST"
  | nonNull => "NON_NULL"

namespace TypeDef

def name : TypeDef → String
  | scalar t => t.name
  | object t => t.name
  | interface t => t.name
  | union t => t.name
  | enum t => t.name
  | inputObject t => t.name

def description : TypeDef → Option String
  | scalar t => t.description
  | object t => t.description
  | interface t => t.description
  | union t => t.description
  | enum t => t.description
  | inputObject t => t.description

def kind : TypeDef → TypeKind
  | scalar _ => .scalar
  | object _ => .object
  | interface _ => .interface
  | union _ => .union
  | enum _ => .enum
  | inputObject _ => .inputObject

/-- Types that arguments and variables can have. -/
def isInput : TypeDef → Bool
  | scalar _ | enum _ | inputObject _ => true
  | _ => false

/-- Types that fields can have. -/
def isOutput : TypeDef → Bool
  | inputObject _ => false
  | _ => true

/-- Types without selections. -/
def isLeaf : TypeDef → Bool
  | scalar _ | enum _ => true
  | _ => false

/-- Types with selections. -/
def isComposite : TypeDef → Bool
  | object _ | interface _ | union _ => true
  | _ => false

/-- Types that several object types can stand for. -/
def isAbstract : TypeDef → Bool
  | interface _ | union _ => true
  | _ => false

def object? : TypeDef → Option ObjectType
  | object t => some t
  | _ => none

/-- What names the object type of a value of an abstract type. -/
def resolveType? : TypeDef → Option Handle
  | interface t => t.resolveType
  | union t => t.resolveType
  | _ => none

/-- The fields of an object or an interface. -/
def fields? : TypeDef → Option (Definitions Field)
  | object t => some t.fields
  | interface t => some t.fields
  | _ => none

def field? (type : TypeDef) (name : String) : Option Field :=
  type.fields?.bind fun fields => fields.find? name

end TypeDef
end GraphQL
