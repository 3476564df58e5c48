import GraphQL.Types.Directive

/-! What resolvers answer with. The host keeps its objects, functions and pending values to
itself and names them by tokens of a type `τ`; what a token stands for only the host knows. -/
namespace GraphQL.Execution

/-- A value that the host will compute after it has been asked for it some times in vain. -/
structure Later (τ : Type) where
  polls : Nat
  source : τ
deriving DecidableEq, Repr

/-- A part of the schema. -/
inductive Described where
  | schema
  | type (of : TypeRef)
  | field (of : Field)
  | input (of : InputValue)
  | enumValue (of : EnumValue)
  | directive (of : DirectiveDef)

inductive FieldValue (τ : Type) where
  | value (of : Value)
  | list (items : List (FieldValue τ))
  /-- An object of the host. -/
  | object (of : τ)
  | described (of : Described)
  /-- A function of the host without arguments. -/
  | callable (of : τ)
  | deferred (of : Later τ)
  /-- The events of a subscription. -/
  | stream (events : List (Later τ))

/-- A value, or the message of the resolver that failed. -/
abbrev FieldResult (τ : Type) := Except String (FieldValue τ)

namespace FieldValue

variable {τ : Type}

def null : FieldValue τ := value .null

instance : Inhabited (FieldValue τ) := ⟨null⟩

def isNull : FieldValue τ → Bool
  | value v => v.isNull
  | _ => false

/-- The value, if it is a plain one. -/
def plain? : FieldValue τ → Option Value
  | value v => some v
  | _ => none

def ofOption (f : α → FieldValue τ) : Option α → FieldValue τ
  | some a => f a
  | none => null

end FieldValue
end GraphQL.Execution
