import GraphQL.Ast.Document
import GraphQL.Execution.FieldValue
import GraphQL.Response
import GraphQL.Schema.Basic

/-! Hosts: who supplies the values. A host has a state of type `σ`, in which all that it
remembers and does is kept. -/
namespace GraphQL.Execution

/-- What is fixed while an operation is executed. -/
structure Plan (τ : Type) where
  schema : Schema
  fragments : List Ast.FragmentDefinition
  /-- The source of the root fields. -/
  root : FieldValue τ
  operation : Ast.OperationDefinition
  /-- The values of the variables. -/
  bindings : Entries Value

/-- A field on an object type, with all selections of it that are answered together. -/
structure Site where
  parent : ObjectType
  field : Field
  nodes : List Ast.Field

namespace Site

def coordinate (site : Site) : String := site.parent.name ++ "." ++ site.field.name

def error (site : Site) (path : Path) (message : String) : ResponseError :=
  { message, path := some path
    locations := (site.nodes.filterMap Ast.Field.span).map Span.location }

end Site

/-- What a resolver is told about the place that it resolves. -/
structure Info (τ : Type) where
  plan : Plan τ
  site : Site
  path : Path

/-- Computes a field from its source and its arguments. -/
abbrev Resolve (τ σ : Type) := FieldValue τ → Entries Value → Info τ → StateM σ (FieldResult τ)

/-- Wraps a resolver into another one. -/
abbrev Middleware (τ σ : Type) := Resolve τ σ → Resolve τ σ

structure Host (τ σ : Type) where
  /-- The object type that an object says it belongs to. -/
  typeName : τ → Option String
  /-- The field of an object. -/
  field : τ → String → StateM σ (Option (FieldValue τ))
  /-- Calls a function, finishes a pending value, or produces an event. -/
  compute : τ → StateM σ (FieldResult τ)
  resolve : Handle → Resolve τ σ
  isTypeOf : Handle → FieldValue τ → Info τ → StateM σ Bool
  resolveType : Handle → FieldValue τ → Info τ → StateM σ (Option String)

namespace Host

variable {τ σ : Type} (host : Host τ σ)

/-- A short description for messages. -/
def describe : FieldValue τ → String
  | .value v => v.json
  | .list _ => "a list"
  | .object o => (host.typeName o).elim "an object" ("an object of type " ++ ·)
  | .described _ => "an object"
  | .callable _ => "a function"
  | .deferred _ => "a pending value"
  | .stream _ => "a stream"

/-- The object type that a value says it belongs to. -/
def reportedType : FieldValue τ → Option String
  | .object o => host.typeName o
  | .value v => (v.get? "__typename").bind Value.string?
  | _ => none

/-- Reads a field off its source. A function found there is called. -/
def readField (source : FieldValue τ) (name : String) : StateM σ (FieldResult τ) := do
  match source with
  | .value v => return .ok (.value ((v.get? name).getD .null))
  | .object o =>
      match ← host.field o name with
      | some (.callable f) => host.compute f
      | some v => return .ok v
      | none => return .ok .null
  | _ => return .ok .null

end Host
end GraphQL.Execution
