import GraphQL.Execution.Collection
import GraphQL.Execution.Completion
import GraphQL.Execution.Inputs
import GraphQL.Execution.Introspection
import GraphQL.Schema.Fields

/-! Execution: resolving fields and completing their values. All fields that can be resolved
are resolved at once and in order; then the host is asked in rounds for the values that it
did not have. A null that must not be is an error, which goes up to the nearest position that
may be null and is recorded there. -/
namespace GraphQL.Execution
open Ast (SelectionSet)

/-- What changes during an execution. -/
structure Trace (σ : Type) where
  host : σ
  errors : List ResponseError

/-- When an execution is given up. -/
structure Limits where
  /-- How deep values may nest. -/
  depth : Nat
  /-- How often the host may be asked for what a completion waits for. -/
  rounds : Nat

/-- An execution that may be given up at its limits. -/
abbrev Exec (σ : Type) := StateT (Trace σ) Option

structure Executor (τ σ : Type) where
  plan : Plan τ
  host : Host τ σ
  /-- The first one is the outermost. -/
  middleware : List (Middleware τ σ) := []

variable {τ σ : Type}

/-- Lets the host act. -/
def ask {α : Type} (action : StateM σ α) : Exec σ α := fun trace =>
  let (answer, host) := action.run trace.host
  some (answer, { trace with host })

def record (error : ResponseError) : Exec σ Unit :=
  modify fun trace => { trace with errors := trace.errors ++ [error] }

/-- Turns an error into a null and records it. -/
def absorb : Outcome → Exec σ Outcome
  | .ok value => return .ok value
  | .error error => do
      record error
      return .ok .null

namespace Completion

/-- Lets an error become null at a position that may be null. -/
def guard : Completion τ → Exec σ (Completion τ)
  | settled outcome => return settled (← absorb outcome)
  | inner => return guarded inner

def guardAt (type : TypeRef) (completion : Completion τ) : Exec σ (Completion τ) :=
  if type.isNonNull then return completion else guard completion

def failed (site : Site) (path : Path) (message : String) : Completion τ :=
  settled (.error (site.error path message))

end Completion

namespace Executor

variable (executor : Executor τ σ)

/-- The resolver of a field; without one the field is read off its source. -/
def resolver (field : Field) : Resolve τ σ :=
  match field.resolver with
  | some (.host handle) => executor.host.resolve handle
  | some .introspection => fun source arguments info =>
      return Introspection.resolve source arguments info
  | none => fun source _ info => executor.host.readField source info.site.field.name

/-- Calls the resolver of a field inside all middleware. -/
def resolve (site : Site) (path : Path) (source : FieldValue τ) (arguments : Entries Value) :
    StateM σ (FieldResult τ) :=
  let wrapped := executor.middleware.foldr (fun wrap resolve => wrap resolve)
    (executor.resolver site.field)
  wrapped source arguments ⟨executor.plan, site, path⟩

/-- Computes the value of a field from its arguments as written. -/
def call (site : Site) (path : Path) (source : FieldValue τ) : Exec σ (FieldResult τ) := do
  let given := (site.nodes.head?.map Ast.Field.arguments).getD []
  let plan := executor.plan
  match argumentValues plan.schema plan.bindings given site.field.arguments.items with
  | .ok arguments => ask (executor.resolve site path source arguments)
  | .error fault => return .error fault.message

/-- How a value is completed at a position. -/
abbrev Complete (τ σ : Type) := Site → TypeRef → Path → FieldValue τ → Exec σ (Completion τ)

/-- Resolves and completes one field. -/
def field (complete : Complete τ σ) (site : Site) (path : Path) (source : FieldValue τ) :
    Exec σ (Completion τ) := do
  let completion ←
    match ← executor.call site path source with
    | .ok value => complete site site.field.type path value
    | .error message => pure (.failed site path message)
  completion.guardAt site.field.type

/-- The place of fields that are answered together; none if the type does not have the field,
which is then left out of the response. -/
def site? (parent : ObjectType) (nodes : List Ast.Field) : Option Site := do
  let node ← nodes.head?
  let field ← executor.plan.schema.objectField? parent node.name.text
  return { parent, field, nodes }

/-- Resolves and completes fields in order. -/
def fields (complete : Complete τ σ) (parent : ObjectType) (path : Path) (source : FieldValue τ) :
    Groups Ast.Field → Exec σ (List (String × Completion τ))
  | [] => return []
  | (key, nodes) :: rest => do
      match executor.site? parent nodes with
      | none => fields complete parent path source rest
      | some site =>
          let first ← executor.field complete site (path ++ [.key key]) source
          let others ← fields complete parent path source rest
          return (key, first) :: others

/-- Completes an object from the fields selected on it. -/
def object (complete : Complete τ σ) (parent : ObjectType) (path : Path) (source : FieldValue τ)
    (groups : Groups Ast.Field) : Exec σ (Completion τ) := do
  let parts ← executor.fields complete parent path source groups
  return .join (.object (parts.map Prod.fst)) (parts.map Prod.snd)

/-- Completes the items of a list. -/
def items (complete : FieldValue τ → Path → Exec σ (Completion τ)) (item : TypeRef) (path : Path) :
    Nat → List (FieldValue τ) → Exec σ (List (Completion τ))
  | _, [] => return []
  | index, value :: rest => do
      let completion ← complete value (path ++ [.index index])
      let first ← completion.guardAt item
      let others ← items complete item path (index + 1) rest
      return first :: others

/-- The items of a value that can stand for a list. -/
def items? : FieldValue τ → Option (List (FieldValue τ))
  | .list items => some items
  | .value (.list items) => some (items.map .value)
  | _ => none

/-- The value of a scalar or an enum. -/
def leaf (site : Site) (path : Path) (type : TypeDef) (value : FieldValue τ) : Outcome :=
  let unexpected :=
    Except.error (site.error path
      ("Expected a value of type \"" ++ type.name ++ "\" but received: "
        ++ executor.host.describe value))
  match value, type with
  | .value plain, .scalar scalar =>
      match scalar.serialize plain with
      | .ok result => .ok result
      | .error message => .error (site.error path message)
  | .value plain, .enum enum => (enum.serialize plain).elim unexpected .ok
  | _, _ => unexpected

/-- The first object type that accepts a value. -/
def accepting (value : FieldValue τ) (info : Info τ) : List ObjectType → Exec σ (Option String)
  | [] => return none
  | object :: rest => do
      match object.isTypeOf with
      | some handle =>
          if ← ask (executor.host.isTypeOf handle value info) then return some object.name
          else accepting value info rest
      | none => accepting value info rest

/-- The name of the object type of a value at an abstract type: what the type resolves it to,
else the possible type that accepts it, else what the value says of itself. -/
def runtimeName (type : TypeDef) (value : FieldValue τ) (info : Info τ) :
    Exec σ (Option String) := do
  match type.resolveType? with
  | some handle => ask (executor.host.resolveType handle value info)
  | none =>
      match ← executor.accepting value info (executor.plan.schema.possibleTypes type.name) with
      | some name => return some name
      | none => return executor.host.reportedType value

/-- The object type of a value at an abstract type. -/
def runtimeType (site : Site) (path : Path) (type : TypeDef) (value : FieldValue τ) :
    Exec σ (Except ResponseError ObjectType) := do
  let schema := executor.plan.schema
  let name ← executor.runtimeName type value ⟨executor.plan, site, path⟩
  match name.bind schema.object? with
  | none =>
      return .error (site.error path
        ("Abstract type " ++ type.name ++ " must resolve to an Object type at runtime for field "
          ++ site.coordinate ++ " with value " ++ executor.host.describe value ++ ", received \""
          ++ name.getD "None" ++ "\"."))
  | some object =>
      if schema.isPossibleType type.name object.name then return .ok object
      else
        return .error (site.error path
          ("Runtime Object type \"" ++ object.name ++ "\" is not a possible type for \""
            ++ type.name ++ "\"."))

/-- Completes a value as an object of a type. -/
def asObject (complete : Complete τ σ) (site : Site) (path : Path) (type : ObjectType)
    (value : FieldValue τ) : Exec σ (Completion τ) := do
  let accepted ←
    match type.isTypeOf with
    | some handle => ask (executor.host.isTypeOf handle value ⟨executor.plan, site, path⟩)
    | none => pure true
  if accepted then
    let groups := executor.plan.collect type (site.nodes.filterMap Ast.Field.selectionSet)
    executor.object complete type path value groups
  else
    return .failed site path
      ("Expected value of type \"" ++ type.name ++ "\" but got: " ++ executor.host.describe value
        ++ ".")

/-- Completes a value at a type without wrappers. -/
def asNamed (complete : Complete τ σ) (site : Site) (path : Path) (name : String)
    (value : FieldValue τ) : Exec σ (Completion τ) := do
  match executor.plan.schema.type? name with
  | some (.object type) => executor.asObject complete site path type value
  | some type =>
      if type.isLeaf then return .settled (executor.leaf site path type value)
      else if type.isAbstract then
        match ← executor.runtimeType site path type value with
        | .ok object => executor.asObject complete site path object value
        | .error error => return .settled (.error error)
      else return .failed site path ("Cannot complete a value of type \"" ++ name ++ "\".")
  | none => return .failed site path ("Cannot complete a value of type \"" ++ name ++ "\".")

/-- Completes a value at a type. A value that is still to come is awaited first. -/
def complete : Nat → Complete τ σ
  | 0 => fun _ _ _ _ => failure
  | depth + 1 => fun site type path value =>
      match value, type with
      | .deferred later, _ => return .awaiting later site type path
      | value, .nonNull inner => do
          let completion ← complete depth site inner path value
          return completion.require site path
      | value, .list item =>
          if value.isNull then return .settled (.ok .null)
          else
            match items? value with
            | some values => do
                let parts ← items (fun value path => complete depth site item path value) item
                  path 0 values
                return .join .list parts
            | none =>
                return .failed site path
                  ("User Error: expected iterable, but did not find one for field "
                    ++ site.coordinate ++ ".")
      | value, .named name =>
          if value.isNull then return .settled (.ok .null)
          else executor.asNamed (complete depth) site path name value

/-- Asks the parts whose turn it is, until so many have to wait as `patience` says. A part that
has to wait goes to the end; after one that is settled two more may wait, if as many are left. -/
def takeTurns (ask : Completion τ → Exec σ (Completion τ)) (patience : Nat)
    (parts : List (Completion τ)) (next : List Nat) : Exec σ (List (Completion τ) × List Nat) :=
  match patience, next with
  | patience + 1, position :: rest =>
      match parts[position]? with
      | none => takeTurns ask patience parts rest
      | some part => do
          let part ← ask part
          let parts := parts.set position part
          if part.isSettled then takeTurns ask (min 2 rest.length) parts rest
          else takeTurns ask patience parts (rest ++ [position])
  | _, next => return (parts, next)
termination_by (next.length, patience)

/-- Asks the parts of a completion in a round. -/
def askParts (ask : Completion τ → Exec σ (Completion τ)) (shape : Shape)
    (parts : List (Completion τ)) : Turns → Exec σ (Completion τ)
  | .all => return .gather shape (← parts.mapM ask) .all
  | .inTurn next => do
      let (parts, next) ← takeTurns ask (min 2 next.length) parts next
      return .gather shape parts (.inTurn next)

/-- Asks a completion in a round for what it waits for. A value that the host has now is
completed at once, and asked further in the same round. -/
def poll : Nat → Completion τ → Exec σ (Completion τ)
  | 0, _ => failure
  | depth + 1, completion =>
      match completion with
      | .settled outcome => return .settled outcome
      | .awaiting ⟨polls + 1, source⟩ site type path => return .awaiting ⟨polls, source⟩ site type path
      | .awaiting ⟨0, source⟩ site type path => do
          match ← ask (executor.host.compute source) with
          | .ok value => poll depth (← executor.complete depth site type path value)
          | .error message => return .failed site path message
      | .required site path inner => return (← poll depth inner).require site path
      | .guarded inner => do (← poll depth inner).guard
      | .joined shape parts turns => askParts (poll depth) shape parts turns

/-- Asks in rounds until a completion is settled. -/
def settle (limits : Limits) (completion : Completion τ) : Exec σ Outcome :=
  rounds limits.rounds completion
where
  rounds : Nat → Completion τ → Exec σ Outcome
    | 0, _ => failure
    | left + 1, completion =>
        match completion with
        | .settled outcome => return outcome
        | completion => do rounds left (← executor.poll limits.depth completion)

/-- Resolves and settles fields one after the other. The first error ends it. -/
def inTurn (limits : Limits) (parent : ObjectType) (source : FieldValue τ) :
    Groups Ast.Field → Exec σ (Except ResponseError (Entries Value))
  | [] => return .ok []
  | (key, nodes) :: rest => do
      match executor.site? parent nodes with
      | none => inTurn limits parent source rest
      | some site =>
          let completion ← executor.field (executor.complete limits.depth) site [.key key] source
          match ← executor.settle limits completion with
          | .error error => return .error error
          | .ok value =>
              match ← inTurn limits parent source rest with
              | .error error => return .error error
              | .ok entries => return .ok ((key, value) :: entries)

/-- Executes the operation from an object of its root type. The fields of a mutation are
settled one after the other. -/
def operation (limits : Limits) (root : ObjectType) : Exec σ Outcome := do
  let plan := executor.plan
  let groups := plan.collect root [plan.operation.selectionSet]
  match plan.operation.operation with
  | .mutation => return (← executor.inTurn limits root plan.root groups).map Value.object
  | _ =>
      let completion ← executor.object (executor.complete limits.depth) root [] plan.root groups
      executor.settle limits completion

end Executor
end GraphQL.Execution
