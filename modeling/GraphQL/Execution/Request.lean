import GraphQL.Execution.Executor
import GraphQL.Response

/-! Requests: which operation of a document is executed, with which inputs, and what the
response is. -/
namespace GraphQL.Execution
open Ast (Document OperationDefinition)

variable {τ σ : Type}

structure Request (τ σ : Type) where
  document : Document
  operationName : Option String := none
  /-- What is given for the variables. -/
  inputs : Entries Value := []
  root : FieldValue τ := .null
  middleware : List (Middleware τ σ) := []

/-- Why no operation is executed. -/
inductive SelectionFault where
  | noOperation
  | nameNeeded
  | unknownName (name : String)
  /-- The schema has no root type for the operation. -/
  | notConfigured (operation : OperationDefinition)

namespace SelectionFault

def message : SelectionFault → String
  | noOperation => "Must provide an operation."
  | nameNeeded => "Must provide operation name if query contains multiple operations."
  | unknownName name => "Unknown operation named \"" ++ name ++ "\"."
  | notConfigured operation =>
      "Schema is not configured for " ++ operation.operation.text ++ "s."

def error (fault : SelectionFault) : ResponseError :=
  { message := fault.message
    locations :=
      match fault with
      | notConfigured operation => operation.span.toList.map Span.location
      | _ => [] }

end SelectionFault

/-- The operation to execute. A single one is executed whatever name is given. -/
def selectOperation (document : Document) (name : Option String) :
    Except SelectionFault OperationDefinition :=
  match document.operations, name with
  | [], _ => .error .noOperation
  | [operation], _ => .ok operation
  | _, none => .error .nameNeeded
  | operations, some name =>
      match operations.find? fun operation => (operation.name.map Ast.Name.text) == some name with
      | some operation => .ok operation
      | none => .error (.unknownName name)

def rootType (schema : Schema) (operation : OperationDefinition) :
    Except SelectionFault ObjectType :=
  match schema.rootType? operation.operation with
  | some root => .ok root
  | none => .error (.notConfigured operation)

/-- What has to be known before anything is resolved, or the errors for which the request is
refused. -/
def prepare (schema : Schema) (host : Host τ σ) (request : Request τ σ) :
    Except (List ResponseError) (Executor τ σ × ObjectType) := do
  let single (fault : SelectionFault) := [fault.error]
  let operation ← (selectOperation request.document request.operationName).mapError single
  let bindings ← variableValues schema request.inputs operation.variableDefinitions
  let root ← (rootType schema operation).mapError single
  let plan : Plan τ :=
    { schema, fragments := request.document.fragments, root := request.root, operation, bindings }
  return ({ plan, host, middleware := request.middleware }, root)

/-- The response with the data of an outcome. -/
def respond (trace : Trace σ) : Outcome → Response
  | .ok data => { data := some data, errors := trace.errors }
  | .error error => { data := some .null, errors := trace.errors ++ [error] }

/-- Executes a request from a state of the host. Answers with the response and the state that
the host is left in, or not at all if the execution is given up at its limits. -/
def execute (limits : Limits) (schema : Schema) (host : Host τ σ) (request : Request τ σ)
    (state : σ) : Option (Response × σ) :=
  match prepare schema host request with
  | .error errors => some (.refusal errors, state)
  | .ok (executor, root) =>
      ((executor.operation limits root).run ⟨state, []⟩).map fun (outcome, trace) =>
        (respond trace outcome, trace.host)

end GraphQL.Execution
