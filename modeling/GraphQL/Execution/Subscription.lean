import GraphQL.Execution.Request

/-! Subscriptions: the root field of a subscription is resolved to a stream, and each of its
events is answered by a response of its own. -/
namespace GraphQL.Execution

variable {τ σ : Type}

/-- What a subscription request is answered with. -/
inductive Subscription where
  | events (responses : List Response)
  | failed (response : Response)

/-- Why there is no stream of events. -/
inductive StreamFault where
  | noField (operation : Ast.OperationDefinition)
  | unknownField (node : Ast.Field)
  /-- The field has failed. -/
  | failed (error : ResponseError)

namespace StreamFault

def error : StreamFault → ResponseError
  | noField operation =>
      { message := "A subscription must select one top level field."
        locations := operation.span.toList.map Span.location }
  | unknownField node =>
      { message := "The subscription field \"" ++ node.name.text ++ "\" is not defined."
        locations := node.span.toList.map Span.location }
  | failed error => error

end StreamFault

namespace Executor

variable (executor : Executor τ σ)

/-- The field that a subscription selects: the first one, if there are several. -/
def subscribed (root : ObjectType) : Except StreamFault (String × Site) :=
  let plan := executor.plan
  match plan.collect root [plan.operation.selectionSet] with
  | (key, node :: nodes) :: _ =>
      match executor.site? root (node :: nodes) with
      | some site => .ok (key, site)
      | none => .error (.unknownField node)
  | _ => .error (.noField plan.operation)

/-- A value that is still to come is awaited once. -/
def awaitOnce (site : Site) (path : Path) : FieldResult τ → Exec σ (Except ResponseError (FieldValue τ))
  | .ok (.deferred later) => do
      return (← ask (executor.host.compute later.source)).mapError (site.error path)
  | result => return result.mapError (site.error path)

/-- The events of the subscribed field. -/
def eventsOf (site : Site) (path : Path) : Exec σ (Except ResponseError (List (Later τ))) := do
  let result ← executor.call site path executor.plan.root
  match ← executor.awaitOnce site path result with
  | .ok (.stream events) => return .ok events
  | .ok value =>
      return .error (site.error path
        ("Subscription field must return a stream. Received: " ++ executor.host.describe value
          ++ "."))
  | .error error => return .error error

/-- The outcome of one event. -/
def event (limits : Limits) (key : String) (site : Site) (source : τ) : Exec σ Outcome := do
  let path : Path := [.key key]
  let completion ←
    match ← ask (executor.host.compute source) with
    | .ok value => executor.complete limits.depth site site.field.type path value
    | .error message => pure (.failed site path message)
  let outcome ← executor.settle limits (← completion.guardAt site.field.type)
  return outcome.map fun value => .object [(key, value)]

/-- Answers events one after the other. Errors of one event are not seen by the next. -/
def responses (limits : Limits) (key : String) (site : Site) :
    List (Later τ) → σ → Option (List Response × σ)
  | [], state => some ([], state)
  | event :: rest, state => do
      let (outcome, trace) ← (executor.event limits key site event.source).run ⟨state, []⟩
      let (others, state) ← responses limits key site rest trace.host
      return (respond trace outcome :: others, state)

end Executor

/-- A response to a request whose field could not be subscribed to. -/
def unsubscribed (error : ResponseError) : Subscription :=
  .failed { data := none, errors := [error] }

/-- Subscribes to the field of a request and answers all its events. -/
def subscribe (limits : Limits) (schema : Schema) (host : Host τ σ) (request : Request τ σ)
    (state : σ) : Option (Subscription × σ) :=
  match prepare schema host request with
  | .error errors => some (.failed (.refusal errors), state)
  | .ok (executor, root) =>
      match executor.subscribed root with
      | .error fault => some (unsubscribed fault.error, state)
      | .ok (key, site) => do
          let (events, trace) ← (executor.eventsOf site [.key key]).run ⟨state, []⟩
          match events with
          | .error error => return (unsubscribed error, trace.host)
          | .ok events =>
              let (responses, state) ← executor.responses limits key site events trace.host
              return (.events responses, state)

end GraphQL.Execution
