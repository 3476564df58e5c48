import Mathlib
import GraphQL.Execution.Subscription
import GraphQL.Proofs.Execution.Operations

/-! Responses to requests that are executed, and to the events of subscriptions: their data
conforms to the schema, and each of their errors explains a null in it, and no null twice. -/
namespace GraphQL

/-- Every error has a path of its own, none of which leads to another one, and each of them meets
a null in the data. -/
def Response.ExplainsErrors (response : Response) : Prop :=
  ∀ data, response.data = some data →
    (∀ error ∈ response.errors, ∃ path, error.path = some path) ∧
      response.errors.Pairwise ResponseError.Apart ∧
      ∀ error ∈ response.errors, ∀ path, error.path = some path → data.MeetsNull path

namespace Execution

variable {τ σ : Type}

section Requests
variable {limits : Limits} {schema : Schema} {host : Host τ σ} {request : Request τ σ}
  {state after : σ} {response : Response} {executor : Executor τ σ} {root : ObjectType}

/-- A host about whose state nothing is known. -/
theorem keeps_anything (executor : Executor τ σ) (root : ObjectType) :
    Keeps executor root fun _ => True :=
  ⟨fun _ _ _ _ _ _ _ => trivial, fun _ _ _ _ _ _ _ => trivial, fun _ _ _ _ _ _ _ => trivial,
    fun _ _ _ => trivial⟩

/-- What is answered once a request has been prepared. -/
theorem execute_prepared (prepared : prepare schema host request = .ok (executor, root))
    (ran : execute limits schema host request state = some (response, after)) :
    ∃ outcome trace, (executor.operation limits root).run ⟨state, []⟩ = some (outcome, trace) ∧
      response = respond trace outcome ∧ after = trace.host := by
  rw [execute, prepared, Option.map_eq_some_iff] at ran
  obtain ⟨⟨outcome, trace⟩, run, same⟩ := ran
  cases same
  exact ⟨outcome, trace, run, rfl, rfl⟩

/-- A response with data answers a request that has been prepared. -/
theorem prepared_of_data (ran : execute limits schema host request state = some (response, after))
    {data : Value} (started : response.data = some data) :
    ∃ executor root, prepare schema host request = .ok (executor, root) := by
  cases prepared : prepare schema host request with
  | ok found => exact ⟨found.1, found.2, rfl⟩
  | error errors =>
    rw [execute, prepared] at ran
    cases ran
    cases started

/-- The data of a response is what its outcome has promised, or null, and explains the errors. -/
theorem respond_holds {plan : Plan τ} {goal : Value → Prop} {outcome : Outcome} {trace : Trace σ}
    (shielded : Shielded plan root goal [] (.settled outcome) trace.errors) :
    ∃ data, (respond trace outcome).data = some data ∧ (data = .null ∨ goal data) ∧
      Explained [] data (respond trace outcome).errors := by
  cases outcome with
  | ok data =>
    obtain ⟨answers, explained⟩ := shielded.value
    exact ⟨data, rfl, .inr answers, explained⟩
  | error error =>
    have fails := shielded.error.explained.perm (List.perm_append_singleton error trace.errors)
    exact ⟨.null, rfl, .inl rfl, fails⟩

theorem explainsErrors_of_explained {data : Value} (same : response.data = some data)
    (explained : Explained [] data response.errors) : response.ExplainsErrors := by
  intro found here
  rw [same] at here
  cases here
  exact ⟨fun error member => explained.below error member, explained.apart,
    fun error member path here => explained.meets error member path here⟩

/-- The data of a response answers its operation or is null, and explains its errors. -/
theorem response_holds (prepared : prepare schema host request = .ok (executor, root))
    (ran : execute limits schema host request state = some (response, after)) :
    ∃ data, response.data = some data ∧ (data = .null ∨ RootGoal executor.plan root data) ∧
      Explained [] data response.errors := by
  obtain ⟨outcome, trace, run, rfl, -⟩ := execute_prepared prepared ran
  obtain ⟨-, errors, added, shielded⟩ :=
    operation_ensures (keeps_anything executor root) limits _ outcome trace trivial run
  obtain rfl : errors = trace.errors := by rw [added, List.nil_append]
  exact respond_holds shielded

end Requests

section Events
variable {executor : Executor τ σ} {root : ObjectType} {I : σ → Prop} {key : String} {site : Site}

/-- The data of an event holds the value of the subscribed field. -/
def EventGoal (plan : Plan τ) (key : String) (site : Site) (data : Value) : Prop :=
  ∃ value, data = .object [(key, value)] ∧ Conforms plan (setsOf site.nodes) site.field.type value

/-- An only field is the whole of the data. -/
theorem event_shielded {outcome : Outcome} {errors : List ResponseError}
    (shielded : Shielded executor.plan root (Conforms executor.plan (setsOf site.nodes) site.field.type)
      [.key key] (.settled outcome) errors) :
    Shielded executor.plan root (EventGoal executor.plan key site) []
      (.settled (outcome.map fun value => .object [(key, value)])) errors := by
  have single : ([()].map fun _ => PathSegment.key key).Nodup := List.nodup_singleton _
  cases outcome with
  | error error =>
    have recorded : Recorded [] ([()].flatMap fun _ => error :: errors) :=
      .parts (fun _ => .key key) single fun _ _ => shielded.error
    rw [List.flatMap_singleton] at recorded
    exact .bare (.settled recorded)
  | ok value =>
    obtain ⟨conforms, explained⟩ := shielded.value
    have whole : (Value.object [(key, value)]).at? [.key key] = some value := by
      simp [Value.at?, Value.get?, Value.object?, Entries.get?]
    have explains : Explained [] (.object [(key, value)]) ([()].flatMap fun _ => errors) :=
      .parts (fun _ => .key key) (fun _ => value) single (fun _ _ => explained) fun _ _ => whole
    rw [List.flatMap_singleton] at explains
    exact .absorbed ⟨value, rfl, conforms⟩ explains

theorem event_ensures (keeps : Keeps executor root I) (limits : Limits)
    (resolves : executor.plan.Resolves root site) (source : τ) :
    Ensures I (executor.event limits key site source) fun outcome errors =>
      Shielded executor.plan root (EventGoal executor.plan key site) [] (.settled outcome) errors := by
  have answered {action : Exec σ (Completion τ)}
      (shields : Ensures I action (Shielded executor.plan root
        (Conforms executor.plan (setsOf site.nodes) site.field.type) [.key key])) :
      Ensures I (action >>= fun completion => executor.settle limits completion >>= fun outcome =>
        pure (outcome.map fun value => .object [(key, value)])) fun outcome errors =>
        Shielded executor.plan root (EventGoal executor.plan key site) [] (.settled outcome) errors := by
    refine shields.bind fun completion errors shielded => ?_
    refine (settle_ensures keeps limits shielded).bind fun outcome more settled => .pure ?_
    rw [List.append_nil]
    exact event_shielded settled
  rw [Executor.event]
  refine (ask_ensures (keeps.compute source)).silent fun result _ => ?_
  cases result with
  | ok value =>
    have shields := completed_ensures (complete_ensures keeps limits.depth) resolves [.key key] value
    simpa only [bind_assoc] using answered shields
  | error message =>
    exact answered (guardAt_ensures (failed_sound site message) .null)

/-- Each event is answered by the value of the subscribed field, or by null. -/
theorem responses_hold (limits : Limits) (resolves : executor.plan.Resolves root site)
    {events : List (Later τ)} {state after : σ} {responses : List Response}
    (ran : executor.responses limits key site events state = some (responses, after)) :
    ∀ response ∈ responses, ∃ data, response.data = some data ∧
      (data = .null ∨ EventGoal executor.plan key site data) ∧
      Explained [] data response.errors := by
  induction events generalizing state responses with
  | nil =>
    cases ran
    exact fun _ member => absurd member List.not_mem_nil
  | cons event rest ih =>
    rw [Executor.responses] at ran
    obtain ⟨⟨outcome, trace⟩, first, ran⟩ := Option.bind_eq_some_iff.1 ran
    obtain ⟨⟨others, last⟩, later, same⟩ := Option.bind_eq_some_iff.1 ran
    cases same
    obtain ⟨-, errors, added, shielded⟩ := event_ensures (keeps_anything executor root) limits
      resolves event.source _ outcome trace trivial first
    obtain rfl : errors = trace.errors := by rw [added, List.nil_append]
    intro response member
    rcases List.mem_cons.1 member with rfl | member
    · exact respond_holds shielded
    · exact ih later response member

/-- A subscribed field is one that the operation selects. -/
theorem subscribed_mem (subscribed : executor.subscribed root = .ok (key, site)) :
    (key, site) ∈ executor.sites root
      (executor.plan.collect root [executor.plan.operation.selectionSet]) := by
  rw [Executor.subscribed] at subscribed
  split at subscribed
  · rename_i first node nodes rest collected
    split at subscribed
    · rename_i found here
      cases subscribed
      refine List.mem_filterMap.2 ⟨(key, node :: nodes), ?_, by rw [here]; rfl⟩
      rw [collected]
      exact List.mem_cons_self
    · cases subscribed
  · cases subscribed

theorem subscribed_resolves (subscribed : executor.subscribed root = .ok (key, site)) :
    executor.plan.Resolves root site := resolves_of_mem .root (subscribed_mem subscribed)

end Events

section Subscriptions
variable {limits : Limits} {schema : Schema} {host : Host τ σ} {request : Request τ σ}
  {state after : σ} {responses : List Response}

/-- The responses of a subscription are those to the events of a field that it has resolved. -/
theorem subscribe_events (ran : subscribe limits schema host request state = some (.events responses, after)) :
    ∃ executor root key site events before, prepare schema host request = .ok (executor, root) ∧
      executor.plan.Resolves root site ∧
      executor.responses limits key site events before = some (responses, after) := by
  rw [subscribe] at ran
  split at ran
  · cases ran
  · rename_i executor root prepared
    split at ran
    · cases ran
    · rename_i key site subscribed
      obtain ⟨⟨events, trace⟩, _, ran⟩ := Option.bind_eq_some_iff.1 ran
      cases events with
      | error _ => cases ran
      | ok events =>
        obtain ⟨⟨found, last⟩, answered, same⟩ := Option.bind_eq_some_iff.1 ran
        cases same
        exact ⟨executor, root, key, site, events, trace.host, prepared,
          subscribed_resolves subscribed, answered⟩

end Subscriptions

section Lacking

/-- An object type with a field of the same type and a leaf that must not be null. -/
def lackingType : ObjectType :=
  { name := "T"
    fields := ⟨[{ name := "a", type := .named "T" },
      { name := "n", type := .nonNull (.named "N") }], []⟩ }

def lackingSchema : Schema :=
  { query := lackingType, mutation := none, subscription := none
    types := [.object lackingType, .scalar { name := "N" }], directives := [] }

def lackingLeaf : Ast.Field := ⟨none, ⟨"n", none⟩, [], [], none, none⟩

def lackingField (nickname : Option Ast.Name) : Ast.Field :=
  ⟨nickname, ⟨"a", none⟩, [], [], some ⟨[.field lackingLeaf], none⟩, none⟩

def lackingOperation : Ast.OperationDefinition :=
  ⟨.query, none, [], [],
    ⟨[.field (lackingField none), .field (lackingField (some ⟨"b", none⟩))], none⟩, none⟩

/-- A host without objects and functions of its own. -/
def plainHost : Host Empty Unit where
  typeName := Empty.elim
  field := Empty.elim
  compute := Empty.elim
  resolve _ _ _ _ := return .ok .null
  isTypeOf _ _ _ := return true
  resolveType _ _ _ := return none

/-- A request for two leaves of an object that has none. -/
def lackingRequest : Request Empty Unit :=
  { document := ⟨[.operation lackingOperation], none⟩, root := .value (.object [("a", .object [])]) }

def lackingExecutor : Executor Empty Unit :=
  ⟨⟨lackingSchema, [], lackingRequest.root, lackingOperation, []⟩, plainHost, []⟩

end Lacking

/-- In the responses of an execution, and of a subscription to each of its events, every error
has a path of its own, none of which leads to another one, and each meets a null in the data. -/
theorem responses_explain (limits : Limits) (schema : Schema) (host : Host τ σ)
    (request : Request τ σ) (state : σ) :
    (∀ response after, execute limits schema host request state = some (response, after) →
      response.ExplainsErrors) ∧
    ∀ responses after, subscribe limits schema host request state = some (.events responses, after) →
      ∀ response ∈ responses, response.ExplainsErrors := by
  constructor
  · intro response after ran data started
    obtain ⟨executor, root, prepared⟩ := prepared_of_data ran started
    obtain ⟨found, same, -, explained⟩ := response_holds prepared ran
    exact explainsErrors_of_explained same explained data started
  · intro responses after ran response member
    obtain ⟨executor, root, key, site, events, before, -, resolves, ran⟩ := subscribe_events ran
    obtain ⟨data, same, -, explained⟩ := responses_hold limits resolves ran response member
    exact explainsErrors_of_explained same explained

/-- Two leaves must not be null: each of them makes the object that it stands in null. -/
theorem responses_explain_lacking : ∃ response,
    execute ⟨4, 4⟩ lackingSchema plainHost lackingRequest () = some (response, ()) ∧
      response.data = some (.object [("a", .null), ("b", .null)]) ∧
      response.errors.map ResponseError.path =
        [some [.key "a", .key "n"], some [.key "b", .key "n"]] ∧ response.ExplainsErrors := by
  have ran : (execute ⟨4, 4⟩ lackingSchema plainHost lackingRequest ()).map
      (fun answer => (answer.1.data, answer.1.errors.map ResponseError.path)) =
      some (some (.object [("a", .null), ("b", .null)]),
        [some [.key "a", .key "n"], some [.key "b", .key "n"]]) := by cbv
  obtain ⟨⟨response, after⟩, executed, same⟩ := Option.map_eq_some_iff.1 ran
  obtain ⟨data, paths⟩ := Prod.mk.inj same
  exact ⟨response, executed, data, paths,
    (responses_explain ⟨4, 4⟩ lackingSchema plainHost lackingRequest ()).1 response after executed⟩

/-- The data of a response is null or answers what the operation selects from its root type, and
whatever is completed at a resolved field conforms to the type that it is completed at. -/
theorem execute_conforms {limits : Limits} {schema : Schema} {host : Host τ σ}
    {request : Request τ σ} {state after : σ} {response : Response} {executor : Executor τ σ}
    {root : ObjectType} (prepared : prepare schema host request = .ok (executor, root))
    (ran : execute limits schema host request state = some (response, after)) :
    (∃ data, response.data = some data ∧ (data = .null ∨ ∃ entries, data = .object entries ∧
      Answers executor.plan root [executor.plan.operation.selectionSet] entries)) ∧
    ∀ site type path value trace next result, executor.plan.Places root site type →
      (executor.complete limits.depth site type path value >>= executor.settle limits).run trace =
        some (.ok result, next) → Conforms executor.plan (setsOf site.nodes) type result := by
  constructor
  · obtain ⟨data, same, answers, -⟩ := response_holds prepared ran
    exact ⟨data, same, answers⟩
  · intro site type path value trace next result places run
    have keeps := keeps_anything executor root
    have settled := (complete_ensures keeps limits.depth site type path value places).bind
      fun completion errors sound => settle_ensures keeps limits (.bare sound)
    obtain ⟨-, errors, -, shielded⟩ := settled trace (.ok result) next trivial run
    exact shielded.value.1

/-- The data of this request answers it, and an object whose leaf is there conforms to its type. -/
theorem execute_conforms_lacking :
    (∃ response, execute ⟨4, 4⟩ lackingSchema plainHost lackingRequest () = some (response, ()) ∧
      ∃ data, response.data = some data ∧ (data = .null ∨ ∃ entries, data = .object entries ∧
        Answers lackingExecutor.plan lackingType [lackingOperation.selectionSet] entries)) ∧
    Conforms lackingExecutor.plan [⟨[.field lackingLeaf], none⟩] (.named "T")
      (.object [("n", .int 1)]) := by
  have prepared : prepare lackingSchema plainHost lackingRequest =
      .ok (lackingExecutor, lackingType) := by rfl
  have executed : (execute ⟨4, 4⟩ lackingSchema plainHost lackingRequest ()).isSome = true := by cbv
  obtain ⟨⟨response, after⟩, ran⟩ := Option.isSome_iff_exists.1 executed
  obtain ⟨answers, conforms⟩ := execute_conforms prepared ran
  refine ⟨⟨response, ran, answers⟩, ?_⟩
  have resolves : lackingExecutor.plan.Resolves lackingType
      ⟨lackingType, { name := "a", type := .named "T" }, [lackingField none]⟩ := by
    refine ⟨_, "a", .root, ?_, by rfl⟩
    have collected : lackingExecutor.plan.collect lackingType [lackingOperation.selectionSet] =
      [("a", [lackingField none]), ("b", [lackingField (some ⟨"b", none⟩)])] := by cbv
    exact collected ▸ List.mem_cons_self
  exact conforms _ (.named "T") [.key "a"] (.value (.object [("n", .int 1)])) ⟨(), []⟩ ⟨(), []⟩ _
    ⟨resolves, rfl⟩ (by cbv)

end Execution
end GraphQL
