import GraphQL.Proofs.Execution.Deferral
import GraphQL.Proofs.Execution.Loosening

/-! Subscriptions beside executions. Each event of a stream is answered as the request is executed
where the root field gives the event directly, in the state that the host is in when the event has
come. -/
namespace GraphQL.Execution

variable {τ σ : Type}

namespace Executor

/-- The result of a field is completed, and an error guarded if it can be. -/
def finish (executor : Executor τ σ) (limits : Limits) (site : Site) (path : Path) :
    FieldResult τ → Exec σ (Completion τ)
  | .ok value => do
      let completion ← executor.complete limits.depth site site.field.type path value
      completion.guardAt site.field.type
  | .error message => (Completion.failed site path message).guardAt site.field.type

/-- The outcome of an event that has come. -/
def arrival (executor : Executor τ σ) (limits : Limits) (key : String) (site : Site)
    (result : FieldResult τ) : Exec σ Outcome := do
  let completion ← executor.finish limits site [.key key] result
  (Except.map fun value => .object [(key, value)]) <$> executor.settle limits completion

/-- An executor for which the field at a position gives a result directly. In all else it is like
the first one. -/
structure Answers (executor other : Executor τ σ) (path : Path) (result : FieldResult τ) :
    Prop where
  plan : executor.plan = other.plan
  typeName : executor.host.typeName = other.host.typeName
  compute : executor.host.compute = other.host.compute
  isTypeOf : executor.host.isTypeOf = other.host.isTypeOf
  resolveType : executor.host.resolveType = other.host.resolveType
  directly : ∀ site source arguments, other.resolve site path source arguments = pure result
  elsewhere : ∀ site position source arguments, position ≠ path →
    executor.resolve site position source arguments = other.resolve site position source arguments

/-- The events that a subscribed field gives, at once or when its value has come, and the state that
the host is in then. -/
inductive Streams (executor : Executor τ σ) (site : Site) (path : Path) (arguments : Entries Value)
    (state : σ) : List (Later τ) → σ → Prop
  | now {events : List (Later τ)} {start : σ} :
      (executor.resolve site path executor.plan.root arguments).run state =
        (.ok (.stream events), start) → Streams executor site path arguments state events start
  | later {later : Later τ} {middle : σ} {events : List (Later τ)} {start : σ} :
      (executor.resolve site path executor.plan.root arguments).run state =
        (.ok (.deferred later), middle) →
      (executor.host.compute later.source).run middle = (.ok (.stream events), start) →
      Streams executor site path arguments state events start

end Executor

/-- The root selects one field, which is defined, with arguments that it accepts. -/
structure Sole (executor : Executor τ σ) (root : ObjectType) (key : String) (site : Site)
    (arguments : Entries Value) : Prop where
  kind : executor.plan.operation.operation = .subscription
  sites : ∃ node nodes,
    executor.plan.collect root [executor.plan.operation.selectionSet] = [(key, node :: nodes)] ∧
    executor.site? root (node :: nodes) = some site
  accepted : argumentValues executor.plan.schema executor.plan.bindings
    ((site.nodes.head?.map Ast.Field.arguments).getD []) site.field.arguments.items = .ok arguments

/-- Gives a result directly at a position, and lets all other fields be resolved. -/
def answering (path : Path) (result : FieldResult τ) : Middleware τ σ :=
  fun resolve source arguments info =>
    if info.path = path then return result else resolve source arguments info

theorem answering_answers (executor : Executor τ σ) (path : Path) (result : FieldResult τ) :
    executor.Answers
      { executor with middleware := answering path result :: executor.middleware } path result where
  plan := rfl
  typeName := rfl
  compute := rfl
  isTypeOf := rfl
  resolveType := rfl
  directly _ _ _ := if_pos rfl
  elsewhere _ _ _ _ apart := (if_neg apart).symm

/-- A request is answered so, at all limits that are high enough, where the field at a position gives
a result directly, whichever host and middleware see to it that it does. -/
def AnsweredDirectly (schema : Schema) (executor : Executor τ σ) (request : Request τ σ) (path : Path)
    (result : FieldResult τ) (state : σ) (response : Response) (after : σ) : Prop :=
  ∀ host middleware, executor.Answers ⟨executor.plan, host, middleware⟩ path result →
    ∃ bound, ∀ limits : Limits, limits.Allow bound →
      execute limits schema host { request with middleware } state = some (response, after)

/-- Each event has its response, in order. The host computes the event, and is in a state then from
which the response leads to the state in which the next event is computed. -/
inductive EachAnswered (host : Host τ σ) (answers : FieldResult τ → σ → Response → σ → Prop) :
    List (Later τ) → σ → List Response → σ → Prop
  | nil {state : σ} : EachAnswered host answers [] state [] state
  | cons {event : Later τ} {events : List (Later τ)} {state given after last : σ}
      {result : FieldResult τ} {response : Response} {responses : List Response} :
      (host.compute event.source).run state = (result, given) →
      answers result given response after →
      EachAnswered host answers events after responses last →
      EachAnswered host answers (event :: events) state (response :: responses) last

theorem EachAnswered.length_eq {host : Host τ σ}
    {answers : FieldResult τ → σ → Response → σ → Prop} {events : List (Later τ)} {state last : σ}
    {responses : List Response} (each : EachAnswered host answers events state responses last) :
    responses.length = events.length := by
  induction each with
  | nil => rfl
  | cons _ _ _ ih => rw [List.length_cons, List.length_cons, ih]

section Alone
variable {executor other : Executor τ σ} {key : String} {site : Site} {result : FieldResult τ}
  {limits looser : Limits}

theorem Executor.Answers.agreesBelow (answers : executor.Answers other [.key key] result) :
    executor.AgreesBelow other where
  plan := answers.plan
  typeName := answers.typeName
  compute := answers.compute
  isTypeOf := answers.isTypeOf
  resolveType := answers.resolveType
  resolve site path segment source arguments inside :=
    answers.elsewhere site _ source arguments fun same =>
      inside (List.append_eq_singleton_iff.1 same |>.resolve_right fun found => by cases found.2).1

/-- A field is called, and its result finished. -/
theorem field_eq (executor : Executor τ σ) (limits : Limits) (site : Site) (path : Path)
    (source : FieldValue τ) : executor.field (executor.complete limits.depth) site path source =
      executor.call site path source >>= executor.finish limits site path := by
  rw [Executor.field]
  congr

theorem event_eq (executor : Executor τ σ) (limits : Limits) (key : String) (site : Site)
    (source : τ) : executor.event limits key site source =
      ask (executor.host.compute source) >>= executor.arrival limits key site := by
  rw [Executor.event]
  congr
  funext result
  simp only [Executor.arrival, Executor.finish, map_eq_pure_bind]
  cases result <;> simp only [bind_assoc, pure_bind]

theorem finish_extends (agrees : executor.AgreesBelow other) (below : limits.depth ≤ looser.depth)
    (result : FieldResult τ) : Extends Completion.Deep (executor.finish limits site [.key key] result)
      (other.finish looser site [.key key] result) := by
  cases result with
  | ok value =>
    exact (complete_extends agrees below site _ _ value (List.cons_ne_nil _ _)).bind
      fun completion => guardAt_extends _
  | error message => exact guardAt_extends _ (.settled _)

/-- An object with one field is settled when the field is. -/
theorem settle_object (executor : Executor τ σ) (key : String) (depth left : Nat)
    (completion : Completion τ) :
    settleBy (executor.poll (depth + 1)) left (.gather (.object [key]) [completion] .all) =
      (Except.map fun value => .object [(key, value)]) <$>
        settleBy (executor.poll depth) left completion := by
  induction left generalizing completion with
  | zero => rfl
  | succ left ih =>
    have asked (waits : completion.isSettled = false) :
        settleBy (executor.poll (depth + 1)) (left + 1)
            (.gather (.object [key]) [completion] .all) =
          (Except.map fun value => .object [(key, value)]) <$>
            (executor.poll depth completion >>= settleBy (executor.poll depth) left) := by
      have joined : Completion.gather (.object [key]) [completion] .all =
          .joined (.object [key]) [completion] .all := by
        cases completion <;> first | rfl | cases waits
      have polled : executor.poll (depth + 1) (.joined (.object [key]) [completion] .all) = do
          let after ← executor.poll depth completion
          return .gather (.object [key]) [after] .all := by
        show [completion].mapM (executor.poll depth) >>= _ = _
        simp only [List.mapM_cons, List.mapM_nil, bind_assoc, pure_bind]
      rw [joined]
      show executor.poll (depth + 1) _ >>= settleBy _ left = _
      rw [polled, map_bind, bind_assoc]
      simp only [pure_bind, ih]
    cases completion with
    | settled outcome => cases outcome <;> rfl
    | _ => exact asked rfl

theorem settle_single (executor : Executor τ σ) (key : String) (depth rounds : Nat)
    (completion : Completion τ) :
    executor.settle ⟨depth + 1, rounds⟩ (.join (.object [key]) [completion]) =
      (Except.map fun value => .object [(key, value)]) <$>
        executor.settle ⟨depth, rounds⟩ completion := by
  have together : Completion.firstTurns [completion] = .all := by
    cases completion <;> rfl
  rw [Completion.join, together, settle_eq, settle_eq]
  exact settle_object executor key depth rounds completion

theorem join_single_deep (key : String) {completion : Completion τ} (deep : completion.Deep) :
    (Completion.join (.object [key]) [completion]).Deep :=
  gather_awaits _ _ fun part member => by rwa [List.mem_singleton.1 member]

end Alone

section Sole
variable {executor other : Executor τ σ} {root : ObjectType} {key : String} {node : Ast.Field}
  {nodes : List Ast.Field} {site : Site} {arguments : Entries Value} {result : FieldResult τ}
  {limits looser : Limits}

theorem Sole.subscribed (sole : Sole executor root key site arguments) :
    executor.subscribed root = .ok (key, site) := by
  obtain ⟨node, nodes, collected, defined⟩ := sole.sites
  rw [Executor.subscribed]
  simp only [collected, defined]

theorem Sole.call (sole : Sole executor root key site arguments) (path : Path) :
    executor.call site path executor.plan.root =
      ask (executor.resolve site path executor.plan.root arguments) := by
  rw [Executor.call]
  simp only [sole.accepted]

theorem Sole.answers (sole : Sole executor root key site arguments)
    (answers : executor.Answers other [.key key] result) : Sole other root key site arguments := by
  obtain ⟨kind, sites, accepted⟩ := sole
  simp only [Executor.site?, answers.plan] at kind sites accepted
  exact ⟨kind, sites, accepted⟩

/-- An operation that selects one field is settled as the object of it. -/
theorem Sole.operation (sole : Sole executor root key site arguments) (limits : Limits) :
    executor.operation limits root =
      (executor.call site [.key key] executor.plan.root >>=
        executor.finish limits site [.key key]) >>=
          fun completion => executor.settle limits (.join (.object [key]) [completion]) := by
  obtain ⟨node, nodes, collected, defined⟩ := sole.sites
  have sites : executor.sites root
      (executor.plan.collect root [executor.plan.operation.selectionSet]) = [(key, site)] := by
    simp only [Executor.sites, collected, List.filterMap_cons, defined, Option.map_some,
      List.filterMap_nil]
  rw [Executor.operation]
  simp only [sole.kind]
  rw [object_eq, sites]
  simp only [List.mapM_cons, List.mapM_nil, field_eq, List.nil_append, map_eq_pure_bind, bind_assoc,
    pure_bind, List.map_cons, List.map_nil]

theorem arrival_extends (sole : Sole executor root key site arguments)
    (answers : executor.Answers other [.key key] result) (depth : limits.depth + 1 ≤ looser.depth)
    (rounds : limits.rounds ≤ looser.rounds) :
    Extends (fun _ => True) (executor.arrival limits key site result)
      (other.operation looser root) := by
  have called : other.call site [.key key] other.plan.root = pure result := by
    rw [(sole.answers answers).call, answers.directly]
    rfl
  rw [(sole.answers answers).operation, called, pure_bind, Executor.arrival]
  refine (finish_extends answers.agreesBelow (Nat.le_of_succ_le depth) result).bind
    fun completion deep => ?_
  rw [← settle_single]
  refine settle_extends answers.agreesBelow ?_ ?_ (join_single_deep key deep)
  · exact depth
  · exact rounds

theorem arrival_loosens (executor : Executor τ σ) (depth : limits.depth ≤ looser.depth)
    (rounds : limits.rounds ≤ looser.rounds) :
    Extends (fun _ => True) (executor.arrival limits key site result)
      (executor.arrival looser key site result) := by
  simp only [Executor.arrival, map_eq_pure_bind]
  refine (finish_extends (.refl executor) depth result).bind fun completion deep => ?_
  exact (settle_extends (.refl executor) depth rounds deep).bind fun outcome _ => .pure trivial

theorem operation_extends (sole : Sole executor root key site arguments)
    (answers : executor.Answers other [.key key] result) (depth : limits.depth ≤ looser.depth)
    (rounds : limits.rounds ≤ looser.rounds) :
    Extends (fun _ => True) (other.operation limits root)
      (executor.arrival looser key site result) := by
  have called : other.call site [.key key] other.plan.root = pure result := by
    rw [(sole.answers answers).call, answers.directly]
    rfl
  rw [(sole.answers answers).operation, called, pure_bind, Executor.arrival]
  refine (finish_extends answers.agreesBelow.symm depth result).bind fun completion deep => ?_
  rw [← settle_single]
  refine settle_extends answers.agreesBelow.symm ?_ ?_ (join_single_deep key deep)
  · exact Nat.le_succ_of_le depth
  · exact rounds

end Sole

section Responses
variable {schema : Schema} {host : Host τ σ} {request : Request τ σ} {executor : Executor τ σ}
  {root : ObjectType} {key : String} {site : Site} {arguments : Entries Value}
  {events : List (Later τ)} {state start last : σ} {responses : List Response}

/-- How a request is prepared depends neither on the host nor on the middleware. -/
theorem prepare_with (schema : Schema) (request : Request τ σ) (host other : Host τ σ)
    (middleware : List (Middleware τ σ)) : prepare schema other { request with middleware } =
      (fun found => (⟨found.1.plan, other, middleware⟩, found.2)) <$>
        prepare schema host request := by
  simp only [prepare, map_bind, map_pure]

theorem execute_with (prepared : prepare schema host request = .ok (executor, root))
    (other : Host τ σ) (middleware : List (Middleware τ σ)) (limits : Limits) (state : σ) :
    execute limits schema other { request with middleware } state =
      (((⟨executor.plan, other, middleware⟩ : Executor τ σ).operation limits root).run
        ⟨state, []⟩).map fun found => (respond found.2 found.1, found.2.host) := by
  rw [execute, prepare_with schema request host, prepared]
  rfl

/-- The response to an event that has come is that of an execution which gives it directly. -/
theorem arrival_iff (prepared : prepare schema host request = .ok (executor, root))
    (sole : Sole executor root key site arguments) (result : FieldResult τ) (given : σ)
    (response : Response) (after : σ) :
    AnsweredDirectly schema executor request [.key key] result given response after ↔
      ∃ bound, ∀ limits : Limits, limits.Allow bound → ∃ outcome trace,
        (executor.arrival limits key site result).run ⟨given, []⟩ = some (outcome, trace) ∧
          response = respond trace outcome ∧ after = trace.host := by
  constructor
  · intro answered
    obtain ⟨bound, answers⟩ := answered _ _ (answering_answers executor [.key key] result)
    refine ⟨bound, fun limits allow => ?_⟩
    have ran := answers limits allow
    rw [execute_with prepared, Option.map_eq_some_iff] at ran
    obtain ⟨⟨outcome, trace⟩, ran, same⟩ := ran
    cases same
    exact ⟨outcome, trace, (operation_extends sole (answering_answers executor _ result) (Nat.le_refl _)
      (Nat.le_refl _) _ _ ran).1, rfl, rfl⟩
  · rintro ⟨bound, runs⟩ other middleware answers
    obtain ⟨outcome, trace, ran, rfl, rfl⟩ := runs ⟨bound, bound⟩ ⟨Nat.le_refl _, Nat.le_refl _⟩
    refine ⟨bound + 1, fun limits allow => ?_⟩
    rw [execute_with prepared, (arrival_extends sole answers allow.1
      (Nat.le_of_succ_le allow.2) _ _ ran).1]
    rfl

theorem responses_answered (prepared : prepare schema host request = .ok (executor, root))
    (sole : Sole executor root key site arguments) {limits : Limits}
    (ran : executor.responses limits key site events state = some (responses, last)) :
    EachAnswered executor.host (AnsweredDirectly schema executor request [.key key]) events state
      responses last := by
  induction events generalizing state responses with
  | nil =>
    cases ran
    exact .nil
  | cons event events ih =>
    obtain ⟨⟨outcome, trace⟩, answered, more⟩ := Option.bind_eq_some_iff.1 ran
    obtain ⟨⟨others, final⟩, later, same⟩ := Option.bind_eq_some_iff.1 more
    cases same
    rw [event_eq] at answered
    refine .cons rfl ((arrival_iff prepared sole _ _ _ _).2 ⟨max limits.depth limits.rounds,
      fun looser allow => ⟨outcome, trace, ?_, rfl, rfl⟩⟩) (ih later)
    exact (arrival_loosens executor (Nat.le_trans (Nat.le_max_left _ _) allow.1)
      (Nat.le_trans (Nat.le_max_right _ _) allow.2) _ _ answered).1

theorem responses_yield (prepared : prepare schema host request = .ok (executor, root))
    (sole : Sole executor root key site arguments)
    (each : EachAnswered executor.host (AnsweredDirectly schema executor request [.key key]) events
      state responses last) :
    ∃ bound, ∀ limits : Limits, limits.Allow bound →
      executor.responses limits key site events state = some (responses, last) := by
  induction each with
  | nil => exact ⟨0, fun _ _ => rfl⟩
  | @cons event events state given after last result response responses came answered _ ih =>
    obtain ⟨bound, runs⟩ := (arrival_iff prepared sole _ _ _ _).1 answered
    obtain ⟨bound', later⟩ := ih
    refine ⟨max bound bound', fun limits allow => ?_⟩
    obtain ⟨outcome, trace, ran, rfl, rfl⟩ := runs limits (allow.mono (Nat.le_max_left _ _))
    have answered : (executor.event limits key site event.source).run ⟨state, []⟩ =
        some (outcome, trace) := by
      have asked : (ask (executor.host.compute event.source)).run ⟨state, []⟩ =
          some (result, ⟨given, []⟩) :=
        congrArg (fun found : FieldResult τ × σ =>
          (some (found.1, ⟨found.2, []⟩) : Option (FieldResult τ × Trace σ))) came
      rw [event_eq, StateT.run_bind, asked]
      exact ran
    have rest := later limits (allow.mono (Nat.le_max_right _ _))
    simp only [Executor.responses, answered, rest, Option.bind_eq_bind, Option.bind_some,
      Option.pure_def]

theorem Executor.Streams.eventsOf (streams : executor.Streams site [.key key] arguments state events start)
    (sole : Sole executor root key site arguments) :
    (executor.eventsOf site [.key key]).run ⟨state, []⟩ = some (.ok events, ⟨start, []⟩) := by
  have asked {action : StateM σ (FieldResult τ)} {before after : σ} {result : FieldResult τ}
      (ran : action.run before = (result, after)) :
      (ask action).run ⟨before, []⟩ = some (result, ⟨after, []⟩) :=
    congrArg (fun found : FieldResult τ × σ =>
      (some (found.1, ⟨found.2, []⟩) : Option (FieldResult τ × Trace σ))) ran
  rw [Executor.eventsOf, sole.call]
  cases streams with
  | now resolved =>
    rw [StateT.run_bind, asked resolved]
    rfl
  | later resolved came =>
    rw [StateT.run_bind, asked resolved, Option.bind_eq_bind, Option.bind_some, StateT.run_bind]
    simp only [Executor.awaitOnce, StateT.run_bind, asked came]
    rfl

/-- A subscription whose field gives a stream answers its events. -/
theorem subscribe_streams (prepared : prepare schema host request = .ok (executor, root))
    (sole : Sole executor root key site arguments)
    (streams : executor.Streams site [.key key] arguments state events start) (limits : Limits) :
    subscribe limits schema host request state =
      (executor.responses limits key site events start).map fun found => (.events found.1, found.2) := by
  simp only [subscribe, prepared, sole.subscribed, streams.eventsOf sole, Option.bind_eq_bind,
    Option.bind_some]
  cases executor.responses limits key site events start <;> rfl

end Responses

section Ticks

/-- What the host of the ticks computes. -/
inductive Tick where
  | first
  | slow
  | number
  | broken

def tickField : Field := { name := "tick", type := .named "N", resolver := some (.host 0) }

def tickType : ObjectType := { name := "S", fields := ⟨[tickField], []⟩ }

def tickSchema : Schema :=
  { query := tickType, mutation := none, subscription := some tickType
    types := [.object tickType, .scalar { name := "N" }], directives := [] }

def tickNode : Ast.Field := ⟨none, ⟨"tick", none⟩, [], [], none, none⟩

def tickOperation : Ast.OperationDefinition :=
  ⟨.subscription, none, [], [], ⟨[.field tickNode], none⟩, none⟩

/-- A number, a number that comes late, and an error. -/
def tickEvents : List (Later Tick) := [⟨0, .first⟩, ⟨1, .slow⟩, ⟨0, .broken⟩]

def tickHost : Host Tick Unit where
  typeName _ := none
  field _ _ := return none
  compute
    | .first => return .ok (.value (.int 1))
    | .slow => return .ok (.deferred ⟨2, .number⟩)
    | .number => return .ok (.value (.int 2))
    | .broken => return .error "out of ticks"
  resolve _ _ _ _ := return .ok (.stream tickEvents)
  isTypeOf _ _ _ := return true
  resolveType _ _ _ := return none

def tickRequest : Request Tick Unit := { document := ⟨[.operation tickOperation], none⟩ }

def tickExecutor : Executor Tick Unit := ⟨⟨tickSchema, [], .null, tickOperation, []⟩, tickHost, []⟩

def tickSite : Site := ⟨tickType, tickField, [tickNode]⟩

/-- The data of a response, and what its errors say. -/
def toldTick (response : Response) : Option Value × List String :=
  (response.data, response.errors.map ResponseError.message)

def toldTicks : Subscription → List (Option Value × List String)
  | .events responses => responses.map toldTick
  | .failed _ => []

theorem tickRequest_prepared :
    prepare tickSchema tickHost tickRequest = .ok (tickExecutor, tickType) := rfl

theorem tick_sole : Sole tickExecutor tickType "tick" tickSite [] :=
  ⟨rfl, ⟨tickNode, [], by cbv, rfl⟩, rfl⟩

end Ticks

/-- A subscription yields one response for each event, in their order. It is the one that the request
is executed with where the root field gives the event directly, from the state that the host is in
when the event has come. -/
theorem subscribe_answers {schema : Schema} {host : Host τ σ} {request : Request τ σ}
    {executor : Executor τ σ} {root : ObjectType} {key : String} {site : Site}
    {arguments : Entries Value} {events : List (Later τ)} {state start : σ}
    (prepared : prepare schema host request = .ok (executor, root))
    (sole : Sole executor root key site arguments)
    (streams : executor.Streams site [.key key] arguments state events start) :
    (∀ limits subscription last,
      subscribe limits schema host request state = some (subscription, last) →
        ∃ responses, subscription = .events responses ∧ responses.length = events.length ∧
          EachAnswered executor.host (AnsweredDirectly schema executor request [.key key]) events
            start responses last) ∧
    ∀ responses last,
      EachAnswered executor.host (AnsweredDirectly schema executor request [.key key]) events start
        responses last →
        ∃ bound, ∀ limits : Limits, limits.Allow bound →
          subscribe limits schema host request state = some (.events responses, last) := by
  constructor
  · intro limits subscription last ran
    rw [subscribe_streams prepared sole streams, Option.map_eq_some_iff] at ran
    obtain ⟨⟨responses, state⟩, answered, same⟩ := ran
    cases same
    have each := responses_answered prepared sole answered
    exact ⟨responses, rfl, each.length_eq, each⟩
  · intro responses last each
    obtain ⟨bound, answers⟩ := responses_yield prepared sole each
    refine ⟨bound, fun limits allow => ?_⟩
    rw [subscribe_streams prepared sole streams, answers limits allow, Option.map_some]

/-- The late number is waited for, and the error stays with the last event. -/
theorem subscribe_answers_ticks : ∃ responses,
    subscribe ⟨4, 4⟩ tickSchema tickHost tickRequest () = some (.events responses, ()) ∧
      responses.map toldTick =
        [(some (.object [("tick", .int 1)]), []), (some (.object [("tick", .int 2)]), []),
          (some (.object [("tick", .null)]), ["out of ticks"])] ∧
      EachAnswered tickHost (AnsweredDirectly tickSchema tickExecutor tickRequest [.key "tick"])
        tickEvents () responses () := by
  have streams : tickExecutor.Streams tickSite [.key "tick"] [] () tickEvents () := .now rfl
  have told : (subscribe ⟨4, 4⟩ tickSchema tickHost tickRequest ()).map (toldTicks ·.1) =
      some [(some (.object [("tick", .int 1)]), []), (some (.object [("tick", .int 2)]), []),
        (some (.object [("tick", .null)]), ["out of ticks"])] := by cbv
  obtain ⟨⟨subscription, ⟨⟩⟩, ran, told⟩ := Option.map_eq_some_iff.1 told
  obtain ⟨responses, rfl, -, each⟩ :=
    (subscribe_answers tickRequest_prepared tick_sole streams).1 _ _ _ ran
  exact ⟨responses, ran, told, each⟩

end GraphQL.Execution
