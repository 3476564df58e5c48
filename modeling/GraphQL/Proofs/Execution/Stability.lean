import GraphQL.Proofs.Execution.Accepted
import GraphQL.Proofs.Execution.Positions
import GraphQL.Execution.Subscription
import GraphQL.Proofs.Execution.Nulls

/-! Two executions of one operation, side by side. Whichever object types their values turn out to
have, what they select under one key has been compared by validation, if only for its types. So the
types that are declared for one position are alike in both. -/
namespace GraphQL.Execution
open Ast (SelectionSet Document OperationDefinition)
open Validation.Overlap (Conflicting)

variable {τ υ : Type}

/-- Fields that validation has seen under one key, on the one object or the other, are the same, or
they do not conflict, even if they may only do so by their types. -/
def Abreast (schema : Schema) (document : Document) (object other : ObjectType)
    (views others : TypeDef → SelectionSet → Prop) : Prop :=
  ∀ x y, Seen schema document object views x → Seen schema document other others y →
    x.key = y.key → ∃ exclusive, x = y ∨ ¬ Conflicting schema document exclusive x y

section Abreast
variable {schema : Schema} {document : Document} {operation : OperationDefinition}
  {object other : ObjectType} {sets : List SelectionSet} {views others : TypeDef → SelectionSet → Prop}

theorem Overseen.abreast (overseen : Overseen schema document operation object sets views) :
    Abreast schema document object object views views :=
  fun x y first second same => ⟨false, overseen.merge x y first second same⟩

/-- What validation has seen below fields of one key is abreast again, on any two objects. -/
theorem Abreast.below (built : schema.Built) (accepted : schema.validate document = some [])
    (overseen : Overseen schema document operation object sets views)
    (abreast : Abreast schema document object other views others) (inner its : ObjectType)
    (key : String) :
    Abreast schema document inner its (Below schema document object views key)
      (Below schema document other others key) := by
  rintro x y ⟨⟨a, seen, keyed, has, under⟩, first, member, -⟩
    ⟨⟨b, seenToo, keyedToo, hasToo, underToo⟩, second, inside, -⟩ same
  obtain ⟨_, _, _, _, _, typed, -⟩ := seen.typed built accepted overseen
  obtain ⟨exclusive, merge⟩ := abreast a b seen seenToo (keyed.trans keyedToo.symm)
  rcases below_merge built accepted typed merge has hasToo under underToo first second member inside
    same with equal | free | free
  · exact ⟨false, .inl equal⟩
  · exact ⟨false, .inr free⟩
  · exact ⟨_, .inr free⟩

end Abreast

/-- A site that is selected under a key from an object whose selection sets are overseen. -/
def Plan.Watches (plan : Plan τ) (document : Document) (key : String) (site : Site)
    (views : TypeDef → SelectionSet → Prop) : Prop :=
  ∃ sets, Overseen plan.schema document plan.operation site.parent sets views ∧
    plan.Selects site.parent sets key site

section Watching
variable {plan : Plan τ} {document : Document} {root : ObjectType} {key : String} {site : Site}
  {views : TypeDef → SelectionSet → Prop}

/-- The type of a watched field is alike to one that validation has seen under its key. -/
theorem Plan.Watches.declared (accepted : plan.Accepted document root)
    (watches : plan.Watches document key site views) :
    ∃ x type, Seen plan.schema document site.parent views x ∧ x.key = key ∧ x.type = some type ∧
      plan.schema.Alike site.field.type type := by
  obtain ⟨sets, overseen, selects⟩ := watches
  obtain ⟨field, found, each⟩ := overseen.selected accepted selects.collected
  rw [selects.defined] at found
  cases found
  obtain ⟨node, member, -⟩ := Option.bind_eq_some_iff.1 selects.defined
  obtain ⟨x, seen, -, keyed⟩ := overseen.collected accepted selects.collected
    (List.mem_of_mem_head? member)
  obtain ⟨_, _, declared, _, answering⟩ := each x seen keyed
  refine ⟨x, declared.type, seen, keyed, ?_, accepted.built.alike_of_subtype answering.subtype⟩
  rw [Validation.Overlap.Selected.type, answering.typed.definition]
  rfl

/-- What is selected from the objects of a watched field is watched. -/
theorem Plan.Watches.below (accepted : plan.Accepted document root)
    (watches : plan.Watches document key site views) {object : ObjectType}
    (runtime : RuntimeType plan.schema site.field.type.innermost object) {next : String} {inner : Site}
    (selects : plan.Selects object (setsOf site.nodes) next inner) :
    plan.Watches document next inner (Below plan.schema document site.parent views key) := by
  obtain ⟨sets, overseen, outer⟩ := watches
  obtain ⟨rfl, collected, defined⟩ := selects
  exact ⟨_, overseen.field accepted outer.collected outer.defined runtime, rfl, collected, defined⟩

end Watching

section Twins
variable {plan : Plan τ} {twin : Plan υ} {document : Document} {root base : ObjectType}

/-- Two sites are watched under one key, and what validation has seen there is abreast. -/
def Beside (plan : Plan τ) (twin : Plan υ) (document : Document) (site its : Site) : Prop :=
  ∃ key views others, plan.Watches document key site views ∧ twin.Watches document key its others ∧
    Abreast plan.schema document site.parent its.parent views others

/-- Fields that are selected under one key have types that are alike. -/
theorem Beside.alike (accepted : plan.Accepted document root) (twins : twin.Accepted document base)
    (same : twin.schema = plan.schema) {site its : Site} (beside : Beside plan twin document site its) :
    plan.schema.Alike site.field.type its.field.type := by
  obtain ⟨key, views, others, watches, watchesToo, abreast⟩ := beside
  obtain ⟨x, type, seen, keyed, typed, alike⟩ := watches.declared accepted
  obtain ⟨y, other, seenToo, keyedToo, typedToo, alikeToo⟩ := watchesToo.declared twins
  rw [same] at seenToo alikeToo
  refine alike.trans (.trans ?_ alikeToo.symm)
  obtain ⟨exclusive, rfl | free⟩ := abreast x y seen seenToo (keyed.trans keyedToo.symm)
  · rw [typed] at typedToo
    cases typedToo
    exact .refl _ _
  · exact Schema.alike_of_not_conflict (Bool.eq_false_iff.2 fun conflict =>
      free (.types typed typedToo conflict))

theorem Beside.below (accepted : plan.Accepted document root) (twins : twin.Accepted document base)
    (same : twin.schema = plan.schema) {site its inner other : Site}
    (beside : Beside plan twin document site its) {object second : ObjectType} {key : String}
    (runtime : RuntimeType plan.schema site.field.type.innermost object)
    (runtimeToo : RuntimeType twin.schema its.field.type.innermost second)
    (selects : plan.Selects object (setsOf site.nodes) key inner)
    (selectsToo : twin.Selects second (setsOf its.nodes) key other) :
    Beside plan twin document inner other := by
  obtain ⟨outer, views, others, watches, watchesToo, abreast⟩ := beside
  have below := watches.below accepted runtime selects
  have belowToo := watchesToo.below twins runtimeToo selectsToo
  rw [same] at belowToo
  obtain ⟨sets, overseen, -⟩ := watches
  exact ⟨key, _, _, below, belowToo,
    abreast.below accepted.built accepted.accepted overseen _ _ outer⟩

/-- The fields of the root objects are selected from the same selection set. -/
theorem root_beside (accepted : plan.Accepted document root) (twins : twin.Accepted document base)
    (same : twin.schema = plan.schema) (operation : twin.operation = plan.operation) {key : String}
    {site its : Site} (selects : plan.Selects root [plan.operation.selectionSet] key site)
    (selectsToo : twin.Selects base [twin.operation.selectionSet] key its) :
    Beside plan twin document site its := by
  obtain rfl : base = root := by
    have known := accepted.root
    rw [← same, ← operation, twins.root] at known
    exact Option.some.inj known
  have overseen := root_overseen accepted
  have overseenToo := root_overseen twins
  obtain ⟨rfl, collected, defined⟩ := selects
  obtain ⟨parent, collectedToo, definedToo⟩ := selectsToo
  refine ⟨key, _, _, ⟨_, overseen, rfl, collected, defined⟩,
    ⟨_, parent ▸ overseenToo, rfl, parent ▸ collectedToo, parent ▸ definedToo⟩, ?_⟩
  rw [operation, parent]
  exact overseen.abreast

/-- The types that two executions of one operation have for a position are alike. -/
theorem positions_alike (accepted : plan.Accepted document root) (twins : twin.Accepted document base)
    (same : twin.schema = plan.schema) (operation : twin.operation = plan.operation) {path : Path}
    {site its : Site} {type other : TypeRef} (position : plan.Position root site type path)
    (positionToo : twin.Position base its other path) :
    Beside plan twin document site its ∧ plan.schema.Alike type other := by
  -- Both sites are below sites of the position above, which are beside each other as well.
  induction path using List.reverseRecOn generalizing site its type other with
  | nil => exact absurd rfl position.path_ne_nil
  | append_singleton path segment ih =>
    cases segment with
    | index index =>
      obtain ⟨full, above, list⟩ := position.of_index
      obtain ⟨fullToo, aboveToo, listToo⟩ := positionToo.of_index
      obtain ⟨beside, alike⟩ := ih above aboveToo
      exact ⟨beside, alike.item list listToo⟩
    | key key =>
      obtain ⟨rfl, first⟩ := position.of_key
      obtain ⟨rfl, second⟩ := positionToo.of_key
      have beside : Beside plan twin document site its := by
        rcases first with ⟨rfl, selects⟩ | ⟨outer, full, name, object, above, bare, runtime, selects⟩
        · rcases second with ⟨-, selectsToo⟩ | ⟨_, _, _, _, aboveToo, _⟩
          · exact root_beside accepted twins same operation selects selectsToo
          · exact absurd rfl aboveToo.path_ne_nil
        · rcases second with ⟨rfl, -⟩ | ⟨its, _, _, _, aboveToo, bareToo, runtimeToo, selectsToo⟩
          · exact absurd rfl above.path_ne_nil
          · obtain ⟨beside, -⟩ := ih above aboveToo
            exact beside.below accepted twins same (above.places.named bare ▸ runtime)
              (aboveToo.places.named bareToo ▸ runtimeToo) selects selectsToo
      exact ⟨beside, beside.alike accepted twins same⟩

/-- Values of fields are completed at types that the schema knows, and that values can be given out
at. -/
theorem Plan.Position.output (accepted : plan.Accepted document root) {site : Site} {type : TypeRef}
    {path : Path} (position : plan.Position root site type path) :
    ∃ found, plan.schema.named? type = some found ∧ found.isOutput = true := by
  obtain ⟨resolves, innermost⟩ := position.places
  obtain ⟨found, known, kind⟩ := (resolves_typed accepted resolves).type
  rw [Schema.named?, ← innermost] at known
  refine ⟨found, known, ?_⟩
  cases found with
  | inputObject _ => rcases kind with ⟨leaf, -⟩ | ⟨composite, -⟩ <;> contradiction
  | _ => rfl

/-- Where two executions of one operation may hand over values, these have the same shape. -/
theorem hands_sameShape (accepted : plan.Accepted document root)
    (twins : twin.Accepted document base) (same : twin.schema = plan.schema)
    (operation : twin.operation = plan.operation) {path : Path} {site its : Site}
    {type other : TypeRef} (hands : plan.Hands root site type path)
    (handsToo : twin.Hands base its other path) : plan.schema.SameShape type other := by
  obtain ⟨full, position, bare⟩ := hands
  obtain ⟨next, positionToo, bareToo⟩ := handsToo
  obtain ⟨-, alike⟩ := positions_alike accepted twins same operation position positionToo
  obtain ⟨found, known, output⟩ := position.output accepted
  obtain ⟨its, knownToo, outputToo⟩ := positionToo.output twins
  rw [same] at knownToo
  exact (alike.sameShape known output knownToo outputToo).of_bare bare bareToo

end Twins
end GraphQL.Execution

/-! The response shape of an operation: whatever its executions complete at one position of the
response has one shape there, with whichever resolvers, object types and variables, and in the events
of a subscription as well. -/
namespace GraphQL.Execution
open Ast (SelectionSet Document)

variable {τ σ υ ρ : Type}

namespace Executor

variable (executor : Executor τ σ) (allowed : Step τ → Bool)

/-- The outcome of one event within the steps that are allowed. -/
def eventWithin (limits : Limits) (key : String) (site : Site) (source : τ) : Exec σ Outcome := do
  let path : Path := [.key key]
  let completion ←
    match ← ask (executor.host.compute source) with
    | .ok value =>
        executor.completeWithin allowed limits.depth site site.field.type path value
    | .error message => pure (.failed site path message)
  let outcome ← executor.settleWithin allowed limits (← completion.guardAt site.field.type)
  return outcome.map fun value => .object [(key, value)]

def responsesWithin (limits : Limits) (key : String) (site : Site) :
    List (Later τ) → σ → Option (List Response × σ)
  | [], state => some ([], state)
  | event :: rest, state => do
      let (outcome, trace) ←
        (executor.eventWithin allowed limits key site event.source).run ⟨state, []⟩
      let (others, state) ← responsesWithin limits key site rest trace.host
      return (respond trace outcome :: others, state)

end Executor

/-- Answers all events of a subscription within the steps that are allowed. -/
def subscribeWithin (allowed : Step τ → Bool) (limits : Limits) (schema : Schema) (host : Host τ σ)
    (request : Request τ σ) (state : σ) : Option (Subscription × σ) :=
  match prepare schema host request with
  | .error errors => some (.failed (.refusal errors), state)
  | .ok (executor, root) =>
      match executor.subscribed root with
      | .error fault => some (unsubscribed fault.error, state)
      | .ok (key, site) => do
          let (events, trace) ← (executor.eventsOf site [.key key]).run ⟨state, []⟩
          match events with
          | .error error => return (unsubscribed error, trace.host)
          | .ok events =>
              let (responses, state) ←
                executor.responsesWithin allowed limits key site events trace.host
              return (.events responses, state)

section Unlimited
variable (executor : Executor τ σ) (limits : Limits)

theorem eventWithin_all (key : String) (site : Site) (source : τ) :
    executor.eventWithin (fun _ => true) limits key site source =
      executor.event limits key site source := by
  simp only [Executor.eventWithin, completeWithin_all, settleWithin_all]
  rfl

theorem responsesWithin_all (key : String) (site : Site) (events : List (Later τ)) (state : σ) :
    executor.responsesWithin (fun _ => true) limits key site events state =
      executor.responses limits key site events state := by
  induction events generalizing state with
  | nil => rfl
  | cons event rest ih =>
    rw [Executor.responsesWithin, Executor.responses, eventWithin_all]
    simp only [ih]

theorem subscribeWithin_all (schema : Schema) (host : Host τ σ) (request : Request τ σ) (state : σ) :
    subscribeWithin (fun _ => true) limits schema host request state =
      subscribe limits schema host request state := by
  simp only [subscribeWithin, responsesWithin_all]
  rfl

end Unlimited

section Events
variable {executor : Executor τ σ} {root : ObjectType} {key : String} {site : Site}

theorem eventWithin_charted (here : executor.plan.Position root site site.field.type [.key key])
    (limits : Limits) (source : τ) : Charts executor root (fun _ => True)
      fun allowed => executor.eventWithin allowed limits key site source := by
  have settled (completion : Completion τ) (placed : completion.Placed executor.plan root) :
      Charts executor root (fun _ => True) fun allowed => do
        let outcome ← executor.settleWithin allowed limits (← completion.guardAt site.field.type)
        return outcome.map fun value => Value.object [(key, value)] :=
    (Charted.silent (guardAt_placed site.field.type placed) fun _ _ => id).bind fun after placed =>
      (settleWithin_charted limits placed).bind fun outcome _ => .pure trivial
  simp only [Executor.eventWithin]
  refine (Charted.always _).bind fun result _ => ?_
  cases result with
  | ok value =>
    exact (completeWithin_charted limits.depth site _ [.key key] value here.hands).bind settled
  | error message => exact settled _ (.settled _)

theorem responsesWithin_outlined
    (here : executor.plan.Position root site site.field.type [.key key]) (limits : Limits)
    (events : List (Later τ)) (state : σ) :
    Outlined (Step.Placed executor.plan root) (fun _ => True)
      fun allowed => executor.responsesWithin allowed limits key site events state := by
  induction events generalizing state with
  | nil => exact .silent fun _ _ => trivial
  | cons event rest ih =>
    simp only [Executor.responsesWithin]
    exact (eventWithin_charted here limits event.source ⟨state, []⟩).bind fun found _ =>
      (ih found.2.host).bind fun others _ => .silent fun _ _ => trivial

end Events

section Subscribing
variable (limits : Limits) (schema : Schema) (host : Host τ σ) (request : Request τ σ) (state : σ)

/-- Subscriptions take steps at positions of the responses to their events only. -/
theorem subscribeWithin_outlined : Outlined (StepOf schema host request) (fun _ => True)
    fun allowed => subscribeWithin allowed limits schema host request state := by
  simp only [subscribeWithin]
  cases prepared : prepare schema host request with
  | error errors => exact .silent fun _ _ => trivial
  | ok found =>
    obtain ⟨executor, root⟩ := found
    dsimp only
    cases subscribed : executor.subscribed root with
    | error fault => exact .silent fun _ _ => trivial
    | ok found =>
      obtain ⟨key, site⟩ := found
      have here : executor.plan.Position root site site.field.type [.key key] :=
        .root (mem_sites_selects.1 (subscribed_mem subscribed))
      refine (Outlined.silent fun _ _ => trivial).bind fun found _ => ?_
      obtain ⟨events, trace⟩ := found
      cases events with
      | error error => exact .silent fun _ _ => trivial
      | ok events =>
        have outlined : Outlined (StepOf schema host request) _ _ :=
          (responsesWithin_outlined here limits events trace.host).mono
            fun step placed => ⟨executor, root, prepared, placed⟩
        exact outlined.bind fun _ _ => .silent fun _ _ => trivial

end Subscribing

/-- A value is handed to completion at a position, in an execution of a request that is answered, or in
one of the events of a subscription. -/
inductive Serves (schema : Schema) (host : Host τ σ) (request : Request τ σ) (site : Site)
    (type : TypeRef) (path : Path) (value : FieldValue τ) : Prop
  | executed {limits : Limits} {state : σ} {answer : Response × σ} :
      execute limits schema host request state = some answer →
      Takes limits schema host request state (.handed site type path value) →
      Serves schema host request site type path value
  | subscribed {limits : Limits} {state : σ} {answer : Subscription × σ} :
      subscribe limits schema host request state = some answer →
      Needs (fun allowed => subscribeWithin allowed limits schema host request state)
        (.handed site type path value) →
      Serves schema host request site type path value

section Serving
variable {schema : Schema} {host : Host τ σ} {request : Request τ σ} {site : Site} {type : TypeRef}
  {path : Path} {value : FieldValue τ}

/-- Where a value is handed to completion, it may be. -/
theorem Serves.hands (serves : Serves schema host request site type path value) :
    ∃ executor root, prepare schema host request = .ok (executor, root) ∧
      executor.plan.Hands root site type path := by
  cases serves with
  | executed ran takes =>
    obtain ⟨steps, needed, placed, -⟩ := exists_steps ran
    exact placed _ ((needed _).1 takes)
  | @subscribed limits state answer ran needs =>
    rw [← subscribeWithin_all] at ran
    obtain ⟨steps, needed, placed, -⟩ :=
      (subscribeWithin_outlined limits schema host request state).exists_steps ran
    exact placed _ ((needed _).1 needs)

end Serving

section Houses

def houseNameField : Field := { name := "name", type := .named "String" }

def ownerType : ObjectType := { name := "Person", fields := ⟨[houseNameField], []⟩ }

def houseCatType : ObjectType :=
  { name := "Cat", fields := ⟨[houseNameField, { name := "mother", type := .named "Cat" }], []⟩ }

def houseDogType : ObjectType :=
  { name := "Dog", fields := ⟨[houseNameField, { name := "owner", type := .named "Person" }], []⟩ }

def houseType : ObjectType :=
  { name := "House", fields := ⟨[{ name := "pet", type := .named "Pet" }], []⟩ }

def houseBuilder : SchemaBuilder :=
  { query := some "House"
    types := [.object houseType, .union { name := "Pet", members := ["Cat", "Dog"] },
      .object houseCatType, .object houseDogType, .object ownerType] }

open GraphQL.Introspection in
/-- Houses have a pet, which is a cat with a mother or a dog with an owner. -/
def houseSchema : Schema :=
  { query := houseType, mutation := none, subscription := none
    types := [.object houseType, .union { name := "Pet", members := ["Cat", "Dog"] },
      .object houseCatType, .scalar .string, .object houseDogType, .object ownerType, .scalar .boolean,
      schemaType, typeType, typeKindType, fieldType, inputValueType, enumValueType, directiveType,
      directiveLocationType]
    directives := DirectiveDef.builtins }

theorem houseSchema_built : houseSchema.Built := by
  refine ⟨houseBuilder, SchemaBuilder.build_ok_iff.2 ⟨_, rfl, ?_, rfl, rfl, rfl, rfl, rfl, ?_⟩⟩
  · decide +kernel
  · decide +kernel

theorem houseSchema_plain : houseSchema.PlainNames := Schema.plainNames_of_all (by decide +kernel)

/-- A field of the objects of one type, with the names of what it has, under the key `kin`. -/
def kinOf (type field : String) : Ast.Selection :=
  .inline ⟨some ⟨⟨type, none⟩, none⟩, [], ⟨[.field ⟨some ⟨"kin", none⟩, ⟨field, none⟩, [], [],
    some ⟨[.field petName], none⟩, none⟩], none⟩, none⟩

/-- The mother of a cat and the owner of a dog are asked for under one key. -/
def houseOperation : Ast.OperationDefinition :=
  ⟨.query, none, [], [], ⟨[.field ⟨none, ⟨"pet", none⟩, [], [],
    some ⟨[kinOf "Cat" "mother", kinOf "Dog" "owner"], none⟩, none⟩], none⟩, none⟩

/-- A request to a house with a pet of some type, of which one field is known. -/
def houseRequest (type field : String) : Request Empty Unit :=
  { document := ⟨[.operation houseOperation], none⟩
    root := .value (.object [("pet", .object [("__typename", .string type),
      (field, .object [("name", .string "Kim")])])]) }

def kinPath : Path := [.key "pet", .key "kin"]

/-- All steps but those at which a value is handed over at a position and a type. -/
def unlessHanded (type : TypeRef) (path : Path) : Step Empty → Bool
  | .handed _ its other _ => !(decide (its = type) && other == path)
  | .resolved _ _ => true

theorem houseRequest_serves (type field : String) (next : TypeRef)
    (answered : (execute ⟨4, 4⟩ houseSchema plainHost (houseRequest type field) ()).isSome = true)
    (given : executeWithin (unlessHanded next kinPath) ⟨4, 4⟩ houseSchema plainHost
      (houseRequest type field) () = none) :
    ∃ site value, Serves houseSchema plainHost (houseRequest type field) site next kinPath value := by
  obtain ⟨answer, ran⟩ := Option.isSome_iff_exists.1 answered
  obtain ⟨step, needed, refused⟩ := (executeWithin_outlined _ _ _ _ _).exists_needed
    (by rw [executeWithin_all, ran]; rfl) given
  cases step with
  | resolved _ _ => cases refused
  | handed site its path value =>
    rw [unlessHanded, Bool.not_eq_false', Bool.and_eq_true, decide_eq_true_eq, beq_iff_eq] at refused
    obtain ⟨rfl, rfl⟩ := refused
    exact ⟨site, value, .executed ran needed⟩

end Houses

/-- What the executions of one operation of an accepted document hand to completion at one position
of the response has the same shape in all of them, whichever hosts and inputs they are for. -/
theorem shape_stable {schema : Schema} (built : schema.Built) (plain : schema.PlainNames)
    {host : Host τ σ} {other : Host υ ρ} {request : Request τ σ} {again : Request υ ρ}
    (accepted : schema.validate request.document = some [])
    (document : again.document = request.document)
    (operation : selectOperation again.document again.operationName =
      selectOperation request.document request.operationName)
    {site its : Site} {type next : TypeRef} {path : Path} {value : FieldValue τ}
    {found : FieldValue υ} (serves : Serves schema host request site type path value)
    (servesToo : Serves schema other again its next path found) : schema.SameShape type next := by
  obtain ⟨executor, root, prepared, hands⟩ := serves.hands
  obtain ⟨twin, base, preparedToo, handsToo⟩ := servesToo.hands
  obtain ⟨plan, known, -⟩ := prepare_accepted built plain accepted prepared
  obtain ⟨twinPlan, knownToo, -⟩ := prepare_accepted built plain (document ▸ accepted) preparedToo
  rw [document] at twinPlan
  rw [prepare_operation prepared, prepare_operation preparedToo] at operation
  have shape := hands_sameShape plan twinPlan (knownToo.trans known.symm) (Except.ok.inj operation)
    hands handsToo
  rwa [known] at shape

/-- A mother, which is a cat, and an owner, which is a person, stand at one position. -/
theorem shape_stable_houses : ∃ mother cat owner person,
    Serves houseSchema plainHost (houseRequest "Cat" "mother") mother (.named "Cat") kinPath cat ∧
      Serves houseSchema plainHost (houseRequest "Dog" "owner") owner (.named "Person") kinPath person ∧
      houseSchema.SameShape (.named "Cat") (.named "Person") := by
  obtain ⟨mother, cat, serves⟩ :=
    houseRequest_serves "Cat" "mother" (.named "Cat") (by cbv) (by cbv)
  obtain ⟨owner, person, servesToo⟩ :=
    houseRequest_serves "Dog" "owner" (.named "Person") (by cbv) (by cbv)
  have accepted : houseSchema.validate (houseRequest "Cat" "mother").document = some [] := by cbv
  have same : (houseRequest "Dog" "owner").document = (houseRequest "Cat" "mother").document := rfl
  exact ⟨mother, cat, owner, person, serves, servesToo,
    shape_stable houseSchema_built houseSchema_plain accepted same rfl serves servesToo⟩

end GraphQL.Execution
