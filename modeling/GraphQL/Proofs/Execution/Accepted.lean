import Mathlib
import GraphQL.Proofs.Execution.Responses
import GraphQL.Proofs.Execution.Overseen

/-! What validation promises to executions: fields that are answered together are one field with
the same arguments, all fields that are selected from an object are there, and their values can
be completed. -/
namespace GraphQL.Execution
open Ast (SelectionSet Document)
open Validation.Overlap (SameArguments)

variable {τ σ : Type}

/-- A field is there on the object for all of its nodes, and these have selection sets exactly if
its type has selections. -/
structure Site.Typed (schema : Schema) (site : Site) : Prop where
  field : ∀ node ∈ site.nodes, schema.objectField? site.parent node.name.text = some site.field
  type : ∃ type, schema.named? site.field.type = some type ∧
    (type.isLeaf = true ∧ (∀ node ∈ site.nodes, node.selectionSet = none) ∨
      type.isComposite = true ∧ ∀ node ∈ site.nodes, node.selectionSet.isSome = true)

section Prepared
variable {schema : Schema} {document : Document} {operation : Ast.OperationDefinition}

theorem selectOperation_mem {name : Option String}
    (selected : selectOperation document name = .ok operation) : operation ∈ document.operations := by
  rw [selectOperation.eq_def] at selected
  split at selected
  · cases selected
  · rename_i single
    cases selected
    rw [single]
    exact List.mem_cons_self
  · cases selected
  · split at selected
    · rename_i found
      cases selected
      exact List.mem_of_find?_eq_some found
    · cases selected

theorem mapError_ok {ε δ α : Type} {result : Except ε α} {f : ε → δ} {value : α}
    (ok : result.mapError f = .ok value) : result = .ok value := by
  cases result with
  | ok _ =>
    cases ok
    rfl
  | error _ => cases ok

/-- What is executed for a request whose document is accepted is one of its operations, from a root
type that the schema has, with the values of its variables. -/
theorem prepare_accepted {host : Host τ σ} {request : Request τ σ} {executor : Executor τ σ}
    {root : ObjectType} (built : schema.Built) (plain : schema.PlainNames)
    (accepted : schema.validate request.document = some [])
    (prepared : prepare schema host request = .ok (executor, root)) :
    executor.plan.Accepted request.document root ∧ executor.plan.schema = schema ∧
      variableValues schema request.inputs executor.plan.operation.variableDefinitions =
        .ok executor.plan.bindings := by
  rw [prepare] at prepared
  obtain ⟨operation, selected, prepared⟩ := SchemaBuilder.except_bind_ok prepared
  obtain ⟨bindings, bound, prepared⟩ := SchemaBuilder.except_bind_ok prepared
  obtain ⟨root, found, prepared⟩ := SchemaBuilder.except_bind_ok prepared
  cases prepared
  have found := mapError_ok found
  rw [rootType] at found
  split at found
  · rename_i known
    cases found
    exact ⟨⟨built, plain, accepted, rfl, selectOperation_mem (mapError_ok selected), known⟩, rfl, bound⟩
  · cases found

theorem prepare_operation {host : Host τ σ} {request : Request τ σ} {executor : Executor τ σ}
    {root : ObjectType} (prepared : prepare schema host request = .ok (executor, root)) :
    selectOperation request.document request.operationName = .ok executor.plan.operation := by
  rw [prepare] at prepared
  obtain ⟨operation, selected, prepared⟩ := SchemaBuilder.except_bind_ok prepared
  obtain ⟨bindings, _, prepared⟩ := SchemaBuilder.except_bind_ok prepared
  obtain ⟨root, _, prepared⟩ := SchemaBuilder.except_bind_ok prepared
  cases prepared
  exact mapError_ok selected

end Prepared

section Collected
variable {plan : Plan τ} {document : Document} {root object : ObjectType} {sets : List SelectionSet}
  {key : String} {nodes : List Ast.Field}

/-- What is collected at a reached object is typed. -/
theorem collected_typed (accepted : plan.Accepted document root)
    (reached : plan.Reaches root object sets) (collected : (key, nodes) ∈ plan.collect object sets) :
    ∃ field, plan.field? object nodes = some field ∧ Site.Typed plan.schema ⟨object, field, nodes⟩ := by
  obtain ⟨views, overseen⟩ := reaches_overseen accepted reached
  obtain ⟨field, found, each⟩ := overseen.selected accepted collected
  have seen (node : Ast.Field) (member : node ∈ nodes) :
      plan.schema.objectField? object node.name.text = some field ∧
        ∃ type, plan.schema.named? field.type = some type ∧ type.isOutput = true ∧
          (type.isLeaf = true ↔ node.selectionSet = none) := by
    obtain ⟨x, seen, rfl, keyed⟩ := overseen.collected accepted collected member
    obtain ⟨user, outer, declared, result, answering⟩ := each x seen keyed
    have own : plan.schema.type? (TypeDef.object object).name = some (.object object) := overseen.known
    obtain ⟨type, known, output⟩ := accepted.built.selected_output own answering.found
    have leaf := accepted.built.leaf_of_subtype answering.subtype known answering.typed.type
    exact ⟨answering.found, type, known, output, by rw [leaf]; exact answering.typed.leaf⟩
  obtain ⟨node, here⟩ : ∃ node, node ∈ nodes := by
    obtain ⟨rfl, node, member, keyed⟩ := (Groups.mem_ofList _ _ _ _).1 collected
    exact ⟨node, List.mem_filter.2 ⟨member, by simpa using keyed⟩⟩
  obtain ⟨-, type, known, output, -⟩ := seen node here
  have leaf (other : Ast.Field) (member : other ∈ nodes) :
      type.isLeaf = true ↔ other.selectionSet = none := by
    obtain ⟨-, its, same, -, leaf⟩ := seen other member
    rw [known] at same
    cases same
    exact leaf
  refine ⟨field, found, fun other member => (seen other member).1, type, known, ?_⟩
  by_cases isLeaf : type.isLeaf = true
  · exact .inl ⟨isLeaf, fun other member => (leaf other member).1 isLeaf⟩
  · refine .inr ⟨Schema.composite_of_output output isLeaf, fun other member => ?_⟩
    exact Option.isSome_iff_ne_none.2 fun none => isLeaf ((leaf other member).2 none)

/-- All response keys are answered. -/
theorem answered_all (accepted : plan.Accepted document root) (reached : plan.Reaches root object sets) :
    plan.answered object sets = (plan.collect object sets).keys := by
  rw [Plan.answered, List.filter_eq_self.2, Groups.keys]
  rintro ⟨key, nodes⟩ member
  obtain ⟨field, found, -⟩ := collected_typed accepted reached member
  rw [found]
  rfl

theorem resolves_typed (accepted : plan.Accepted document root) {site : Site}
    (resolves : plan.Resolves root site) : site.Typed plan.schema := by
  obtain ⟨sets, key, reached, collected, found⟩ := resolves
  obtain ⟨field, same, typed⟩ := collected_typed accepted reached collected
  rw [found] at same
  cases same
  exact typed

/-- The spreads of an operation and those of the fragments name fragments. -/
theorem spreads_known (accepted : plan.Accepted document root) {set : SelectionSet}
    (inside : set = plan.operation.selectionSet ∨ ∃ outer ∈ plan.fragments, set = outer.selectionSet)
    {spread : Ast.FragmentSpread} (member : spread ∈ set.spreads) :
    ∃ fragment ∈ plan.fragments, fragment.name.text = spread.target := by
  have selects : ∃ user type, Validation.SelectsFrom plan.schema document user type set := by
    rcases inside with rfl | ⟨outer, known, rfl⟩
    · exact ⟨_, _, Validation.operation_selects accepted.built accepted.operation accepted.root⟩
    · rw [accepted.fragments] at known
      obtain ⟨type, -, selects⟩ := Validation.fragment_selects accepted.accepted known
      exact ⟨_, type, selects⟩
  obtain ⟨user, type, scope, ancestors, inside, -⟩ := selects
  obtain ⟨fragment, found⟩ := Validation.set_spreads accepted.accepted set inside.entered spread member
  rw [accepted.fragments]
  exact ⟨fragment, Validation.Overlap.mem_of_named? found, Validation.Overlap.name_of_named? found⟩

end Collected

section Completing
variable {executor : Executor τ σ} {document : Document} {root : ObjectType} {site : Site}

/-- Completes a value at a type that is known, and that values can be given out at. -/
def Executor.asKnown (executor : Executor τ σ) (complete : Executor.Complete τ σ) (site : Site)
    (path : Path) (value : FieldValue τ) : TypeDef → Exec σ (Completion τ)
  | .object type => executor.asObject complete site path type value
  | type =>
      if type.isLeaf then return .settled (executor.leaf site path type value)
      else do
        match ← executor.runtimeType site path type value with
        | .ok object => executor.asObject complete site path object value
        | .error error => return .settled (.error error)

/-- Wherever a value is completed, it can be. -/
theorem asNamed_known (accepted : executor.plan.Accepted document root) {name : String}
    (places : executor.plan.Places root site (.named name)) :
    ∃ type, executor.plan.schema.type? name = some type ∧
      ∀ complete path value,
        executor.asNamed complete site path name value = executor.asKnown complete site path value type := by
  obtain ⟨resolves, innermost⟩ := places
  obtain ⟨type, known, output⟩ := (resolves_typed accepted resolves).type
  rw [Schema.named?, ← innermost] at known
  refine ⟨type, known, fun complete path value => ?_⟩
  rw [Executor.asNamed, show executor.plan.schema.type? name = some type from known]
  cases type with
  | inputObject _ => rcases output with ⟨isLeaf, -⟩ | ⟨composite, -⟩ <;> contradiction
  | _ => rfl

/-- The host keeps an invariant of its state when it is asked about a field. -/
structure KeepsAt (executor : Executor τ σ) (I : σ → Prop) (site : Site) : Prop where
  resolve : ∀ path source arguments state, I state →
    I ((executor.resolve site path source arguments).run state).2
  isTypeOf : ∀ handle value path state, I state →
    I ((executor.host.isTypeOf handle value ⟨executor.plan, site, path⟩).run state).2
  resolveType : ∀ handle value path state, I state →
    I ((executor.host.resolveType handle value ⟨executor.plan, site, path⟩).run state).2

/-- An execution asks the host about typed fields only. -/
theorem asks_typed (accepted : executor.plan.Accepted document root) {I : σ → Prop}
    (keeps : ∀ site, executor.plan.Resolves root site → site.Typed executor.plan.schema →
      KeepsAt executor I site)
    (compute : ∀ source state, I state → I ((executor.host.compute source).run state).2) :
    Keeps executor root I where
  resolve site resolves := (keeps site resolves (resolves_typed accepted resolves)).resolve
  isTypeOf site resolves := (keeps site resolves (resolves_typed accepted resolves)).isTypeOf
  resolveType site resolves := (keeps site resolves (resolves_typed accepted resolves)).resolveType
  compute := compute

end Completing

section Pets

def friendField : Field :=
  { name := "friend", type := .named "Pet"
    arguments := ⟨[{ name := "since", type := .nonNull (.named "Int") }], []⟩ }

def petFields : Definitions Field := ⟨[{ name := "name", type := .named "String" }, friendField], []⟩

def petType : InterfaceType := { name := "Pet", fields := petFields }

def dogType : ObjectType := { name := "Dog", interfaces := ["Pet"], fields := petFields }

def petBuilder : SchemaBuilder :=
  { query := some "Dog", types := [.object dogType, .interface petType] }

open GraphQL.Introspection in
/-- Dogs have friends that are pets, and all pets are dogs. -/
def petSchema : Schema :=
  { query := dogType, mutation := none, subscription := none
    types := [.object dogType, .scalar .string, .interface petType, .scalar .int, .scalar .boolean,
      schemaType, typeType, typeKindType, fieldType, inputValueType, enumValueType, directiveType,
      directiveLocationType]
    directives := DirectiveDef.builtins }

theorem petSchema_built : petSchema.Built := by
  refine ⟨petBuilder, SchemaBuilder.build_ok_iff.2 ⟨_, rfl, ?_, rfl, rfl, rfl, rfl, rfl, ?_⟩⟩
  · decide +kernel
  · decide +kernel

theorem petSchema_plain : petSchema.PlainNames := Schema.plainNames_of_all (by decide +kernel)

def petName : Ast.Field := ⟨none, ⟨"name", none⟩, [], [], none, none⟩

def petFriend (set : SelectionSet) : Ast.Field :=
  ⟨none, ⟨"friend", none⟩, [⟨⟨"since", none⟩, .var ⟨⟨"year", none⟩, none⟩, none⟩], [], some set, none⟩

/-- A field that is selected by itself, and from dogs only. -/
def petFriends : List Ast.Field :=
  [petFriend ⟨[.field petName], none⟩,
    petFriend ⟨[.inline ⟨some ⟨⟨"Dog", none⟩, none⟩, [], ⟨[.field petName], none⟩, none⟩], none⟩]

/-- Friends of dogs. -/
def friendSite : Site := ⟨dogType, friendField, petFriends⟩

def petOperation : Ast.OperationDefinition :=
  ⟨.query, none, [⟨⟨⟨"year", none⟩, none⟩, .nonNull (.named ⟨⟨"Int", none⟩, none⟩) none, none, none⟩],
    [], ⟨petFriends.map .field, none⟩, none⟩

def petDocument : Document := ⟨[.operation petOperation], none⟩

def petPlan : Plan Empty := ⟨petSchema, [], .null, petOperation, [("year", .int 1)]⟩

theorem petPlan_accepted : petPlan.Accepted petDocument dogType where
  built := petSchema_built
  plain := petSchema_plain
  accepted := by cbv
  fragments := rfl
  operation := List.mem_cons_self
  root := rfl

theorem petPlan_resolves : petPlan.Resolves dogType friendSite := by
  have collected : petPlan.collect dogType [petOperation.selectionSet] = [("friend", petFriends)] := by cbv
  exact ⟨_, "friend", .root, collected ▸ List.mem_cons_self, rfl⟩

theorem petPlan_reaches : petPlan.Reaches dogType dogType (setsOf petFriends) :=
  reaches_of_resolves petPlan_resolves (.possible rfl rfl rfl (by decide +kernel))

end Pets

/-- Nodes that are answered together have one name and the same arguments, each given once. -/
theorem collected_agree {plan : Plan τ} {document : Document} {root object : ObjectType}
    {sets : List SelectionSet} {key : String} {nodes : List Ast.Field}
    (accepted : plan.Accepted document root) (reached : plan.Reaches root object sets)
    (collected : (key, nodes) ∈ plan.collect object sets) :
    ∀ node ∈ nodes, (node.arguments.map fun argument => argument.name.text).Nodup ∧
      ∀ other ∈ nodes, node.name.text = other.name.text ∧
        SameArguments node.arguments other.arguments := by
  obtain ⟨views, overseen⟩ := reaches_overseen accepted reached
  intro node member
  obtain ⟨x, seen, rfl, keyed⟩ := overseen.collected accepted collected member
  constructor
  · obtain ⟨_, _, _, _, _, typed, -⟩ := seen.typed accepted.built accepted.accepted overseen
    obtain ⟨scope, ancestors, inside, -⟩ := typed.entered
    exact Validation.field_arguments accepted.accepted inside.entered
  · intro other inside
    obtain ⟨y, seenToo, rfl, keyedToo⟩ := overseen.collected accepted collected inside
    exact overseen.same accepted.built accepted.accepted seen seenToo (keyed.trans keyedToo.symm)

/-- The names of a friend are selected twice: from any pet, and from dogs. -/
theorem collected_agree_pets :
    petPlan.Accepted petDocument dogType ∧ petPlan.Reaches dogType dogType (setsOf petFriends) ∧
      ("name", [petName, petName]) ∈ petPlan.collect dogType (setsOf petFriends) ∧
      (∀ node ∈ [petName, petName],
        (node.arguments.map fun argument => argument.name.text).Nodup ∧
          ∀ other ∈ [petName, petName], node.name.text = other.name.text ∧
            SameArguments node.arguments other.arguments) := by
  have reached : petPlan.Reaches dogType dogType (setsOf petFriends) := petPlan_reaches
  have collected : petPlan.collect dogType (setsOf petFriends) = [("name", [petName, petName])] := by cbv
  have member : ("name", [petName, petName]) ∈ petPlan.collect dogType (setsOf petFriends) :=
    collected ▸ List.mem_cons_self
  exact ⟨petPlan_accepted, reached, member, collected_agree petPlan_accepted reached member⟩

/-- An execution of an accepted document finds all fields that it collects, with selections where
their types have any; all fragments that it may come to are there; wherever it completes a value
the type is known and can be completed; and it asks the host about such fields only. -/
theorem accepted_executes {executor : Executor τ σ} {document : Document} {root : ObjectType}
    (accepted : executor.plan.Accepted document root) :
    (∀ object sets, executor.plan.Reaches root object sets →
      executor.plan.answered object sets = (executor.plan.collect object sets).keys ∧
        ∀ key nodes, (key, nodes) ∈ executor.plan.collect object sets →
          ∃ field, executor.plan.field? object nodes = some field ∧
            Site.Typed executor.plan.schema ⟨object, field, nodes⟩) ∧
    (∀ set, (set = executor.plan.operation.selectionSet ∨
        ∃ outer ∈ executor.plan.fragments, set = outer.selectionSet) →
      ∀ spread ∈ set.spreads, ∃ fragment ∈ executor.plan.fragments,
        fragment.name.text = spread.target) ∧
    (∀ site name, executor.plan.Places root site (.named name) →
      ∃ type, executor.plan.schema.type? name = some type ∧ ∀ complete path value,
        executor.asNamed complete site path name value =
          executor.asKnown complete site path value type) ∧
    ∀ (I : σ → Prop) (limits : Limits) (state : σ) (outcome : Outcome) (trace : Trace σ),
      (∀ site, executor.plan.Resolves root site → site.Typed executor.plan.schema →
        KeepsAt executor I site) →
      (∀ source state, I state → I ((executor.host.compute source).run state).2) → I state →
      (executor.operation limits root).run ⟨state, []⟩ = some (outcome, trace) → I trace.host := by
  refine ⟨fun object sets reached => ⟨answered_all accepted reached, fun key nodes collected =>
      collected_typed accepted reached collected⟩,
    fun set inside spread member => spreads_known accepted inside member,
    fun site name places => asNamed_known accepted places, ?_⟩
  intro I limits state outcome trace keeps compute holds ran
  exact (operation_ensures (asks_typed accepted keeps compute) limits _ _ _ holds ran).1

def petExecutor : Executor Empty Unit := ⟨petPlan, plainHost, []⟩

/-- The names of a friend are answered, and its type can be completed. -/
theorem accepted_executes_pets :
    petPlan.Accepted petDocument dogType ∧
      petPlan.answered dogType (setsOf petFriends) = ["name"] ∧
      ∃ type, petSchema.type? "Pet" = some type := by
  obtain ⟨typed, -, completed, -⟩ :=
    accepted_executes (show petExecutor.plan.Accepted petDocument dogType from petPlan_accepted)
  have collected : petPlan.collect dogType (setsOf petFriends) = [("name", [petName, petName])] := by cbv
  have answered : petPlan.answered dogType (setsOf petFriends) =
      (petPlan.collect dogType (setsOf petFriends)).keys := (typed dogType _ petPlan_reaches).1
  rw [collected] at answered
  obtain ⟨type, known, -⟩ := completed _ "Pet" ⟨petPlan_resolves, rfl⟩
  exact ⟨petPlan_accepted, answered, type, known⟩

end GraphQL.Execution
