import GraphQL.Proofs.Execution.Arguments

/-! Arguments that have to be given. Validation demands those of the field that it sees, which may
be declared by an interface; execution demands those of the object type. -/
namespace GraphQL

/-- An argument that has to be given: it cannot be null, and nothing stands in for it. -/
def InputValue.Required (input : InputValue) : Prop :=
  input.type.isNonNull = true ∧ input.default = none

namespace Validation
open Ast (Node Document)

variable {schema : Schema} {document : Document} {scope : Scope} {ancestors : List Node}

theorem providedNonNullArguments_steady : Rule.providedNonNullArguments.Steady := by
  refine ofCheck_steady (fun _ => rfl) fun site => ?_
  split <;> rfl

/-- All that a field of an accepted document has to be given is given. -/
theorem required_given {field : Ast.Field} {outer : TypeDef} {declared : Field}
    (accepted : schema.validate document = some [])
    (entered : Entered schema (.document document) scope ancestors (.field field))
    (around : scope.parent = some outer)
    (found : schema.field? outer field.name.text = some declared)
    {input : InputValue} (inside : input ∈ declared.arguments.items) (required : input.Required) :
    ∃ argument ∈ field.arguments, argument.name.text = input.name := by
  have silent := entered.left rfl accepted
    (by simp [Rule.standard, Rule.providedNonNullArguments]) providedNonNullArguments_steady
  have definition : (scope.enter schema (.field field)).field = some declared := by
    show scope.parent.bind (fun parent => schema.field? parent field.name.text) = _
    rw [around, Option.bind_some, found]
  simp only [definition, Option.elim_some, Verdict.report, List.map_eq_nil_iff, Rule.missing,
    List.filter_eq_nil_iff] at silent
  have given := silent input inside
  rw [required.1, required.2] at given
  simpa using given

end Validation

namespace Execution
open Ast (Document)
open Validation (required_given)

variable {τ : Type}

/-- An interface of the object type has the field, but does not require an argument of a name. -/
def Site.Lenient (schema : Schema) (site : Site) (name : String) : Prop :=
  ∃ (interface : InterfaceType) (promised : Field),
    schema.type? interface.name = some (.interface interface) ∧
      schema.isPossibleType interface.name site.parent.name = true ∧
      interface.fields.find? site.field.name = some promised ∧
      ∀ argument ∈ promised.arguments.items, argument.name = name → ¬ argument.Required

section Faults
variable {schema : Schema} {bindings : Entries Value} {given : List Ast.Argument}

/-- The fault of arguments is that of one of them. -/
theorem argumentValues_error {items : List InputValue} {fault : ArgumentFault}
    (fails : argumentValues schema bindings given items = .error fault) :
    ∃ declared ∈ items, argumentValue schema bindings given declared = .error fault := by
  induction items with
  | nil => cases fails
  | cons first rest ih =>
    rw [argumentValues] at fails
    cases here : argumentValue schema bindings given first with
    | error other =>
      rw [here] at fails
      cases fails
      exact ⟨first, List.mem_cons_self, here⟩
    | ok value =>
      cases later : argumentValues schema bindings given rest with
      | error other =>
        rw [here, later] at fails
        cases fails
        obtain ⟨declared, inside, same⟩ := ih later
        exact ⟨declared, List.mem_cons_of_mem _ inside, same⟩
      | ok others =>
        rw [here, later] at fails
        cases fails

theorem absentValue_error {declared : InputValue} {fault found : ArgumentFault}
    (fails : absentValue declared fault = .error found) : declared.Required ∧ fault = found := by
  rw [absentValue] at fails
  split at fails
  · cases fails
  · rename_i without
    split at fails
    · rename_i solid
      cases fails
      exact ⟨⟨solid, without⟩, rfl⟩
    · cases fails

/-- An argument is missing where it is required and not given. -/
theorem argumentValue_missing {declared : InputValue} {name : String} {type : TypeRef}
    (fails : argumentValue schema bindings given declared = .error (.missing name type)) :
    declared.name = name ∧ declared.Required ∧
      ∀ argument ∈ given, argument.name.text ≠ declared.name := by
  rw [argumentValue] at fails
  split at fails
  · rename_i absent
    obtain ⟨required, same⟩ := absentValue_error fails
    cases same
    refine ⟨rfl, required, fun argument member named => ?_⟩
    exact List.find?_eq_none.1 (Option.map_eq_none_iff.1 absent) argument member
      (beq_iff_eq.2 named)
  · split at fails
    · cases fails
    · cases (absentValue_error fails).2
  · split at fails <;> cases fails

end Faults

section Required
variable {plan : Plan τ} {document : Document} {root : ObjectType} {site : Site}

/-- What a resolved field requires is given, or an interface does not require it. -/
theorem given_or_lenient (accepted : plan.Accepted document root)
    (resolves : plan.Resolves root site)
    {declared : InputValue} (inside : declared ∈ site.field.arguments.items)
    (required : declared.Required) :
    (∃ argument ∈ site.given, argument.name.text = declared.name) ∨
      site.Lenient plan.schema declared.name := by
  obtain ⟨-, -, x, user, outer, promised, result, answering, same⟩ := given_seen accepted resolves
  obtain ⟨scope, ancestors, ⟨entered, -⟩, around⟩ := answering.typed.entered
  have given {input : InputValue} (known : input ∈ promised.arguments.items)
      (due : input.Required) : ∃ argument ∈ site.given, argument.name.text = input.name :=
    same ▸ required_given accepted.accepted entered around answering.typed.field known due
  rcases accepted.built.selects_cases answering.typed.known answering.stands
    answering.typed.field with own | ⟨interface, rfl, possible, here⟩
  · rw [answering.found] at own
    cases own
    exact .inl (given inside required)
  · by_cases demanded : ∃ input ∈ promised.arguments.items,
      input.name = declared.name ∧ input.Required
    · obtain ⟨input, known, named, due⟩ := demanded
      exact .inl (named ▸ given known due)
    · refine .inr ⟨interface, promised, answering.typed.known, possible, ?_,
        fun input known named due => demanded ⟨input, known, named, due⟩⟩
      rwa [Schema.name_of_objectField? answering.found]

end Required
section Pets

def interface? : TypeDef → Option InterfaceType
  | .interface found => some found
  | _ => none

theorem petSchema_interface {interface : InterfaceType}
    (member : .interface interface ∈ petSchema.types) : interface = petType := by
  have interfaces : petSchema.types.filterMap interface? = [petType] := rfl
  have inside : interface ∈ petSchema.types.filterMap interface? :=
    List.mem_filterMap.2 ⟨_, member, rfl⟩
  rw [interfaces] at inside
  exact List.mem_singleton.1 inside

/-- The name of a dog, who has to be told whether to be loud. -/
def loudNameField : Field :=
  { name := "name", type := .named "String"
    arguments := ⟨[{ name := "loud", type := .nonNull (.named "Boolean") }], []⟩ }

/-- A friend, of whom no more is said. -/
def plainFriendField : Field := { name := "friend", type := .named "Pet" }

def quietPetType : InterfaceType :=
  { name := "Pet", fields := ⟨[{ name := "name", type := .named "String" }, plainFriendField], []⟩ }

def loudDogType : ObjectType :=
  { name := "Dog", interfaces := ["Pet"], fields := ⟨[loudNameField, plainFriendField], []⟩ }

def loudBuilder : SchemaBuilder :=
  { query := some "Dog", types := [.object loudDogType, .interface quietPetType] }

open GraphQL.Introspection in
/-- All pets are dogs, but only of dogs it is known that their names take an argument. -/
def loudSchema : Schema :=
  { query := loudDogType, mutation := none, subscription := none
    types := [.object loudDogType, .scalar .string, .scalar .boolean, .interface quietPetType,
      schemaType, typeType, typeKindType, fieldType, inputValueType, enumValueType, directiveType,
      directiveLocationType]
    directives := DirectiveDef.builtins }

theorem loudSchema_built : loudSchema.Built := by
  refine ⟨loudBuilder, SchemaBuilder.build_ok_iff.2 ⟨_, rfl, ?_, rfl, rfl, rfl, rfl, rfl, ?_⟩⟩
  · decide +kernel
  · decide +kernel

theorem loudSchema_plain : loudSchema.PlainNames := Schema.plainNames_of_all (by decide +kernel)

/-- The friend of the root, whose name is asked for as that of any pet. -/
def nameOfFriend : Ast.Field :=
  ⟨none, ⟨"friend", none⟩, [], [], some ⟨[.field petName], none⟩, none⟩

def nameOperation : Ast.OperationDefinition :=
  ⟨.query, none, [], [], ⟨[.field nameOfFriend], none⟩, none⟩

def nameDocument : Document := ⟨[.operation nameOperation], none⟩

def loudPlan : Plan Empty := ⟨loudSchema, [], .null, nameOperation, []⟩

theorem loudPlan_accepted : loudPlan.Accepted nameDocument loudDogType where
  built := loudSchema_built
  plain := loudSchema_plain
  accepted := by cbv
  fragments := rfl
  operation := List.mem_cons_self
  root := rfl

/-- The name of a dog, selected as that of a pet. -/
def loudSite : Site := ⟨loudDogType, loudNameField, [petName]⟩

theorem loudPlan_resolves : loudPlan.Resolves loudDogType loudSite := by
  have friends : loudPlan.collect loudDogType [nameOperation.selectionSet] =
      [("friend", [nameOfFriend])] := by cbv
  have names : loudPlan.collect loudDogType (setsOf [nameOfFriend]) = [("name", [petName])] := by
    cbv
  have friend : loudPlan.Resolves loudDogType ⟨loudDogType, plainFriendField, [nameOfFriend]⟩ :=
    ⟨_, "friend", .root, friends ▸ List.mem_cons_self, rfl⟩
  have reached : loudPlan.Reaches loudDogType loudDogType (setsOf [nameOfFriend]) :=
    reaches_of_resolves friend (.possible rfl rfl rfl (by decide +kernel))
  exact ⟨_, "name", reached, names ▸ List.mem_cons_self, rfl⟩

end Pets

/-- Whatever the field that an execution of an accepted document resolves requires is given in the
document, unless it was selected from an interface that does not require it; and no other argument
is ever missing. -/
theorem required_supplied {plan : Plan τ} {document : Document} {root : ObjectType} {site : Site}
    (accepted : plan.Accepted document root) (resolves : plan.Resolves root site) :
    (∀ declared ∈ site.field.arguments.items, declared.Required →
      (∃ argument ∈ site.given, argument.name.text = declared.name) ∨
        site.Lenient plan.schema declared.name) ∧
    ∀ name type, argumentValues plan.schema plan.bindings site.given site.field.arguments.items =
      .error (.missing name type) → site.Lenient plan.schema name := by
  refine ⟨fun declared inside required => given_or_lenient accepted resolves inside required,
    fun name type fails => ?_⟩
  obtain ⟨declared, inside, here⟩ := argumentValues_error fails
  obtain ⟨rfl, required, absent⟩ := argumentValue_missing here
  rcases given_or_lenient accepted resolves inside required with ⟨argument, member, named⟩ | lenient
  · exact absurd named (absent argument member)
  · exact lenient

/-- The year since when two are friends is required by all pets, and given. -/
theorem required_supplied_friend :
    petPlan.Accepted petDocument dogType ∧ petPlan.Resolves dogType friendSite ∧
      ∃ argument ∈ friendSite.given, argument.name.text = "since" := by
  refine ⟨petPlan_accepted, petPlan_resolves, ?_⟩
  rcases (required_supplied petPlan_accepted petPlan_resolves).1 _ List.mem_cons_self
    ⟨rfl, rfl⟩ with given | ⟨interface, promised, known, possible, found, lenient⟩
  · exact given
  · obtain rfl := petSchema_interface (Schema.mem_of_type? known)
    cases found
    exact absurd ⟨rfl, rfl⟩ (lenient _ List.mem_cons_self rfl)

/-- A document is accepted, and yet a required argument is missing. -/
theorem required_missing :
    loudPlan.Accepted nameDocument loudDogType ∧
      variableValues loudSchema [] nameOperation.variableDefinitions = .ok loudPlan.bindings ∧
      loudPlan.Resolves loudDogType loudSite ∧
      argumentValues loudSchema loudPlan.bindings loudSite.given loudSite.field.arguments.items =
        .error (.missing "loud" (.nonNull (.named "Boolean"))) ∧
      (ArgumentFault.missing "loud" (.nonNull (.named "Boolean"))).message =
        "Argument \"loud\" of required type \"Boolean!\" was not provided." :=
  ⟨loudPlan_accepted, rfl, loudPlan_resolves, rfl, rfl⟩

end Execution
end GraphQL
