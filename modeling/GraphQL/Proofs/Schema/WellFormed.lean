import GraphQL.Proofs.Entries
import GraphQL.Proofs.Schema.Typing

/-! Schemas are built from well-formed definitions, and from no others. What is asked of the
definitions is said of each by itself and of the names that it refers to, apart from the order in
which they are met. -/
namespace GraphQL

namespace SchemaBuilder

/-- All definitions: those given, and those that every schema may refer to. -/
def definitions (builder : SchemaBuilder) : List TypeDef := builder.types ++ knownTypes

/-- What a name stands for. A definition that is given comes before one that is not. -/
def type? (builder : SchemaBuilder) (name : String) : Option TypeDef :=
  findType? builder.definitions name

/-- Values of the first type can stand where the second one is declared. -/
inductive Subtype (builder : SchemaBuilder) : TypeRef → TypeRef → Prop
  | refl {type : TypeRef} : Subtype builder type type
  | implements {object : ObjectType} {interface : InterfaceType} :
      builder.type? object.name = some (.object object) →
      builder.type? interface.name = some (.interface interface) →
      interface.name ∈ object.interfaces →
      Subtype builder (.named object.name) (.named interface.name)
  | member {object : ObjectType} {union : UnionType} :
      builder.type? object.name = some (.object object) →
      builder.type? union.name = some (.union union) → object.name ∈ union.members →
      Subtype builder (.named object.name) (.named union.name)
  | list {sub super : TypeRef} : Subtype builder sub super →
      Subtype builder (.list sub) (.list super)
  | nonNull {sub super : TypeRef} : Subtype builder sub super →
      Subtype builder (.nonNull sub) (.nonNull super)
  | stricter {sub super : TypeRef} : super.isNonNull = false → Subtype builder sub super →
      Subtype builder (.nonNull sub) super

/-- An object type of a name is given. -/
def GivesObject (builder : SchemaBuilder) (name : String) : Prop :=
  ∃ object, .object object ∈ builder.types ∧ object.name = name

/-- An object has a field that an interface declares, and its arguments. -/
def Provides (builder : SchemaBuilder) (object : ObjectType) (declared : Field) : Prop :=
  ∃ field, object.fields.find? declared.name = some field ∧
    builder.Subtype field.type declared.type ∧
    ∀ argument ∈ declared.arguments.items,
      ∃ found, field.arguments.find? argument.name = some found ∧ found.type = argument.type

/-- What definitions have to be for a schema to be built from them. -/
structure WellFormed (builder : SchemaBuilder) : Prop where
  query : ∃ name, builder.query = some name ∧ builder.GivesObject name
  mutation : ∀ name, builder.mutation = some name → builder.GivesObject name
  subscription : ∀ name, builder.subscription = some name → builder.GivesObject name
  unreserved : ∀ type ∈ builder.types, type.name.startsWith "__" = false
  distinct : (builder.types.map TypeDef.name).Nodup
  known : ∀ type ∈ builder.definitions, ∀ name ∈ type.references, Known builder.definitions name
  knownArguments : ∀ directive ∈ builder.allDirectives, ∀ argument ∈ directive.arguments,
    Known builder.definitions argument.type.innermost
  wrapped : ∀ type ∈ builder.definitions, ∀ ref ∈ type.typeRefs, ref.hasNestedNonNull = false
  wrappedArguments : ∀ directive ∈ builder.allDirectives, ∀ argument ∈ directive.arguments,
    argument.type.hasNestedNonNull = false
  unrepeated : ∀ type ∈ builder.definitions, type.repeated = []
  distinctRelatives : ∀ type ∈ builder.definitions, type.relatives.Nodup
  distinctDirectives : (builder.allDirectives.map DirectiveDef.name).Nodup
  interfaces : ∀ object, .object object ∈ builder.definitions → ∀ name ∈ object.interfaces,
    ∃ interface, builder.type? name = some (.interface interface)
  members : ∀ union, .union union ∈ builder.definitions → ∀ name ∈ union.members,
    ∃ object, builder.type? name = some (.object object)
  outputs : ∀ type ∈ builder.definitions, ∀ field ∈ type.outputs,
    ∃ found, builder.type? field.type.innermost = some found ∧ found.isOutput = true
  inputs : ∀ type ∈ builder.definitions, ∀ input ∈ type.inputs,
    ∃ found, builder.type? input.type.innermost = some found ∧ found.isInput = true
  inputArguments : ∀ directive ∈ builder.allDirectives, ∀ argument ∈ directive.arguments,
    ∃ found, builder.type? argument.type.innermost = some found ∧ found.isInput = true
  implements : ∀ object, .object object ∈ builder.definitions → ∀ name ∈ object.interfaces,
    ∀ interface, builder.type? name = some (.interface interface) →
      ∀ declared ∈ interface.fields.items, builder.Provides object declared

end SchemaBuilder

/-- The types of a schema are closed under reference: each is the only one of its name, the root
types are among them, and all that types and the arguments of directives refer to. -/
structure Schema.Closed (schema : Schema) : Prop where
  unique : ∀ type ∈ schema.types, schema.type? type.name = some type
  roots : ∀ operation root, schema.rootType? operation = some root → .object root ∈ schema.types
  types : ∀ type ∈ schema.types, ∀ name ∈ type.references, Known schema.types name
  arguments : ∀ directive ∈ schema.directives, ∀ argument ∈ directive.arguments,
    Known schema.types argument.type.innermost

namespace SchemaBuilder

section Looking
variable {builder : SchemaBuilder} {schema : Schema}

/-- The types of a schema are those of the builder. -/
def Stems (builder : SchemaBuilder) (schema : Schema) : Prop :=
  ∀ type ∈ schema.types, builder.type? type.name = some type

theorem Stems.type? (stems : builder.Stems schema) {name : String} {type : TypeDef}
    (found : schema.type? name = some type) : builder.type? name = some type := by
  rw [← Schema.name_of_type? found]
  exact stems type (Schema.mem_of_type? found)

/-- A name that a schema knows stands for what it stands for in the builder. -/
theorem Stems.type?_eq (stems : builder.Stems schema) {name : String}
    (known : Known schema.types name) : schema.type? name = builder.type? name := by
  obtain ⟨type, member, named⟩ := known
  have some_ : (schema.type? name).isSome = true :=
    List.find?_isSome.2 ⟨type, member, beq_iff_eq.2 named⟩
  obtain ⟨found, here⟩ := Option.isSome_iff_exists.1 some_
  rw [here, stems.type? here]

theorem Stems.mem (stems : builder.Stems schema) {type : TypeDef} (member : type ∈ schema.types) :
    type ∈ builder.definitions := List.mem_of_find?_eq_some (stems type member)

theorem object?_eq_some_iff {type : TypeDef} {object : ObjectType} :
    type.object? = some object ↔ type = .object object := by
  cases type <;> simp [TypeDef.object?]

/-- An object type that can stand for another type says so, or the other one does. -/
theorem Stems.possible (stems : builder.Stems schema) {abstract name : String}
    (possible : schema.isPossibleType abstract name = true) :
    builder.Subtype (.named name) (.named abstract) := by
  obtain ⟨object, member, named⟩ := List.any_eq_true.1 possible
  obtain rfl : object.name = name := beq_iff_eq.1 named
  rw [Schema.possibleTypes] at member
  split at member
  · rename_i interface found
    obtain rfl : interface.name = abstract := Schema.name_of_type? found
    obtain ⟨member, listed⟩ := List.mem_filter.1 member
    obtain ⟨type, member, same⟩ := List.mem_filterMap.1 member
    obtain rfl := object?_eq_some_iff.1 same
    exact .implements (stems _ member) (stems.type? found) (by simpa using listed)
  · rename_i union found
    obtain rfl : union.name = abstract := Schema.name_of_type? found
    obtain ⟨name, member, same⟩ := List.mem_filterMap.1 member
    obtain ⟨type, known, same⟩ := Option.bind_eq_some_iff.1 same
    obtain rfl := object?_eq_some_iff.1 same
    obtain rfl : object.name = name := Schema.name_of_type? known
    exact .member (stems.type? known) (stems.type? found) member
  · cases member

/-- Subtypes in a schema are subtypes in the builder. -/
theorem Stems.subtype (stems : builder.Stems schema) {sub super : TypeRef}
    (fits : schema.isSubtype sub super = true) : builder.Subtype sub super := by
  induction sub generalizing super with
  | named name =>
    rw [Schema.isSubtype.eq_def, Bool.or_eq_true] at fits
    rcases fits with same | fits
    · rw [beq_iff_eq] at same
      exact same ▸ .refl
    · cases super with
      | named other =>
        rw [Bool.and_eq_true] at fits
        exact stems.possible fits.2
      | _ => cases fits
  | list item ih =>
    rw [Schema.isSubtype.eq_def, Bool.or_eq_true] at fits
    rcases fits with same | fits
    · rw [beq_iff_eq] at same
      exact same ▸ .refl
    · cases super with
      | list other => exact .list (ih fits)
      | _ => cases fits
  | nonNull type ih =>
    rw [Schema.isSubtype.eq_def, Bool.or_eq_true] at fits
    rcases fits with same | fits
    · rw [beq_iff_eq] at same
      exact same ▸ .refl
    · cases super with
      | nonNull other => exact .nonNull (ih fits)
      | _ => exact .stricter rfl (ih fits)

theorem isSubtype_of_possible {name : String} {type : TypeDef} {object : ObjectType}
    (found : schema.type? name = some type) (abstract : type.isAbstract = true)
    (possible : object ∈ schema.possibleTypes name) :
    schema.isSubtype (.named object.name) (.named name) = true := by
  rw [Schema.isSubtype.eq_def, Bool.or_eq_true]
  refine .inr ?_
  dsimp only
  rw [found, Bool.and_eq_true]
  exact ⟨abstract, List.any_eq_true.2 ⟨object, possible, beq_self_eq_true _⟩⟩

/-- Subtypes in the builder are subtypes in a schema that knows them. -/
theorem Subtype.isSubtype (stems : builder.Stems schema) {sub super : TypeRef}
    (subtype : builder.Subtype sub super) (lower : Known schema.types sub.innermost)
    (upper : Known schema.types super.innermost) : schema.isSubtype sub super = true := by
  induction subtype with
  | refl => exact Schema.isSubtype_refl schema _
  | @implements object interface here there listed =>
    have here : schema.type? object.name = _ := (stems.type?_eq lower).trans here
    have there : schema.type? interface.name = _ := (stems.type?_eq upper).trans there
    refine isSubtype_of_possible there rfl ?_
    rw [Schema.possibleTypes, there]
    exact List.mem_filter.2
      ⟨List.mem_filterMap.2 ⟨_, Schema.mem_of_type? here, rfl⟩, by simpa using listed⟩
  | @member object union here there listed =>
    have here : schema.type? object.name = _ := (stems.type?_eq lower).trans here
    have there : schema.type? union.name = _ := (stems.type?_eq upper).trans there
    refine isSubtype_of_possible there rfl ?_
    rw [Schema.possibleTypes, there]
    exact List.mem_filterMap.2 ⟨object.name, listed, by rw [Schema.object?, here]; rfl⟩
  | list _ ih =>
    rw [Schema.isSubtype.eq_def, Bool.or_eq_true]
    exact .inr (ih lower upper)
  | nonNull _ ih =>
    rw [Schema.isSubtype.eq_def, Bool.or_eq_true]
    exact .inr (ih lower upper)
  | @stricter sub super strict _ ih =>
    rw [Schema.isSubtype.eq_def, Bool.or_eq_true]
    cases super with
    | nonNull _ => cases strict
    | _ => exact .inr (ih lower upper)

end Looking

section Accepting
variable {builder : SchemaBuilder} {schema : Schema}

theorem root_ok_iff (distinct : (builder.types.map TypeDef.name).Nodup) {name : String} :
    (∃ object, builder.root name = .ok object) ↔ builder.GivesObject name := by
  rw [root]
  constructor
  · rintro ⟨object, found⟩
    cases here : (findType? builder.types name).bind TypeDef.object? with
    | none => simp [here] at found
    | some object =>
      obtain ⟨type, known, same⟩ := Option.bind_eq_some_iff.1 here
      obtain rfl := object?_eq_some_iff.1 same
      have named : (TypeDef.object object).name = name := by simpa using List.find?_some known
      exact ⟨object, List.mem_of_find?_eq_some known, named⟩
  · rintro ⟨object, member, rfl⟩
    have found : findType? builder.types object.name = some (.object object) :=
      find?_of_distinct distinct member
    rw [found]
    exact ⟨object, rfl⟩

theorem optionalRoot_ok_iff (distinct : (builder.types.map TypeDef.name).Nodup)
    {name : Option String} : (∃ object, builder.optionalRoot name = .ok object) ↔
      ∀ given, name = some given → builder.GivesObject given := by
  cases name with
  | none => simp [optionalRoot]
  | some name =>
    simp only [Option.some.injEq, forall_eq', ← root_ok_iff distinct, optionalRoot]
    cases builder.root name <;> simp

/-- What is gathered knows all names that it refers to, and those that directives refer to. -/
theorem gathered_closed {types : List TypeDef} (gathered : builder.gatherTypes = .ok types) :
    (∀ type ∈ types, ∀ name ∈ type.references, Known types name) ∧
      ∀ directive ∈ builder.allDirectives, ∀ argument ∈ directive.arguments,
        Known types argument.type.innermost := by
  obtain ⟨met, inner⟩ := gathered_meets gathered
  have demanded : ∀ demand ∈ directiveDemands [] builder.allDirectives, demand.Met types :=
    fun demand member => met demand (by simp [initialDemands, member])
  exact ⟨fun type member => ((demands_met_iff type).1 (inner type member)).2.2,
    fun directive member argument inside =>
      (((directiveDemands_met_iff [] _).1 demanded).2.2 directive member argument inside).2⟩

theorem output_mem_typeRefs {type : TypeDef} {field : Field} (inside : field ∈ type.outputs) :
    field.type ∈ type.typeRefs := by
  cases type with
  | object _ | interface _ => exact List.mem_flatMap.2 ⟨field, inside, List.mem_cons_self⟩
  | _ => cases inside

theorem input_mem_typeRefs {type : TypeDef} {input : InputValue} (inside : input ∈ type.inputs) :
    input.type ∈ type.typeRefs := by
  cases type with
  | object _ | interface _ =>
    obtain ⟨field, inside, given⟩ := List.mem_flatMap.1 inside
    exact List.mem_flatMap.2
      ⟨field, inside, List.mem_cons_of_mem _ (List.mem_map_of_mem given)⟩
  | inputObject _ => exact List.mem_map_of_mem inside
  | _ => cases inside

/-- All definitions that are given are among the types of a schema, as are those by which it
describes itself. Other scalars may be missing. -/
theorem definitions_cases (built : builder.build = .ok schema) {type : TypeDef}
    (member : type ∈ builder.definitions) :
    type ∈ schema.types ∨ ∃ scalar, type = .scalar scalar := by
  obtain ⟨_, _, registered, gathered, _⟩ := build_ok_iff.1 built
  obtain ⟨own, met⟩ := gatherTypes_ok gathered
  rcases List.mem_append.1 member with given | known
  · obtain ⟨distinct, -, -⟩ := (registrationErrors_eq_nil_iff [] builder.types).1 registered
    have first : findType? builder.types type.name = some type := find?_of_distinct distinct given
    exact .inl (Schema.mem_of_type? (findType?_gathered gathered type first))
  · rcases List.mem_append.1 known with builtin | described
    · obtain ⟨scalar, -, rfl⟩ := List.mem_map.1 builtin
      exact .inr ⟨scalar, rfl⟩
    · exact .inl (Schema.Built.introspects ⟨builder, built⟩ described)

/-- What a schema is built from is well-formed. -/
theorem wellFormed_of_build (built : builder.build = .ok schema) : builder.WellFormed := by
  obtain ⟨query, named, registered, gathered, first, second, third, directives, faultless⟩ :=
    build_ok_iff.1 built
  obtain ⟨distinct, -, unreserved⟩ :=
    (registrationErrors_eq_nil_iff [] builder.types).1 registered
  have stems : builder.Stems schema := (gatherTypes_ok gathered).1
  obtain ⟨met, inner⟩ := gathered_meets gathered
  obtain ⟨faults, arguments⟩ := schemaErrors_eq_nil_iff.1 faultless
  rw [directives] at arguments
  have demanded : ∀ demand ∈ directiveDemands [] builder.allDirectives, demand.Met schema.types :=
    fun demand member => met demand (by simp [initialDemands, member])
  obtain ⟨distinctDirectives, -, argumentsMet⟩ := (directiveDemands_met_iff [] _).1 demanded
  have within {name : String} (known : Known schema.types name) :
      Known builder.definitions name := known.imp fun type here => ⟨stems.mem here.1, here.2⟩
  have looked {name : String} {kind : TypeDef → Bool}
      (placed : ∃ found, schema.type? name = some found ∧ kind found = true) :
      ∃ found, builder.type? name = some found ∧ kind found = true :=
    placed.imp fun type here => ⟨stems.type? here.1, here.2⟩
  -- Scalars that are not referred to have nothing that could be wrong with them.
  have every {fine : TypeDef → Prop} (scalars : ∀ scalar, fine (.scalar scalar))
      (types : ∀ type ∈ schema.types, fine type) : ∀ type ∈ builder.definitions, fine type := by
    intro type member
    rcases definitions_cases built member with member | ⟨scalar, rfl⟩
    · exact types type member
    · exact scalars scalar
  have demands (type : TypeDef) (member : type ∈ schema.types) :=
    (demands_met_iff type).1 (inner type member)
  have objects (object : ObjectType) (member : .object object ∈ builder.definitions) :
      .object object ∈ schema.types :=
    (definitions_cases built member).resolve_right (by simp)
  exact {
    query := ⟨query, named, (root_ok_iff distinct).1 ⟨_, first⟩⟩
    mutation := (optionalRoot_ok_iff distinct).1 ⟨_, second⟩
    subscription := (optionalRoot_ok_iff distinct).1 ⟨_, third⟩
    unreserved := unreserved
    distinct := distinct
    known := every (fun _ _ member => absurd member List.not_mem_nil) fun type member name inside =>
      within ((demands type member).2.2 name inside)
    knownArguments := fun directive member argument inside =>
      within (argumentsMet directive member argument inside).2
    wrapped := every (fun _ _ member => absurd member List.not_mem_nil) fun type member =>
      (demands type member).2.1
    wrappedArguments := fun directive member argument inside =>
      (argumentsMet directive member argument inside).1
    unrepeated := every (fun _ => rfl) fun type member => (demands type member).1
    distinctRelatives := every (fun _ => List.nodup_nil) fun type member => by
      obtain ⟨objects, unions⟩ := (membershipErrors_eq_nil_iff type).1 (faults type member).1
      cases type with
      | object object => exact (objects object rfl).1
      | union union => exact (unions union rfl).1
      | _ => exact List.nodup_nil
    distinctDirectives := distinctDirectives
    interfaces := fun object member name inside => by
      obtain ⟨objects, -⟩ :=
        (membershipErrors_eq_nil_iff _).1 (faults _ (objects object member)).1
      exact ((objects object rfl).2 name inside).imp fun interface found => stems.type? found
    members := fun union member name inside => by
      have member : .union union ∈ schema.types :=
        (definitions_cases built member).resolve_right (by simp)
      obtain ⟨-, unions⟩ := (membershipErrors_eq_nil_iff _).1 (faults _ member).1
      exact ((unions union rfl).2 name inside).imp fun object found => stems.type? found
    outputs := every (fun _ _ member => absurd member List.not_mem_nil)
      fun type member field inside =>
        looked (((positionErrors_eq_nil_iff type).1 (faults type member).2.1).1 field inside)
    inputs := every (fun _ _ member => absurd member List.not_mem_nil)
      fun type member input inside =>
        looked (((positionErrors_eq_nil_iff type).1 (faults type member).2.1).2 input inside)
    inputArguments := fun directive member argument inside =>
      looked (arguments directive member argument inside)
    implements := fun object member name inside interface found declared here => by
      have member := objects object member
      have known := (demands _ member).2.2 name (List.mem_append_right _ inside)
      obtain ⟨field, has, fits, arguments⟩ := (implementationErrors_eq_nil_iff _).1
        (faults _ member).2.2 object rfl name inside interface
        ((stems.type?_eq known).trans found) declared here
      refine ⟨field, has, stems.subtype fits, fun argument given => ?_⟩
      exact Option.map_eq_some_iff.1 (arguments argument given) }

/-- Nothing is wrong with the types that are gathered from well-formed definitions. -/
theorem WellFormed.faultless (wellFormed : builder.WellFormed)
    (gathered : builder.gatherTypes = .ok schema.types)
    (directives : schema.directives = builder.allDirectives) : schemaErrors schema = [] := by
  have stems : builder.Stems schema := (gatherTypes_ok gathered).1
  obtain ⟨references, arguments⟩ := gathered_closed gathered
  have looked {name : String} {kind : TypeDef → Bool} (known : Known schema.types name)
      (placed : ∃ found, builder.type? name = some found ∧ kind found = true) :
      ∃ found, schema.type? name = some found ∧ kind found = true := by
    rwa [stems.type?_eq known]
  have written {type : TypeDef} (member : type ∈ schema.types) {ref : TypeRef}
      (inside : ref ∈ type.typeRefs) : Known schema.types ref.innermost :=
    references type member _ (List.mem_append_left _ (List.mem_map_of_mem inside))
  have related {type : TypeDef} (member : type ∈ schema.types) {name : String}
      (inside : name ∈ type.relatives) : Known schema.types name :=
    references type member name (List.mem_append_right _ inside)
  refine schemaErrors_eq_nil_iff.2 ⟨fun type member => ?_, fun directive member argument inside => ?_⟩
  · have stems_ := stems.mem member
    refine ⟨?_, ?_, ?_⟩
    · refine (membershipErrors_eq_nil_iff type).2 ⟨?_, ?_⟩
      · rintro object rfl
        refine ⟨wellFormed.distinctRelatives _ stems_, fun name inside => ?_⟩
        exact (wellFormed.interfaces object stems_ name inside).imp fun interface found =>
          (stems.type?_eq (related member inside)).trans found
      · rintro union rfl
        refine ⟨wellFormed.distinctRelatives _ stems_, fun name inside => ?_⟩
        exact (wellFormed.members union stems_ name inside).imp fun object found =>
          (stems.type?_eq (related member inside)).trans found
    · refine (positionErrors_eq_nil_iff type).2 ⟨fun field inside => ?_, fun input inside => ?_⟩
      · exact looked (written member (output_mem_typeRefs inside))
          (wellFormed.outputs type stems_ field inside)
      · exact looked (written member (input_mem_typeRefs inside))
          (wellFormed.inputs type stems_ input inside)
    · refine (implementationErrors_eq_nil_iff type).2 ?_
      rintro object rfl name inside interface found declared here
      obtain ⟨field, has, fits, arguments⟩ := wellFormed.implements object stems_ name inside
        interface (stems.type? found) declared here
      refine ⟨field, has, fits.isSubtype stems ?_ ?_, fun argument given => ?_⟩
      · exact written member (output_mem_typeRefs (List.mem_of_find?_eq_some has))
      · exact written (Schema.mem_of_type? found) (output_mem_typeRefs here)
      · exact Option.map_eq_some_iff.2 (arguments argument given)
  · rw [directives] at member
    exact looked (arguments directive member argument inside)
      (wellFormed.inputArguments directive member argument inside)

/-- A schema is built from what is well-formed. -/
theorem WellFormed.builds (wellFormed : builder.WellFormed) :
    ∃ schema, builder.build = .ok schema := by
  obtain ⟨query, named, given⟩ := wellFormed.query
  have distinct := wellFormed.distinct
  obtain ⟨root, first⟩ := (root_ok_iff distinct).2 given
  obtain ⟨mutation, second⟩ := (optionalRoot_ok_iff distinct).2 wellFormed.mutation
  obtain ⟨subscription, third⟩ := (optionalRoot_ok_iff distinct).2 wellFormed.subscription
  have registered : registrationErrors [] builder.types = [] :=
    (registrationErrors_eq_nil_iff _ _).2
      ⟨distinct, fun _ _ => List.not_mem_nil, wellFormed.unreserved⟩
  have each (type : TypeDef) (member : type ∈ builder.definitions) :
      ∀ demand ∈ demands type, demand.Met builder.definitions :=
    (demands_met_iff type).2 ⟨wellFormed.unrepeated type member, wellFormed.wrapped type member,
      wellFormed.known type member⟩
  have met : ∀ demand ∈ builder.initialDemands, demand.Met builder.definitions := by
    refine List.forall_mem_append.2 ⟨List.forall_mem_append.2 ⟨?_, ?_⟩, ?_⟩
    · refine List.forall_mem_map.2 fun type member => ⟨type, ?_, rfl⟩
      exact List.mem_append_left _ member
    · exact (directiveDemands_met_iff [] _).2 ⟨wellFormed.distinctDirectives,
        fun _ _ => List.not_mem_nil, fun directive member argument inside =>
          ⟨wellFormed.wrappedArguments directive member argument inside,
            wellFormed.knownArguments directive member argument inside⟩⟩
    · refine List.forall_mem_singleton.2 ⟨Introspection.schemaType, ?_, rfl⟩
      exact List.mem_append_right _ (List.mem_append_right _ List.mem_cons_self)
  obtain ⟨types, gathered⟩ : ∃ types, builder.gatherTypes = .ok types :=
    gather_succeeds _ _ _ met each
  let schema : Schema := ⟨root, mutation, subscription, types, builder.allDirectives⟩
  have faultless : schemaErrors schema = [] := wellFormed.faultless gathered rfl
  exact ⟨schema, build_ok_iff.2 ⟨query, named, registered, gathered, first, second, third, rfl,
    faultless⟩⟩

/-- The types of a schema that has been built are closed under reference. -/
theorem closed_of_build (built : builder.build = .ok schema) : schema.Closed := by
  obtain ⟨_, _, _, gathered, _, _, _, directives, _⟩ := build_ok_iff.1 built
  obtain ⟨references, arguments⟩ := gathered_closed gathered
  have built : schema.Built := ⟨builder, built⟩
  exact ⟨fun type member => built.unique member,
    fun operation root found => Schema.mem_of_type? (built.rootType operation found), references,
    fun directive member => arguments directive (directives ▸ member)⟩

end Accepting
section Zoo

def friendsField (type : TypeRef) : Field :=
  { name := "friends", type, arguments := .ofList [{ name := "first", type := .named "Int" }] }

def animalType : InterfaceType :=
  { name := "Animal", fields := .ofList [friendsField (.list (.named "Animal"))] }

def catType : ObjectType :=
  { name := "Cat", fields := .ofList [friendsField (.nonNull (.list (.named "Cat")))]
    interfaces := ["Animal"] }

def zooType : ObjectType :=
  { name := "Zoo", fields := .ofList [{ name := "guest", type := .named "Guest" }] }

/-- A zoo whose guests are cats, which have the friends that all animals have. -/
def zooBuilder : SchemaBuilder :=
  { query := some "Zoo"
    types := [.object zooType, .union { name := "Guest", members := ["Cat"] }, .object catType,
      .interface animalType] }

end Zoo

/-- A schema is built exactly from well-formed definitions, and its types are closed under
reference. -/
theorem build_accepts (builder : SchemaBuilder) :
    ((∃ schema, builder.build = .ok schema) ↔ builder.WellFormed) ∧
      ∀ schema, builder.build = .ok schema → schema.Closed :=
  ⟨⟨fun ⟨_, built⟩ => wellFormed_of_build built, WellFormed.builds⟩, fun _ => closed_of_build⟩

/-- The zoo is well-formed, so that its schema knows all types that are met from it. -/
theorem build_accepts_zoo : zooBuilder.WellFormed ∧ ∃ schema, zooBuilder.build = .ok schema ∧
    schema.Closed ∧ schema.types.map TypeDef.name =
      ["Zoo", "Guest", "Cat", "Int", "Animal", "Boolean", "String", "__Schema", "__Type",
        "__TypeKind", "__Field", "__InputValue", "__EnumValue", "__Directive",
        "__DirectiveLocation"] := by
  have built : (zooBuilder.build.toOption.map fun schema => schema.types.map TypeDef.name) =
      some ["Zoo", "Guest", "Cat", "Int", "Animal", "Boolean", "String", "__Schema", "__Type",
        "__TypeKind", "__Field", "__InputValue", "__EnumValue", "__Directive",
        "__DirectiveLocation"] := by decide +kernel
  obtain ⟨schema, some_, names⟩ := Option.map_eq_some_iff.1 built
  cases result : zooBuilder.build with
  | error _ =>
    rw [result] at some_
    cases some_
  | ok other =>
    obtain rfl : other = schema := by
      rw [result] at some_
      exact Option.some.inj some_
    obtain ⟨accepts, closed⟩ := build_accepts zooBuilder
    exact ⟨accepts.1 ⟨other, result⟩, other, rfl, closed other result, names⟩

end SchemaBuilder
end GraphQL
