import GraphQL.Proofs.Schema.Faultless

/-! The types of a built schema fit together: references are known and stand where they may, and
the objects that can stand for a type have its fields, with types that can stand for theirs. -/
namespace GraphQL
open SchemaBuilder

namespace SchemaBuilder
variable {builder : SchemaBuilder} {schema : Schema}

/-- Names that begin with two underscores are reserved. -/
theorem build_unreserved (built : builder.build = .ok schema) :
    ∀ type ∈ builder.types, type.name.startsWith "__" = false := by
  obtain ⟨_, _, registered, _⟩ := build_ok_iff.1 built
  exact ((registrationErrors_eq_nil_iff [] builder.types).1 registered).2.2

end SchemaBuilder

namespace Schema
variable {schema : Schema}

/-- No type has a field whose name begins with two underscores. -/
def PlainNames (schema : Schema) : Prop :=
  ∀ type ∈ schema.types, ∀ fields, type.fields? = some fields → ∀ field ∈ fields.items,
    field.name.startsWith "__" = false

theorem plainNames_of_all (all : (schema.types.all fun type =>
    (type.fields?.toList.flatMap Definitions.items).all
      fun field => !field.name.startsWith "__") = true) : schema.PlainNames := by
  intro type member fields has field inside
  have here := List.all_eq_true.1 (List.all_eq_true.1 all type member) field
    (by rw [has]; simpa using inside)
  simpa using here

/-- Objects of a type can be selected from as another type. -/
def StandsFor (schema : Schema) (object : ObjectType) (type : TypeDef) : Prop :=
  type = .object object ∨ type.isAbstract = true ∧ schema.isPossibleType type.name object.name = true

/-- Of the types that values can be given out at, those that are no leaves have selections. -/
theorem composite_of_output {type : TypeDef} (output : type.isOutput = true)
    (notLeaf : ¬ type.isLeaf = true) : type.isComposite = true := by
  cases type with
  | scalar _ | enum _ => exact absurd rfl notLeaf
  | inputObject _ => cases output
  | _ => rfl

section Known

/-- A type is the only one of its name. -/
theorem Built.unique (built : schema.Built) {type : TypeDef} (member : type ∈ schema.types) :
    schema.type? type.name = some type := by
  obtain ⟨builder, built⟩ := built
  obtain ⟨_, _, gathered, _⟩ := build_ok built
  obtain ⟨own, -⟩ := gatherTypes_ok gathered
  have some_ : (schema.type? type.name).isSome = true :=
    List.find?_isSome.2 ⟨type, member, by simp⟩
  obtain ⟨found, here⟩ := Option.isSome_iff_exists.1 some_
  have first := own found (List.mem_of_find?_eq_some here)
  rw [name_of_type? here, own type member] at first
  cases first
  exact here

theorem mem_of_type? {name : String} {type : TypeDef} (found : schema.type? name = some type) :
    type ∈ schema.types := List.mem_of_find?_eq_some found

theorem type?_of_object? {name : String} {object : ObjectType}
    (found : schema.object? name = some object) : schema.type? object.name = some (.object object) := by
  obtain ⟨type, known, same⟩ := Option.bind_eq_some_iff.1 found
  cases type with
  | object _ =>
    cases same
    exact type?_name known
  | _ => cases same

/-- Types with reserved names are those by which schemas describe themselves. -/
theorem Built.reserved (built : schema.Built) {name : String} {type : TypeDef}
    (found : schema.type? name = some type) (reserved : name.startsWith "__" = true) :
    findType? knownTypes name = some type := by
  obtain ⟨builder, built⟩ := built
  obtain ⟨_, _, gathered, _⟩ := build_ok built
  have known := (gatherTypes_ok gathered).1 type (mem_of_type? found)
  have unreserved := build_unreserved built
  have absent : builder.types.find? (fun other => other.name == name) = none := by
    rw [List.find?_eq_none]
    intro other inside same
    have plain := unreserved other inside
    rw [beq_iff_eq.1 same, reserved] at plain
    cases plain
  rwa [name_of_type? found, findType?, List.find?_append, absent, Option.none_or] at known

theorem Built.schemaType (built : schema.Built) :
    schema.type? "__Schema" = some Introspection.schemaType := by
  have met : ∃ type ∈ schema.types, type.name = "__Schema" := by
    obtain ⟨builder, built⟩ := built
    obtain ⟨_, _, gathered, _⟩ := build_ok built
    exact (gathered_ok gathered).2 _ none (by simp [initialDemands])
  obtain ⟨type, member, named⟩ := met
  have found := built.unique member
  rw [named] at found
  have known := built.reserved found (by decide +kernel)
  rw [show findType? knownTypes "__Schema" = some Introspection.schemaType by rfl] at known
  rwa [← known] at found

end Known

section Positions

theorem Built.implements (built : schema.Built) {type : TypeDef} (member : type ∈ schema.types) :
    implementationErrors schema type = [] :=
  ((schemaErrors_eq_nil_iff.1 built.faultless).1 type member).2.2

theorem mem_outputs {type : TypeDef} {fields : Definitions Field} (has : type.fields? = some fields)
    {field : Field} (inside : field ∈ fields.items) : field ∈ type.outputs := by
  cases type with
  | object _ | interface _ =>
    cases has
    exact inside
  | _ => cases has

/-- The type of a field is known, and values can be given out at it. -/
theorem Built.field_output (built : schema.Built) {type : TypeDef} (member : type ∈ schema.types)
    {fields : Definitions Field} (has : type.fields? = some fields) {field : Field}
    (inside : field ∈ fields.items) :
    ∃ found, schema.named? field.type = some found ∧ found.isOutput = true := by
  have positions := ((schemaErrors_eq_nil_iff.1 built.faultless).1 type member).2.1
  exact ((positionErrors_eq_nil_iff type).1 positions).1 field (mem_outputs has inside)

/-- The type of an input field is known, and values can be taken at it. -/
theorem Built.inputField_input (built : schema.Built) {input : InputObjectType}
    (member : .inputObject input ∈ schema.types) {field : InputValue}
    (inside : field ∈ input.fields.items) :
    ∃ found, schema.named? field.type = some found ∧ found.isInput = true := by
  have positions := ((schemaErrors_eq_nil_iff.1 built.faultless).1 _ member).2.1
  exact ((positionErrors_eq_nil_iff _).1 positions).2 field inside

/-- The types that the fields of a type lead to. -/
theorem Built.leads (built : schema.Built) {name inner : String} {type : TypeDef}
    {fields : Definitions Field} (found : schema.type? name = some type)
    (has : type.fields? = some fields)
    (member : inner ∈ fields.items.map fun field => field.type.innermost) :
    ∃ found, schema.type? inner = some found ∧ found.isOutput = true := by
  obtain ⟨field, inside, rfl⟩ := List.mem_map.1 member
  exact built.field_output (mem_of_type? found) has inside

/-- The types by which a schema describes itself lead to one another. -/
theorem Built.describes (built : schema.Built) {name inner : String} {type other : TypeDef}
    {fields : Definitions Field} (found : schema.type? name = some type)
    (has : type.fields? = some fields)
    (member : inner ∈ fields.items.map fun field => field.type.innermost)
    (reserved : inner.startsWith "__" = true) (known : findType? knownTypes inner = some other) :
    schema.type? inner = some other := by
  obtain ⟨type, found, -⟩ := built.leads found has member
  have same := built.reserved found reserved
  rw [known] at same
  rwa [same]

theorem Built.typeType (built : schema.Built) :
    schema.type? "__Type" = some Introspection.typeType :=
  built.describes built.schemaType rfl (show "__Type" ∈ _ from List.mem_cons_self)
    (by decide +kernel) rfl

/-- Every schema has all types by which schemas describe themselves. -/
theorem Built.introspects (built : schema.Built) : Introspection.types ⊆ schema.types := by
  have field := built.describes built.typeType rfl (show "__Field" ∈ _ by decide)
    (by decide +kernel) (show _ = some Introspection.fieldType from rfl)
  have value := built.describes built.typeType rfl (show "__InputValue" ∈ _ by decide)
    (by decide +kernel) (show _ = some Introspection.inputValueType from rfl)
  have enum := built.describes built.typeType rfl (show "__EnumValue" ∈ _ by decide)
    (by decide +kernel) (show _ = some Introspection.enumValueType from rfl)
  have kind := built.describes built.typeType rfl (show "__TypeKind" ∈ _ by decide)
    (by decide +kernel) (show _ = some Introspection.typeKindType from rfl)
  have directive := built.describes built.schemaType rfl (show "__Directive" ∈ _ by decide)
    (by decide +kernel) (show _ = some Introspection.directiveType from rfl)
  have location := built.describes directive rfl (show "__DirectiveLocation" ∈ _ by decide)
    (by decide +kernel) (show _ = some Introspection.directiveLocationType from rfl)
  simp only [Introspection.types, List.cons_subset, List.nil_subset, and_true]
  exact ⟨mem_of_type? built.schemaType, mem_of_type? built.typeType, mem_of_type? field,
    mem_of_type? value, mem_of_type? enum, mem_of_type? directive, mem_of_type? kind,
    mem_of_type? location⟩

/-- Which fields types have without defining them. -/
theorem metaField?_cases {parent : TypeDef} {name : String} {field : Field}
    (found : schema.metaField? parent name = some field) :
    (name = "__schema" ∧ parent.name = schema.query.name ∧ field = Introspection.schemaField) ∨
      (name = "__type" ∧ parent.name = schema.query.name ∧ field = Introspection.typeField) ∨
      name = "__typename" ∧ parent.isComposite = true ∧ field = Introspection.typenameField := by
  rw [metaField?] at found
  by_cases first : (name == "__schema" && parent.name == schema.query.name) = true
  · rw [if_pos first] at found
    cases found
    simp only [Bool.and_eq_true, beq_iff_eq] at first
    exact .inl ⟨first.1, first.2, rfl⟩
  · rw [if_neg first] at found
    by_cases second : (name == "__type" && parent.name == schema.query.name) = true
    · rw [if_pos second] at found
      cases found
      simp only [Bool.and_eq_true, beq_iff_eq] at second
      exact .inr (.inl ⟨second.1, second.2, rfl⟩)
    · rw [if_neg second] at found
      by_cases third : (name == "__typename" && parent.isComposite) = true
      · rw [if_pos third] at found
        cases found
        simp only [Bool.and_eq_true, beq_iff_eq] at third
        exact .inr (.inr ⟨third.1, third.2, rfl⟩)
      · rw [if_neg third] at found
        cases found

/-- They have known types as well. -/
theorem Built.metaField_output (built : schema.Built) {parent : TypeDef} {name : String} {field : Field}
    (found : schema.metaField? parent name = some field) :
    ∃ type, schema.named? field.type = some type ∧ type.isOutput = true := by
  rcases metaField?_cases found with ⟨_, _, rfl⟩ | ⟨_, _, rfl⟩ | ⟨_, _, rfl⟩
  · exact ⟨_, built.schemaType, rfl⟩
  · exact ⟨_, built.typeType, rfl⟩
  · exact built.leads built.typeType rfl (show "String" ∈ _ by decide)

/-- The type of a selected field is known, and values can be given out at it. -/
theorem Built.selected_output (built : schema.Built) {parent : TypeDef} {name : String} {field : Field}
    (known : schema.type? parent.name = some parent) (found : schema.field? parent name = some field) :
    ∃ type, schema.named? field.type = some type ∧ type.isOutput = true := by
  rw [field?, Option.or_eq_some_iff] at found
  rcases found with found | ⟨-, found⟩
  · exact built.metaField_output found
  · obtain ⟨fields, has, found⟩ := Option.bind_eq_some_iff.1 found
    exact built.field_output (mem_of_type? known) has (List.mem_of_find?_eq_some found)

end Positions
section Wrapping

/-- In the types of a definition no non-null wrapper stands directly around another. -/
theorem Built.plain (built : schema.Built) {type : TypeDef} (member : type ∈ schema.types) :
    ∀ ref ∈ type.typeRefs, ref.hasNestedNonNull = false := by
  obtain ⟨builder, built⟩ := built
  obtain ⟨_, _, gathered, _⟩ := build_ok built
  exact ((demands_met_iff type).1 ((gathered_meets gathered).2 type member)).2.1

theorem Built.argument_plain (built : schema.Built) {type : TypeDef} (member : type ∈ schema.types)
    {fields : Definitions Field} (has : type.fields? = some fields) {field : Field}
    (inside : field ∈ fields.items) {argument : InputValue} (given : argument ∈ field.arguments.items) :
    argument.type.hasNestedNonNull = false := by
  refine built.plain member argument.type ?_
  have own : argument.type ∈ field.typeRefs := List.mem_cons_of_mem _ (List.mem_map_of_mem given)
  cases type with
  | object _ | interface _ =>
    cases has
    exact List.mem_flatMap.2 ⟨field, inside, own⟩
  | _ => cases has

theorem Built.inputField_plain (built : schema.Built) {input : InputObjectType}
    (member : .inputObject input ∈ schema.types) {field : InputValue}
    (inside : field ∈ input.fields.items) : field.type.hasNestedNonNull = false :=
  built.plain member field.type (List.mem_map_of_mem inside)

theorem Built.selected_plain (built : schema.Built) {parent : TypeDef} {name : String} {field : Field}
    (known : schema.type? parent.name = some parent) (found : schema.field? parent name = some field)
    {argument : InputValue} (given : argument ∈ field.arguments.items) :
    argument.type.hasNestedNonNull = false := by
  rw [field?, Option.or_eq_some_iff] at found
  rcases found with found | ⟨-, found⟩
  · rcases metaField?_cases found with ⟨_, _, rfl⟩ | ⟨_, _, rfl⟩ | ⟨_, _, rfl⟩
    · cases given
    · rw [List.mem_singleton.1 given]
      rfl
    · cases given
  · obtain ⟨fields, has, found⟩ := Option.bind_eq_some_iff.1 found
    exact built.argument_plain (mem_of_type? known) has (List.mem_of_find?_eq_some found) given

end Wrapping

section Standing
variable {object : ObjectType} {type : TypeDef}

/-- Only abstract types have possible types. -/
theorem abstract_of_possible {name : String} (known : schema.type? type.name = some type)
    (possible : schema.isPossibleType type.name name = true) : type.isAbstract = true := by
  obtain ⟨object, member, -⟩ := List.any_eq_true.1 possible
  rw [possibleTypes, known] at member
  cases type with
  | interface _ | union _ => rfl
  | _ => cases member

theorem object_of_possible (built : schema.Built) {abstract name : String}
    (possible : schema.isPossibleType abstract name = true) :
    ∃ object, schema.type? name = some (.object object) := by
  obtain ⟨object, member, same⟩ := List.any_eq_true.1 possible
  have named : object.name = name := by simpa using same
  subst named
  refine ⟨object, ?_⟩
  rw [possibleTypes] at member
  split at member
  · obtain ⟨type, inside, has⟩ := List.mem_filterMap.1 (List.mem_filter.1 member).1
    cases type with
    | object _ =>
      cases has
      exact built.unique inside
    | _ => cases has
  · obtain ⟨name, _, found⟩ := List.mem_filterMap.1 member
    obtain ⟨type, found, has⟩ := Option.bind_eq_some_iff.1 found
    cases type with
    | object _ =>
      cases has
      exact type?_name found
    | _ => cases has
  · cases member

/-- An object type that can stand for an interface says so. -/
theorem implements_of_possible (built : schema.Built)
    (known : schema.type? object.name = some (.object object)) {interface : InterfaceType}
    (found : schema.type? interface.name = some (.interface interface))
    (possible : schema.isPossibleType interface.name object.name = true) :
    interface.name ∈ object.interfaces := by
  obtain ⟨other, member, same⟩ := List.any_eq_true.1 possible
  rw [possibleTypes, found] at member
  obtain ⟨inside, listed⟩ := List.mem_filter.1 member
  obtain ⟨type, inside, has⟩ := List.mem_filterMap.1 inside
  cases type with
  | object _ =>
    cases has
    have unique := built.unique inside
    have named : (TypeDef.object other).name = object.name := beq_iff_eq.1 same
    rw [named, known] at unique
    cases unique
    simpa using listed
  | _ => cases has

/-- An object type has the fields of its interfaces, with types that can stand for theirs and with
their arguments. -/
theorem Built.implementation (built : schema.Built)
    (known : schema.type? object.name = some (.object object)) {interface : InterfaceType}
    (found : schema.type? interface.name = some (.interface interface))
    (possible : schema.isPossibleType interface.name object.name = true) {declared : Field}
    (inside : declared ∈ interface.fields.items) :
    ∃ field, object.fields.find? declared.name = some field ∧
      schema.isSubtype field.type declared.type = true ∧
      ∀ argument ∈ declared.arguments.items,
        (field.arguments.find? argument.name).map InputValue.type = some argument.type := by
  have member := implements_of_possible built known found possible
  exact (implementationErrors_eq_nil_iff _).1 (built.implements (mem_of_type? known)) object rfl
    interface.name member interface found declared inside

/-- Values of the first type can stand where the second one is declared. -/
inductive Narrows (schema : Schema) : TypeRef → TypeRef → Prop
  | refl (type : TypeRef) : Narrows schema type type
  | possible {name abstract : String} {type : TypeDef} : schema.type? abstract = some type →
      type.isAbstract = true → schema.isPossibleType abstract name = true →
      Narrows schema (.named name) (.named abstract)
  | list {sub super : TypeRef} : Narrows schema sub super → Narrows schema (.list sub) (.list super)
  | nonNull {sub super : TypeRef} : Narrows schema sub super →
      Narrows schema (.nonNull sub) (.nonNull super)
  | required {sub super : TypeRef} : Narrows schema sub super → Narrows schema (.nonNull sub) super

theorem narrows_of_isSubtype {sub super : TypeRef} (fits : schema.isSubtype sub super = true) :
    schema.Narrows sub super := by
  induction sub generalizing super with
  | named name =>
    rw [isSubtype.eq_def, Bool.or_eq_true] at fits
    rcases fits with same | fits
    · exact beq_iff_eq.1 same ▸ .refl _
    · cases super with
      | named other =>
        rw [Bool.and_eq_true] at fits
        obtain ⟨abstract, possible⟩ := fits
        cases found : schema.type? other with
        | none =>
          rw [found] at abstract
          cases abstract
        | some type =>
          rw [found] at abstract
          exact .possible found abstract possible
      | _ => cases fits
  | list item ih =>
    rw [isSubtype.eq_def, Bool.or_eq_true] at fits
    rcases fits with same | fits
    · exact beq_iff_eq.1 same ▸ .refl _
    · cases super with
      | list other => exact .list (ih fits)
      | _ => cases fits
  | nonNull type ih =>
    rw [isSubtype.eq_def, Bool.or_eq_true] at fits
    rcases fits with same | fits
    · exact beq_iff_eq.1 same ▸ .refl _
    · cases super with
      | nonNull other => exact .nonNull (ih fits)
      | _ => exact .required (ih fits)

theorem Narrows.innermost {sub super : TypeRef} (narrows : schema.Narrows sub super) :
    sub.innermost = super.innermost ∨ ∃ type, schema.type? super.innermost = some type ∧
      type.isAbstract = true ∧ schema.isPossibleType super.innermost sub.innermost = true := by
  induction narrows with
  | refl type => exact .inl rfl
  | possible found abstract possible => exact .inr ⟨_, found, abstract, possible⟩
  | list _ ih => exact ih
  | nonNull _ ih => exact ih
  | required _ ih => exact ih

theorem isSubtype_refl (schema : Schema) (type : TypeRef) : schema.isSubtype type type = true := by
  rw [isSubtype.eq_def, beq_self_eq_true, Bool.true_or]

/-- A field that is selected from a type is the one that the objects that can stand for it have, or
it is declared by an interface of theirs. -/
theorem Built.selects_cases (built : schema.Built) (around : schema.type? type.name = some type)
    (stands : schema.StandsFor object type) {name : String} {declared : Field}
    (found : schema.field? type name = some declared) :
    schema.objectField? object name = some declared ∨ ∃ interface : InterfaceType,
      type = .interface interface ∧ schema.isPossibleType interface.name object.name = true ∧
        interface.fields.find? name = some declared := by
  rcases stands with rfl | ⟨abstract, possible⟩
  · exact .inl found
  · rw [field?, Option.or_eq_some_iff] at found
    rcases found with found | ⟨-, found⟩
    · have notQuery : type.name ≠ schema.query.name := by
        intro same
        have root := built.rootType .query rfl
        rw [← same, around] at root
        cases root
        cases abstract
      rcases metaField?_cases found with ⟨_, query, _⟩ | ⟨_, query, _⟩ | ⟨rfl, _, rfl⟩
      · exact absurd query notQuery
      · exact absurd query notQuery
      · refine .inl ?_
        simp [objectField?, field?, metaField?, TypeDef.isComposite]
    · cases type with
      | interface interface => exact .inr ⟨interface, rfl, possible, found⟩
      | union _ => cases found
      | _ => cases abstract

/-- A field that is selected from a type is there on the objects that can stand for it, with a type
that can stand for the one declared, and with the arguments that are declared. -/
theorem Built.selects (built : schema.Built) (plain : schema.PlainNames)
    (known : schema.type? object.name = some (.object object))
    (around : schema.type? type.name = some type) (stands : schema.StandsFor object type)
    {name : String} {declared : Field} (found : schema.field? type name = some declared) :
    ∃ field, schema.objectField? object name = some field ∧
      schema.isSubtype field.type declared.type = true ∧
      (field = declared ∨ ∀ argument ∈ declared.arguments.items,
        (field.arguments.find? argument.name).map InputValue.type = some argument.type) := by
  rcases built.selects_cases around stands found with own | ⟨interface, rfl, possible, here⟩
  · exact ⟨declared, own, isSubtype_refl _ _, .inl rfl⟩
  · have inside := List.mem_of_find?_eq_some here
    have named := List.find?_some here
    obtain rfl : declared.name = name := beq_iff_eq.1 named
    obtain ⟨field, has, fits, arguments⟩ := built.implementation known around possible inside
    refine ⟨field, ?_, fits, .inr arguments⟩
    have unreserved := plain _ (mem_of_type? around) _ rfl declared inside
    have own : schema.metaField? (.object object) declared.name = none := by
      refine Option.eq_none_iff_forall_ne_some.2 fun other there => ?_
      rcases metaField?_cases there with ⟨same, _⟩ | ⟨same, _⟩ | ⟨same, _⟩ <;>
        rw [same] at unreserved <;> revert unreserved <;> decide +kernel
    rw [objectField?, field?, own, Option.none_or]
    exact has

/-- The field of a name has that name. -/
theorem name_of_objectField? {name : String} {field : Field}
    (found : schema.objectField? object name = some field) : field.name = name := by
  rw [objectField?, field?, Option.or_eq_some_iff] at found
  rcases found with found | ⟨-, found⟩
  · rcases metaField?_cases found with ⟨rfl, -, rfl⟩ | ⟨rfl, -, rfl⟩ | ⟨rfl, -, rfl⟩ <;> rfl
  · obtain ⟨fields, -, here⟩ := Option.bind_eq_some_iff.1 found
    have named := List.find?_some here
    exact beq_iff_eq.1 named

/-- What can stand for a type has selections exactly if that type has. -/
theorem Built.leaf_of_subtype (built : schema.Built) {sub super : TypeRef} {a b : TypeDef}
    (fits : schema.isSubtype sub super = true) (lower : schema.named? sub = some a)
    (upper : schema.named? super = some b) : a.isLeaf = b.isLeaf := by
  rcases (narrows_of_isSubtype fits).innermost with same | ⟨found, here, abstract, possible⟩
  · rw [named?, same, ← named?, upper] at lower
    cases lower
    rfl
  · obtain ⟨object, there⟩ := object_of_possible built possible
    rw [named?, there] at lower
    rw [named?, here] at upper
    cases lower
    cases upper
    cases b with
    | interface _ | union _ => rfl
    | _ => cases abstract

end Standing
end Schema
end GraphQL
