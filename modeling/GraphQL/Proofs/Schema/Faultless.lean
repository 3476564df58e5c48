import Mathlib.Data.List.Nodup
import GraphQL.Proofs.Schema.Built

/-! What definitions demand of the types around them. The demands of a definition are met if it
repeats no name, no type in it has a non-null wrapper around another one, and all types that it
refers to are there. Where all demands are met, the search for types comes to its end. -/
namespace GraphQL

/-- The type of a field, and those of its arguments. -/
def Field.typeRefs (field : Field) : List TypeRef :=
  field.type :: field.arguments.items.map InputValue.type

/-- The names of the arguments that a field has more than once. -/
def Field.repeated (field : Field) : List String := field.arguments.repeated

namespace TypeDef

/-- The fields of an object or an interface, one after the other. -/
def outputs : TypeDef → List Field
  | object type => type.fields.items
  | interface type => type.fields.items
  | _ => []

/-- The arguments of all fields of a type, or its fields if it is an input type. -/
def inputs : TypeDef → List InputValue
  | inputObject type => type.fields.items
  | type => type.outputs.flatMap fun field => field.arguments.items

/-- The interfaces of an object, or the members of a union. -/
def relatives : TypeDef → List String
  | object type => type.interfaces
  | union type => type.members
  | _ => []

/-- The types that a definition is written with. -/
def typeRefs : TypeDef → List TypeRef
  | inputObject type => type.fields.items.map InputValue.type
  | type => type.outputs.flatMap Field.typeRefs

/-- The names of all types that a definition refers to. -/
def references (type : TypeDef) : List String :=
  type.typeRefs.map TypeRef.innermost ++ type.relatives

/-- The names of fields, of arguments of one field, and of enum values that a definition has more
than once. -/
def repeated : TypeDef → List String
  | object type => type.fields.repeated ++ type.fields.items.flatMap Field.repeated
  | interface type => type.fields.repeated ++ type.fields.items.flatMap Field.repeated
  | enum type => type.values.repeated
  | inputObject type => type.fields.repeated
  | _ => []

end TypeDef

namespace SchemaBuilder

/-- A check of one item after the other, which remembers the names before, passes if the names are
distinct and each item is fine by itself. -/
theorem passes_iff {α : Type} {name : α → String} {fine : α → Prop}
    (passes : List String → List α → Prop) (nil : ∀ seen, passes seen [])
    (cons : ∀ seen item rest, passes seen (item :: rest) ↔
      (name item ∉ seen ∧ fine item) ∧ passes (name item :: seen) rest)
    (seen : List String) (items : List α) :
    passes seen items ↔ (items.map name).Nodup ∧ (∀ item ∈ items, name item ∉ seen) ∧
      ∀ item ∈ items, fine item := by
  induction items generalizing seen with
  | nil => simp [nil]
  | cons item rest ih =>
    have apart : (∀ other ∈ rest, name other ∉ name item :: seen) ↔
        name item ∉ rest.map name ∧ ∀ other ∈ rest, name other ∉ seen := by
      simp [not_or, forall_and]
    rw [cons, ih, apart, List.map_cons, List.nodup_cons, List.forall_mem_cons,
      List.forall_mem_cons]
    constructor
    · rintro ⟨⟨fresh, here⟩, distinct, ⟨apart, others⟩, each⟩
      exact ⟨⟨apart, distinct⟩, ⟨fresh, others⟩, here, each⟩
    · rintro ⟨⟨apart, distinct⟩, ⟨fresh, others⟩, here, each⟩
      exact ⟨⟨fresh, here⟩, distinct, ⟨apart, others⟩, each⟩

section Meeting
variable {types : List TypeDef}

theorem met_type_iff {name : String} {referencedBy : Option String} :
    (Demand.type name referencedBy).Met types ↔ Known types name := Iff.rfl

theorem reference_met_iff (type : TypeRef) (coordinate : String) :
    (∀ demand ∈ reference type coordinate, demand.Met types) ↔
      type.hasNestedNonNull = false ∧ Known types type.innermost := by
  rw [reference, wellWrapped]
  cases type.hasNestedNonNull <;> simp [Demand.Met]

theorem argumentDemands_met_iff (coordinate : String) (arguments : List InputValue) :
    (∀ demand ∈ argumentDemands coordinate arguments, demand.Met types) ↔
      ∀ argument ∈ arguments,
        argument.type.hasNestedNonNull = false ∧ Known types argument.type.innermost := by
  rw [argumentDemands, List.forall_mem_flatMap]
  simp only [reference_met_iff]

theorem fieldDemands_met_iff (name : String) (field : Field) :
    (∀ demand ∈ fieldDemands name field, demand.Met types) ↔ field.repeated = [] ∧
      ∀ type ∈ field.typeRefs, type.hasNestedNonNull = false ∧ Known types type.innermost := by
  rw [fieldDemands, Field.repeated]
  cases field.arguments.repeated with
  | nil =>
    simp only [List.forall_mem_append, reference_met_iff, argumentDemands_met_iff, Field.typeRefs,
      List.forall_mem_cons, List.forall_mem_map, true_and]
  | cons argument rest => simp [Demand.Met]

theorem fieldsDemands_met_iff (name : String) (fields : Definitions Field) :
    (∀ demand ∈ fieldsDemands name fields, demand.Met types) ↔
      (fields.repeated ++ fields.items.flatMap Field.repeated = []) ∧
        ∀ type ∈ fields.items.flatMap Field.typeRefs,
          type.hasNestedNonNull = false ∧ Known types type.innermost := by
  rw [fieldsDemands]
  cases fields.repeated with
  | nil =>
    simp only [List.forall_mem_flatMap, fieldDemands_met_iff, List.nil_append,
      List.flatMap_eq_nil_iff, forall_and]
  | cons field rest => simp [Demand.Met]

/-- The demands of a definition are met if it repeats nothing, its types are well wrapped and all
names that it refers to are known. -/
theorem demands_met_iff (type : TypeDef) :
    (∀ demand ∈ demands type, demand.Met types) ↔ type.repeated = [] ∧
      (∀ ref ∈ type.typeRefs, ref.hasNestedNonNull = false) ∧
      ∀ name ∈ type.references, Known types name := by
  rw [TypeDef.references, List.forall_mem_append, List.forall_mem_map]
  cases type with
  | scalar scalar => simp [demands, TypeDef.repeated, TypeDef.typeRefs, TypeDef.outputs,
      TypeDef.relatives]
  | object object =>
    simp only [demands, List.forall_mem_append, List.forall_mem_map, fieldsDemands_met_iff,
      TypeDef.repeated, TypeDef.typeRefs, TypeDef.outputs, TypeDef.relatives, met_type_iff,
      forall_and, and_assoc]
  | interface interface =>
    simp only [demands, fieldsDemands_met_iff, TypeDef.repeated, TypeDef.typeRefs, TypeDef.outputs,
      TypeDef.relatives, forall_and, List.not_mem_nil, false_implies, implies_true, and_true]
  | union union =>
    simp [demands, TypeDef.repeated, TypeDef.typeRefs, TypeDef.outputs, TypeDef.relatives,
      met_type_iff]
  | enum enum =>
    simp only [demands, TypeDef.repeated, TypeDef.typeRefs, TypeDef.outputs, TypeDef.relatives]
    cases enum.values.repeated <;> simp [Demand.Met]
  | inputObject input =>
    simp only [demands, TypeDef.repeated, TypeDef.typeRefs, TypeDef.relatives]
    cases input.fields.repeated with
    | nil =>
      simp only [List.forall_mem_flatMap, List.forall_mem_map, reference_met_iff, forall_and,
        List.not_mem_nil, false_implies, implies_true, true_and, and_true]
    | cons field rest => simp [Demand.Met]

/-- The demands of directives are met if their names are distinct, also from those before, and
their arguments have types that are well wrapped and known. -/
theorem directiveDemands_met_iff (seen : List String) (directives : List DirectiveDef) :
    (∀ demand ∈ directiveDemands seen directives, demand.Met types) ↔
      (directives.map DirectiveDef.name).Nodup ∧
      (∀ directive ∈ directives, directive.name ∉ seen) ∧
      ∀ directive ∈ directives, ∀ argument ∈ directive.arguments,
        argument.type.hasNestedNonNull = false ∧ Known types argument.type.innermost := by
  refine passes_iff (fun seen directives => ∀ demand ∈ directiveDemands seen directives,
    demand.Met types) (fun seen => by simp [directiveDemands]) (fun seen directive rest => ?_) seen
    directives
  rw [directiveDemands, ← argumentDemands_met_iff ("@" ++ directive.name)]
  by_cases again : directive.name ∈ seen
  · simp [again, Demand.Met]
  · rw [if_neg (by simpa using again), List.forall_mem_append, and_iff_right again]

end Meeting
end SchemaBuilder
end GraphQL

/-! When nothing is wrong with the definitions of a schema: each list of errors is empty exactly if
the definitions are as they should be. -/
namespace GraphQL.SchemaBuilder

variable {schema : Schema} {types : List TypeDef}

theorem expected_eq_nil_iff {condition : Prop} [Decidable condition] {error : SchemaError} :
    (if condition then [] else [error]) = ([] : List SchemaError) ↔ condition := by
  by_cases holds : condition <;> simp [holds]

/-- Names are registered if none is reserved and none is taken. -/
theorem registrationErrors_eq_nil_iff (seen : List String) (types : List TypeDef) :
    registrationErrors seen types = [] ↔
      (types.map TypeDef.name).Nodup ∧ (∀ type ∈ types, type.name ∉ seen) ∧
        ∀ type ∈ types, type.name.startsWith "__" = false := by
  refine passes_iff (fun seen types => registrationErrors seen types = []) (fun _ => rfl)
    (fun seen type rest => ?_) seen types
  rw [registrationErrors, List.append_eq_nil_iff]
  refine and_congr_left' ?_
  cases type.name.startsWith "__" with
  | true => simp
  | false => by_cases taken : type.name ∈ seen <;> simp [taken]

theorem interfaceErrors_eq_nil_iff (object : String) (seen names : List String) :
    interfaceErrors types object seen names = [] ↔
      names.Nodup ∧ (∀ name ∈ names, name ∉ seen) ∧
        ∀ name ∈ names, ∃ interface, findType? types name = some (.interface interface) := by
  have checked := @passes_iff _ id
    (fun name => ∃ interface, findType? types name = some (.interface interface))
    (fun seen names => interfaceErrors types object seen names = []) (fun _ => rfl)
    (fun seen name rest => ?_) seen names
  · rwa [List.map_id] at checked
  · rw [interfaceErrors, List.append_eq_nil_iff]
    refine and_congr_left' ?_
    by_cases again : name ∈ seen
    · simp [again]
    · cases found : findType? types name with
      | none => simp [again]
      | some type => cases type <;> simp [again]

theorem memberErrors_eq_nil_iff (union : String) (seen names : List String) :
    memberErrors types union seen names = [] ↔
      names.Nodup ∧ (∀ name ∈ names, name ∉ seen) ∧
        ∀ name ∈ names, ∃ object, findType? types name = some (.object object) := by
  have checked := @passes_iff _ id
    (fun name => ∃ object, findType? types name = some (.object object))
    (fun seen names => memberErrors types union seen names = []) (fun _ => rfl)
    (fun seen name rest => ?_) seen names
  · rwa [List.map_id] at checked
  · rw [memberErrors, List.append_eq_nil_iff]
    refine and_congr_left' ?_
    by_cases again : name ∈ seen
    · cases found : findType? types name with
      | none => simp
      | some type => cases type <;> simp [again]
    · cases found : findType? types name with
      | none => simp
      | some type => cases type <;> simp [again]

/-- Objects implement interfaces, unions consist of objects, and neither repeats any. -/
theorem membershipErrors_eq_nil_iff (type : TypeDef) : membershipErrors types type = [] ↔
    (∀ object, type = .object object → object.interfaces.Nodup ∧ ∀ name ∈ object.interfaces,
      ∃ interface, findType? types name = some (.interface interface)) ∧
    ∀ union, type = .union union → union.members.Nodup ∧ ∀ name ∈ union.members,
      ∃ object, findType? types name = some (.object object) := by
  cases type with
  | object object => simp [membershipErrors, interfaceErrors_eq_nil_iff]
  | union union => simp [membershipErrors, memberErrors_eq_nil_iff]
  | _ => simp [membershipErrors]

section Positions

/-- A type is known, and it is of some kind. -/
theorem placed_iff {type : TypeRef} {kind : TypeDef → Bool} :
    ((schema.named? type).map kind).getD false = true ↔
      ∃ found, schema.named? type = some found ∧ kind found = true := by
  cases schema.named? type <;> simp

theorem inputErrors_eq_nil_iff (type : TypeRef) (coordinate : String) :
    inputErrors schema type coordinate = [] ↔
      ∃ found, schema.named? type = some found ∧ found.isInput = true := by
  rw [inputErrors, expected_eq_nil_iff, placed_iff]

theorem argumentErrors_eq_nil_iff (coordinate : String) (arguments : List InputValue) :
    argumentErrors schema coordinate arguments = [] ↔ ∀ argument ∈ arguments,
      ∃ found, schema.named? argument.type = some found ∧ found.isInput = true := by
  simp only [argumentErrors, List.flatMap_eq_nil_iff, inputErrors_eq_nil_iff]

theorem fieldPositionErrors_eq_nil_iff (type : String) (field : Field) :
    fieldPositionErrors schema type field = [] ↔
      (∃ found, schema.named? field.type = some found ∧ found.isOutput = true) ∧
        ∀ argument ∈ field.arguments.items,
          ∃ found, schema.named? argument.type = some found ∧ found.isInput = true := by
  rw [fieldPositionErrors, List.append_eq_nil_iff, expected_eq_nil_iff, placed_iff,
    argumentErrors_eq_nil_iff]

/-- Fields stand where values are given out, and arguments and input fields where they are taken. -/
theorem positionErrors_eq_nil_iff (type : TypeDef) :
    positionErrors schema type = [] ↔
      (∀ field ∈ type.outputs,
        ∃ found, schema.named? field.type = some found ∧ found.isOutput = true) ∧
      ∀ input ∈ type.inputs,
        ∃ found, schema.named? input.type = some found ∧ found.isInput = true := by
  cases type with
  | object _ | interface _ =>
    simp only [positionErrors, List.flatMap_eq_nil_iff, fieldPositionErrors_eq_nil_iff,
      TypeDef.outputs, TypeDef.inputs, List.forall_mem_flatMap, forall_and]
  | inputObject _ =>
    simp [positionErrors, inputErrors_eq_nil_iff, TypeDef.outputs, TypeDef.inputs]
  | _ => simp [positionErrors, TypeDef.outputs, TypeDef.inputs]

end Positions

/-- An object has a field that is declared by an interface. -/
theorem implementedFieldErrors_eq_nil_iff (object : ObjectType) (interface : String)
    (declared : Field) : implementedFieldErrors schema object interface declared = [] ↔
      ∃ field, object.fields.find? declared.name = some field ∧
        schema.isSubtype field.type declared.type = true ∧
        ∀ argument ∈ declared.arguments.items,
          (field.arguments.find? argument.name).map InputValue.type = some argument.type := by
  rw [implementedFieldErrors]
  cases object.fields.find? declared.name with
  | none => simp
  | some field =>
    simp only [List.append_eq_nil_iff, expected_eq_nil_iff, List.flatMap_eq_nil_iff,
      Option.some.injEq, exists_eq_left']

/-- Objects have the fields of all their interfaces. -/
theorem implementationErrors_eq_nil_iff (type : TypeDef) : implementationErrors schema type = [] ↔
    ∀ object, type = .object object → ∀ name ∈ object.interfaces, ∀ interface,
      schema.type? name = some (.interface interface) → ∀ declared ∈ interface.fields.items,
        ∃ field, object.fields.find? declared.name = some field ∧
          schema.isSubtype field.type declared.type = true ∧
          ∀ argument ∈ declared.arguments.items,
            (field.arguments.find? argument.name).map InputValue.type = some argument.type := by
  cases type with
  | object object =>
    simp only [implementationErrors, List.flatMap_eq_nil_iff, TypeDef.object.injEq, forall_eq']
    refine forall₂_congr fun name _ => ?_
    cases schema.type? name with
    | none => simp
    | some type => cases type <;> simp [implementedFieldErrors_eq_nil_iff]
  | _ => simp [implementationErrors]

theorem schemaErrors_eq_nil_iff : schemaErrors schema = [] ↔
    (∀ type ∈ schema.types, membershipErrors schema.types type = [] ∧
      positionErrors schema type = [] ∧ implementationErrors schema type = []) ∧
    ∀ directive ∈ schema.directives, ∀ argument ∈ directive.arguments,
      ∃ found, schema.named? argument.type = some found ∧ found.isInput = true := by
  simp only [schemaErrors, List.append_eq_nil_iff, List.flatMap_eq_nil_iff,
    argumentErrors_eq_nil_iff, forall_and]
  constructor
  · rintro ⟨⟨⟨members, positions⟩, arguments⟩, implements⟩
    exact ⟨⟨members, positions, implements⟩, arguments⟩
  · rintro ⟨⟨members, positions, implements⟩, arguments⟩
    exact ⟨⟨⟨members, positions⟩, arguments⟩, implements⟩

end GraphQL.SchemaBuilder
