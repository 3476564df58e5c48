import GraphQL.Coercion.Conformance
import GraphQL.Proofs.Coercion.Fits

/-! Where literals stand. A literal that is read at a type has its parts read at the types inside
that type: the items of a list at its item type, the fields of an object at the types that are
declared for them. What a scalar reads stands there as a whole. -/
namespace GraphQL

namespace Ast.Value

/-- The literals directly inside a literal. -/
def parts : Value → List Value
  | list literals _ => literals
  | object fields _ => fields.map ObjectField.value
  | _ => []

section Induction
variable {motive : Value → Prop}

mutual

/-- What a literal has once its parts have it, all literals have. -/
theorem byParts (step : ∀ literal, (∀ part ∈ literal.parts, motive part) → motive literal) :
    (literal : Value) → motive literal
  | list literals span => step (list literals span) (byParts_list step literals)
  | object fields span =>
    step (object fields span) (List.forall_mem_map.2 (byParts_object step fields))
  | var target => step (var target) fun _ member => absurd member List.not_mem_nil
  | int text span => step (int text span) fun _ member => absurd member List.not_mem_nil
  | float text span => step (float text span) fun _ member => absurd member List.not_mem_nil
  | string value span => step (string value span) fun _ member => absurd member List.not_mem_nil
  | boolean value span => step (boolean value span) fun _ member => absurd member List.not_mem_nil
  | null span => step (null span) fun _ member => absurd member List.not_mem_nil
  | enum name span => step (enum name span) fun _ member => absurd member List.not_mem_nil

theorem byParts_list (step : ∀ literal, (∀ part ∈ literal.parts, motive part) → motive literal) :
    (literals : List Value) → ∀ part ∈ literals, motive part
  | [] => fun _ member => absurd member List.not_mem_nil
  | literal :: rest => List.forall_mem_cons.2 ⟨byParts step literal, byParts_list step rest⟩

theorem byParts_object (step : ∀ literal, (∀ part ∈ literal.parts, motive part) → motive literal) :
    (fields : List ObjectField) → ∀ field ∈ fields, motive field.value
  | [] => fun _ member => absurd member List.not_mem_nil
  | ⟨_, literal, _⟩ :: rest =>
    List.forall_mem_cons.2 ⟨byParts step literal, byParts_object step rest⟩

end

end Induction

/-- The outermost layer of a literal, with something for each part. -/
def layer {α : Type} (f : Value → α) : Value → Layer α
  | list literals _ => .list (literals.map f)
  | object fields _ => .object (fields.map fun field => (field.name.text, f field.value))
  | _ => .leaf

theorem field?_map {α : Type} (f : Value → α) (fields : List ObjectField) (name : String) :
    Layer.field? (fields.map fun field => (field.name.text, f field.value)) name =
      (fields.find? fun field => field.name.text == name).map fun field => f field.value := by
  rw [Layer.field?, List.find?_map, Option.map_map]
  rfl

end Ast.Value

namespace LiteralValue
variable (schema : Schema) (bindings : Entries Value)

theorem ofLiterals_eq (literals : List Ast.Value) :
    ofLiterals schema bindings literals = literals.map (ofLiteral schema bindings) := by
  induction literals with
  | nil => rfl
  | cons literal rest ih => rw [ofLiterals, ih, List.map_cons]

theorem ofFields_eq (fields : List Ast.ObjectField) : ofFields schema bindings fields =
    fields.map fun field => (field.name.text, ofLiteral schema bindings field.value) := by
  induction fields with
  | nil => rfl
  | cons field rest ih =>
    obtain ⟨name, literal, span⟩ := field
    rw [ofFields, ih, List.map_cons]

/-- A literal that is no variable is read layer by layer. -/
theorem ofLiteral_eq {literal : Ast.Value} (written : ∀ target, literal ≠ .var target) :
    ofLiteral schema bindings literal =
      ofLayer schema literal (literal.layer (ofLiteral schema bindings)) := by
  cases literal with
  | var target => exact absurd rfl (written target)
  | list literals span => rw [ofLiteral, ofLiterals_eq, Ast.Value.layer]
  | object fields span => rw [ofLiteral, ofFields_eq, Ast.Value.layer]
  | _ => rw [ofLiteral, Ast.Value.layer] <;> simp

end LiteralValue

namespace Conformance
variable (schema : Schema)

theorem ofLiterals_eq (literals : List Ast.Value) :
    ofLiterals schema literals = literals.map (ofLiteral schema) := by
  induction literals with
  | nil => rfl
  | cons literal rest ih => rw [ofLiterals, ih, List.map_cons]

theorem ofObjectFields_eq (fields : List Ast.ObjectField) : ofObjectFields schema fields =
    fields.map fun field => (field.name.text, ofLiteral schema field.value) := by
  induction fields with
  | nil => rfl
  | cons field rest ih =>
    obtain ⟨name, literal, span⟩ := field
    rw [ofObjectFields, ih, List.map_cons]

/-- A literal that is no variable is checked layer by layer. -/
theorem ofLiteral_eq {literal : Ast.Value} (written : ∀ target, literal ≠ .var target) :
    ofLiteral schema literal = ofLayer schema literal (literal.layer (ofLiteral schema)) := by
  cases literal with
  | var target => exact absurd rfl (written target)
  | list literals span => rw [ofLiteral, ofLiterals_eq, Ast.Value.layer]
  | object fields span => rw [ofLiteral, ofObjectFields_eq, Ast.Value.layer]
  | _ => rw [ofLiteral, Ast.Value.layer] <;> simp

end Conformance

namespace LiteralValue

/-- A part stands directly inside a literal, at the type of the items or of its field. -/
inductive Part (schema : Schema) (type : TypeRef) : Ast.Value → TypeRef → Ast.Value → Prop
  | item {item : TypeRef} {literals : List Ast.Value} {span : Option Span} {part : Ast.Value} :
      type.element? = some item → part ∈ literals → Part schema type (.list literals span) item part
  | field {input : InputObjectType} {declared : InputValue} {fields : List Ast.ObjectField}
      {span : Option Span} {field : Ast.ObjectField} :
      schema.type? type.innermost = some (.inputObject input) → declared ∈ input.fields.items →
      field ∈ fields → field.name.text = declared.name →
      Part schema type (.object fields span) declared.type field.value

/-- A literal that is read at a type stands there, and so do its parts at the types inside. -/
inductive Placed (schema : Schema) : TypeRef → Ast.Value → TypeRef → Ast.Value → Prop
  | whole {type : TypeRef} {literal : Ast.Value} : Placed schema type literal type literal
  | inside {type inner expected : TypeRef} {literal part found : Ast.Value} :
      Part schema type literal inner part → Placed schema inner part expected found →
      Placed schema type literal expected found

variable {schema : Schema} {type inner : TypeRef} {literal part : Ast.Value}

theorem Part.mem (stands : Part schema type literal inner part) : part ∈ literal.parts := by
  cases stands with
  | item _ member => exact member
  | field _ _ member _ => exact List.mem_map_of_mem member

/-- A non-null wrapper changes nothing about the parts. -/
theorem Part.nonNull (stands : Part schema type literal inner part) :
    Part schema (.nonNull type) literal inner part := by
  cases stands with
  | item element member => exact .item element member
  | field known inside member named => exact .field known inside member named

/-- A literal that is no list is the only item of one. -/
theorem Part.single (single : ∀ literals span, literal ≠ .list literals span)
    (stands : Part schema type literal inner part) : Part schema (.list type) literal inner part := by
  cases stands with
  | item _ _ => exact absurd rfl (single _ _)
  | field known inside member named => exact .field known inside member named

end LiteralValue

end GraphQL

/-! What is read of literals. A literal that has a value at a type has one that the type admits, if
the values of its variables are admitted where they stand and the schema provides the rest. -/
namespace GraphQL

variable {schema : Schema} {bindings : Entries Value} {takes : TypeDef → Value → Prop}

/-- What a schema has to provide for types to admit what is read of literals: scalars and enums read
nothing as null, and the defaults of input fields are admitted. -/
structure Schema.ReadsAdmitted (schema : Schema) (takes : TypeDef → Value → Prop) : Prop where
  scalar : ∀ scalar, .scalar scalar ∈ schema.types → ∀ literal value,
    LiteralValue.isNull literal = false → scalar.parseLiteral literal = some value →
    value.isNull = false ∧ takes (.scalar scalar) value
  enum : ∀ enum, .enum enum ∈ schema.types → ∀ choice ∈ enum.values.items,
    choice.internal.isNull = false ∧ takes (.enum enum) choice.internal
  names : ∀ input, .inputObject input ∈ schema.types → input.fields.names.Nodup
  defaults : ∀ input, .inputObject input ∈ schema.types → ∀ field ∈ input.fields.items,
    ∀ value, field.default = some value → Admits schema takes field.type value

theorem Schema.ReadsFitting.admitted (fitting : schema.ReadsFitting) :
    schema.ReadsAdmitted TypeDef.Reads where
  scalar scalar known literal value solid read :=
    ⟨(fitting.nulls.scalar scalar known).literal literal value solid read, .inr ⟨literal, read⟩⟩
  enum enum known choice inside := ⟨fitting.nulls.enum enum known choice inside, choice, inside, rfl⟩
  names := fitting.names.inputs
  defaults input known field inside value default :=
    fits_iff_admits.1 (fitting.defaults.inputs input known field inside value default)

namespace LiteralValue

/-- The variables in a literal have no values but such as are admitted where they stand, or null. -/
def Backed (schema : Schema) (takes : TypeDef → Value → Prop) (bindings : Entries Value)
    (type : TypeRef) (literal : Ast.Value) : Prop :=
  ∀ expected target, Placed schema type literal expected (.var target) →
    ∀ value, bindings.get? target.name.text = some value →
      value = .null ∨ Admits schema takes expected value

theorem Backed.part {type inner : TypeRef} {literal part : Ast.Value}
    (backed : Backed schema takes bindings type literal)
    (stands : Part schema type literal inner part) : Backed schema takes bindings inner part :=
  fun expected target placed => backed expected target (.inside stands placed)

/-- Results of all items, or none. -/
theorem mapM_eq_some_iff {α β : Type} {f : α → Option β} {items : List α} {results : List β} :
    items.mapM f = some results ↔ List.Forall₂ (fun item result => f item = some result) items results := by
  induction items generalizing results with
  | nil => simp [eq_comm]
  | cons item rest ih =>
    rw [List.mapM_cons]
    constructor
    · intro read
      obtain ⟨result, here, read⟩ := Option.bind_eq_some_iff.1 read
      obtain ⟨others, later, read⟩ := Option.bind_eq_some_iff.1 read
      cases read
      exact .cons here (ih.1 later)
    · rintro (_ | ⟨here, later⟩)
      rw [here, ih.2 later]
      rfl

/-- A variable is read as a value that it is backed with, or as null. -/
theorem ofVariable_admits {type : TypeRef} {name : String}
    (backed : ∀ value, bindings.get? name = some value → value = .null ∨ Admits schema takes type value)
    {value : Value} (read : ofVariable bindings name type = some value) :
    Admits schema takes type value := by
  rw [ofVariable] at read
  split at read
  · cases read
  · rename_i allowed
    cases read
    have nullable (null : ((bindings.get? name).getD .null).isNull = true) : type.isNonNull = false := by
      rw [null] at allowed
      simpa using allowed
    cases found : bindings.get? name with
    | none => exact .null (nullable (by rw [found]; rfl))
    | some value =>
      rcases backed value found with rfl | admits
      · exact .null (nullable (by rw [found]; rfl))
      · exact admits

section Fields

/-- The fields that are declared are read one after the other. -/
theorem ofDeclared_spec {fields : List (String × Reading)} {declared : List InputValue}
    {entries : Entries Value} (read : ofDeclared fields declared = some entries) :
    (∀ key value, (key, value) ∈ entries → ∃ field ∈ declared, field.name = key ∧
      ofField fields field = some (some value)) ∧
    ∀ field ∈ declared, ∃ found, ofField fields field = some found ∧
      ∀ value, found = some value → (field.name, value) ∈ entries := by
  induction declared generalizing entries with
  | nil =>
    cases read
    exact ⟨by simp, by simp⟩
  | cons first rest ih =>
    rw [ofDeclared] at read
    obtain ⟨found, here, read⟩ := Option.bind_eq_some_iff.1 read
    obtain ⟨others, later, read⟩ := Option.bind_eq_some_iff.1 read
    obtain ⟨stems, all⟩ := ih later
    cases read
    constructor
    · intro key value member
      rcases List.mem_append.1 member with member | member
      · obtain ⟨result, inside, same⟩ := List.mem_map.1 member
        cases same
        exact ⟨first, List.mem_cons_self, rfl, by rw [here, Option.mem_toList.1 inside]⟩
      · obtain ⟨field, inside, named, result⟩ := stems key value member
        exact ⟨field, List.mem_cons_of_mem _ inside, named, result⟩
    · refine List.forall_mem_cons.2 ⟨⟨found, here, ?_⟩, fun field member => ?_⟩
      · rintro value rfl
        exact List.mem_append_left _ List.mem_cons_self
      · obtain ⟨result, known, among⟩ := all field member
        exact ⟨result, known, fun value same => List.mem_append_right _ (among value same)⟩

/-- A declared field is read as it is written, or it has its default, or it may be left out. -/
theorem ofField_admits {declared : InputValue}
    (defaults : ∀ value, declared.default = some value → Admits schema takes declared.type value)
    {fields : List (String × Reading)}
    (parts : ∀ reading, Layer.field? fields declared.name = some reading → ∀ value,
      reading declared.type = some value → Admits schema takes declared.type value)
    {found : Option Value} (read : ofField fields declared = some found) :
    match found with
    | some value => Admits schema takes declared.type value
    | none => declared.type.isNonNull = false := by
  rw [ofField] at read
  split at read
  · rename_i reading given
    obtain ⟨result, here, rfl⟩ := Option.map_eq_some_iff.1 read
    exact parts reading given result here
  · split at read
    · rename_i result default
      cases read
      exact defaults result default
    · split at read
      · cases read
      · rename_i nullable
        cases read
        exact by simpa using nullable

theorem ofDeclared_admits (provides : schema.ReadsAdmitted takes) {name : String}
    {input : InputObjectType} (known : schema.type? name = some (.inputObject input))
    {fields : List (String × Reading)}
    (parts : ∀ declared ∈ input.fields.items, ∀ reading,
      Layer.field? fields declared.name = some reading → ∀ value,
        reading declared.type = some value → Admits schema takes declared.type value)
    {entries : Entries Value} (read : ofDeclared fields input.fields.items = some entries) :
    Admits schema takes (.named name) (.object entries) := by
  have within := Schema.mem_of_type? known
  have admits (declared : InputValue) (inside : declared ∈ input.fields.items) {found : Option Value}
      (read : ofField fields declared = some found) :=
    ofField_admits (provides.defaults input within declared inside) (parts declared inside) read
  obtain ⟨stems, all⟩ := ofDeclared_spec read
  refine object_admitted known (provides.names input within) (fun key value member => ?_)
    fun declared inside nonNull => ?_
  · obtain ⟨declared, inside, named, result⟩ := stems key value member
    exact ⟨declared, inside, named, admits declared inside result⟩
  · obtain ⟨found, result, among⟩ := all declared inside
    cases found with
    | none =>
      have nullable : declared.type.isNonNull = false := admits declared inside result
      rw [nullable] at nonNull
      cases nonNull
    | some value => exact ⟨value, among value rfl⟩

theorem parseLiteral_choice {enum : EnumType} {literal : Ast.Value} {value : Value}
    (parsed : enum.parseLiteral literal = some value) : ∃ choice ∈ enum.values.items,
      choice.internal = value := by
  rw [EnumType.parseLiteral.eq_def] at parsed
  split at parsed
  · exact internal_choice parsed
  · cases parsed

end Fields

section Layers

/-- Null is read as null, where it may stand. -/
theorem ofLayer_null {literal : Ast.Value} (null : isNull literal = true) (layer : Layer Reading)
    (type : TypeRef) :
    ofLayer schema literal layer type = if type.isNonNull then none else some .null := by
  cases type <;> rw [ofLayer.eq_def] <;> exact if_pos null

/-- What is read of a literal other than null is not null, and admitted by the type, if what is read
of the parts is admitted by the types that they stand at. -/
theorem ofLayer_admits (provides : schema.ReadsAdmitted takes) {literal : Ast.Value}
    (solid : isNull literal = false) {type : TypeRef}
    (parts : ∀ inner part, Part schema type literal inner part → ∀ value,
      ofLiteral schema bindings part inner = some value → Admits schema takes inner value)
    {value : Value}
    (read : ofLayer schema literal (literal.layer (ofLiteral schema bindings)) type = some value) :
    value.isNull = false ∧ Admits schema takes type value := by
  induction type generalizing value with
  | nonNull type ih =>
    rw [ofLayer, if_neg (Bool.eq_false_iff.1 solid)] at read
    obtain ⟨full, admits⟩ := ih (fun inner part stands => parts inner part stands.nonNull) read
    exact ⟨full, .nonNull full admits⟩
  | list item ih =>
    rw [ofLayer.eq_def] at read
    dsimp only at read
    rw [if_neg (Bool.eq_false_iff.1 solid)] at read
    split at read
    · rename_i readings here
      obtain ⟨values, each, rfl⟩ := Option.map_eq_some_iff.1 read
      refine ⟨rfl, .list fun value member => ?_⟩
      cases literal with
      | list literals span =>
        cases here
        have each := List.forall₂_map_left_iff.1 (mapM_eq_some_iff.1 each)
        obtain ⟨part, inside, here⟩ := forall₂_mem each.flip member
        exact parts item part (.item rfl inside) value here
      | _ => cases here
    · rename_i single
      obtain ⟨only, here, rfl⟩ := Option.map_eq_some_iff.1 read
      have notList : ∀ literals span, literal ≠ .list literals span := by
        rintro literals span rfl
        exact single _ rfl
      obtain ⟨-, admits⟩ := ih (fun inner part stands => parts inner part (stands.single notList)) here
      exact ⟨rfl, .list fun value member => List.mem_singleton.1 member ▸ admits⟩
  | named name =>
    rw [ofLayer, if_neg (Bool.eq_false_iff.1 solid)] at read
    split at read
    · rename_i scalar known
      obtain ⟨full, taken⟩ := provides.scalar scalar (Schema.mem_of_type? known) literal value solid read
      exact ⟨full, .leaf known rfl taken⟩
    · rename_i enum known
      obtain ⟨choice, inside, rfl⟩ := parseLiteral_choice read
      obtain ⟨full, taken⟩ := provides.enum enum (Schema.mem_of_type? known) choice inside
      exact ⟨full, .leaf known rfl taken⟩
    · rename_i input known
      split at read
      · rename_i fields here
        split at read
        · obtain ⟨entries, each, rfl⟩ := Option.map_eq_some_iff.1 read
          refine ⟨rfl, ofDeclared_admits provides known (fun declared inside reading given => ?_) each⟩
          cases literal with
          | object written span =>
            cases here
            rw [Ast.Value.field?_map] at given
            obtain ⟨field, first, rfl⟩ := Option.map_eq_some_iff.1 given
            have named : field.name.text = declared.name := beq_iff_eq.1 (List.find?_some first :)
            exact parts declared.type field.value
              (.field known inside (List.mem_of_find?_eq_some first) named)
          | _ => cases here
        · cases read
      · cases read
    · cases read

/-- What is read of a literal at a type is admitted by the type. -/
theorem ofLiteral_admits (provides : schema.ReadsAdmitted takes) (literal : Ast.Value) :
    ∀ type, Backed schema takes bindings type literal → ∀ value,
      ofLiteral schema bindings literal type = some value → Admits schema takes type value := by
  refine literal.byParts (motive := fun literal => ∀ type, Backed schema takes bindings type literal →
    ∀ value, ofLiteral schema bindings literal type = some value → Admits schema takes type value) ?_
  intro literal ih type backed value read
  by_cases written : ∃ target, literal = .var target
  · obtain ⟨target, rfl⟩ := written
    exact ofVariable_admits (backed type target .whole) read
  · rw [ofLiteral_eq schema bindings fun target same => written ⟨target, same⟩] at read
    cases null : isNull literal with
    | true =>
      rw [ofLayer_null null] at read
      split at read
      · cases read
      · rename_i nullable
        cases read
        exact .null (by simpa using nullable)
    | false =>
      exact (ofLayer_admits provides null (fun inner part stands =>
        ih part stands.mem inner (backed.part stands)) read).2

end Layers

end LiteralValue

section Filters

def colorType : EnumType := { name := "Color", values := ⟨[{ name := "RED", internal := .int 1 }], []⟩ }

def filterType : InputObjectType :=
  { name := "Filter"
    fields := ⟨[{ name := "ids", type := .nonNull (.list (.nonNull (.named "ID"))) },
      { name := "color", type := .named "Color" },
      { name := "limit", type := .nonNull (.named "Int"), default := some (.int 10) },
      { name := "also", type := .named "Filter" }], []⟩ }

def countType : ObjectType :=
  { name := "Query"
    fields := ⟨[{ name := "count", type := .named "Int"
                  arguments := ⟨[{ name := "filter", type := .named "Filter" }], []⟩ }], []⟩ }

def filterBuilder : SchemaBuilder :=
  { query := some "Query", types := [.object countType, .inputObject filterType, .enum colorType] }

open GraphQL.Introspection in
/-- What is counted can be filtered, by a filter that may go on to another. -/
def filterSchema : Schema :=
  { query := countType, mutation := none, subscription := none
    types := [.object countType, .scalar .int, .inputObject filterType, .scalar .id, .enum colorType,
      .scalar .boolean, .scalar .string, schemaType, typeType, typeKindType, fieldType, inputValueType,
      enumValueType, directiveType, directiveLocationType]
    directives := DirectiveDef.builtins }

theorem filterSchema_built : filterSchema.Built := by
  refine ⟨filterBuilder, SchemaBuilder.build_ok_iff.2 ⟨_, rfl, ?_, rfl, rfl, rfl, rfl, rfl, ?_⟩⟩
  · decide +kernel
  · decide +kernel

open GraphQL.Introspection in
/-- The types of inputs that the schema has. -/
theorem filterSchema_inputs {type : TypeDef} (member : type ∈ filterSchema.types)
    (input : type.isInput = true) : (∃ scalar ∈ ScalarType.builtins, type = .scalar scalar) ∨
      type ∈ [.enum colorType, typeKindType, directiveLocationType] ∨
      type = .inputObject filterType := by
  simp only [filterSchema, List.mem_cons, List.not_mem_nil, or_false] at member
  rcases member with rfl | rfl | rfl | rfl | rfl | rfl | rfl | rfl | rfl | rfl | rfl | rfl | rfl | rfl |
    rfl
  all_goals first
    | cases input
      done
    | exact .inl ⟨_, by simp [ScalarType.builtins], rfl⟩
    | exact .inr (.inr rfl)
    | exact .inr (.inl (by simp))

theorem filterSchema_scalar {scalar : ScalarType} (member : .scalar scalar ∈ filterSchema.types) :
    scalar ∈ ScalarType.builtins := by
  rcases filterSchema_inputs member rfl with ⟨_, builtin, same⟩ | enum | same
  · cases same
    exact builtin
  · simp [Introspection.typeKindType, Introspection.directiveLocationType] at enum
  · cases same

theorem filterSchema_input {input : InputObjectType}
    (member : .inputObject input ∈ filterSchema.types) : input = filterType := by
  rcases filterSchema_inputs member rfl with ⟨_, _, same⟩ | enum | same
  · cases same
  · simp [Introspection.typeKindType, Introspection.directiveLocationType] at enum
  · exact TypeDef.inputObject.inj same

theorem filterSchema_admitted : filterSchema.ReadsAdmitted TypeDef.Reads where
  scalar scalar member literal value solid read :=
    ⟨(ScalarType.builtins_nullFree scalar (filterSchema_scalar member)).literal literal value solid read,
      .inr ⟨literal, read⟩⟩
  enum enum member choice inside := by
    refine ⟨?_, choice, inside, rfl⟩
    rcases filterSchema_inputs member rfl with ⟨_, _, same⟩ | known | same
    · cases same
    · simp only [List.mem_cons, List.not_mem_nil, or_false, TypeDef.enum.injEq,
        Introspection.typeKindType, Introspection.directiveLocationType] at known
      revert choice
      rcases known with rfl | rfl | rfl <;> decide +kernel
    · cases same
  names input member := by
    rw [filterSchema_input member]
    decide
  defaults input member field inside value default := by
    rw [filterSchema_input member] at inside
    simp only [filterType, List.mem_cons, List.not_mem_nil, or_false] at inside
    rcases inside with rfl | rfl | rfl | rfl <;> cases default
    have known : filterSchema.type? "Int" = some (.scalar .int) := rfl
    exact .nonNull rfl (.leaf known rfl (Or.inl ⟨.int 10, rfl⟩))

end Filters

end GraphQL
