import GraphQL.Proofs.Coercion.Admitted
import GraphQL.Proofs.Execution.Responses
import GraphQL.Proofs.Introspection.Reading

/-! Introspection is faithful: the full query is answered without errors, and all facts about a schema
are read back from the answer. -/
namespace GraphQL.Execution
open GraphQL.Introspection hiding string

variable {τ σ : Type}

section Known
variable {schema : Schema}

/-- A type by which schemas describe themselves is known where another one refers to it. -/
theorem described_known (built : schema.Built) {type other : TypeDef}
    (known : schema.type? type.name = some type) (refers : other.name ∈ type.references)
    (reserved : other.name.startsWith "__" = true)
    (own : SchemaBuilder.findType? SchemaBuilder.knownTypes other.name = some other) :
    schema.type? other.name = some other := by
  obtain ⟨builder, builds⟩ := built
  have closed := SchemaBuilder.closed_of_build builds
  obtain ⟨found, member, named⟩ := closed.types type (Schema.mem_of_type? known) _ refers
  have here := closed.unique found member
  rw [named] at here
  have same := Schema.Built.reserved ⟨builder, builds⟩ here reserved
  rw [own] at same
  cases same
  exact here

theorem described_types (built : schema.Built) :
    ∀ type ∈ types, schema.type? type.name = some type := by
  have schemaKnown : schema.type? schemaType.name = some schemaType := built.schemaType
  have typeKnown : schema.type? typeType.name = some typeType :=
    described_known built schemaKnown (by decide) (by decide +kernel) rfl
  have directiveKnown : schema.type? directiveType.name = some directiveType :=
    described_known built schemaKnown (by decide) (by decide +kernel) rfl
  have inside {other : TypeDef} (refers : other.name ∈ typeType.references)
      (reserved : other.name.startsWith "__" = true)
      (own : SchemaBuilder.findType? SchemaBuilder.knownTypes other.name = some other) :=
    described_known built typeKnown refers reserved own
  intro type member
  simp only [types, List.mem_cons, List.not_mem_nil, or_false] at member
  rcases member with rfl | rfl | rfl | rfl | rfl | rfl | rfl | rfl
  · exact schemaKnown
  · exact typeKnown
  · exact inside (by decide) (by decide +kernel) rfl
  · exact inside (by decide) (by decide +kernel) rfl
  · exact inside (by decide) (by decide +kernel) rfl
  · exact directiveKnown
  · exact inside (by decide) (by decide +kernel) rfl
  · exact described_known built directiveKnown (by decide) (by decide +kernel) rfl

/-- The scalars that types are described with are the built-in ones. -/
theorem scalar_known (built : schema.Built) (standard : schema.StandardScalars) (scalar : ScalarType)
    (among : scalar ∈ ScalarType.builtins) (refers : scalar.name ∈ typeType.references) :
    schema.type? scalar.name = some (.scalar scalar) := by
  have typeKnown := described_types built typeType (by simp [types])
  obtain ⟨builder, builds⟩ := built
  have closed := SchemaBuilder.closed_of_build builds
  obtain ⟨found, member, named⟩ := closed.types typeType (Schema.mem_of_type? typeKnown) _ refers
  have here := closed.unique found member
  rw [named] at here
  rw [here, standard scalar among found here]

end Known

/-- An execution for a schema whose scalars are the built-in ones, and that lets it speak. -/
structure Executor.Standard (executor : Executor τ σ) : Prop where
  built : executor.plan.schema.Built
  standard : executor.plan.schema.StandardScalars
  discreet : ∀ wrap ∈ executor.middleware, wrap.Discreet

/-- A value is completed to one from which something is read back. -/
def Reports {α : Type} (executor : Executor τ σ) (type : TypeRef) (nodes : List Ast.Field)
    (value : FieldValue τ) (read : Value → Option α) (told : α) : Prop :=
  ∃ out, Becomes executor type nodes value out ∧ read out = some told

section Reporting
variable {α β : Type} {executor : Executor τ σ} {nodes : List Ast.Field} {value : FieldValue τ}
  {read : Value → Option α} {told : α} {type : TypeRef}

theorem Reports.nonNull (reports : Reports executor type nodes value read told)
    (here : value.later? = none) (strict : read .null = none) :
    Reports executor (.nonNull type) nodes value read told := by
  obtain ⟨out, becomes, known⟩ := reports
  refine ⟨out, becomes.nonNull here ?_, known⟩
  cases out with
  | null => simp [strict] at known
  | _ => rfl

theorem Reports.list {f : β → FieldValue τ} {g : β → α} {items : List β}
    (each : ∀ item ∈ items, Reports executor type nodes (f item) read (g item)) :
    Reports executor (.list type) nodes (.list (items.map f)) (readList read) (items.map g) := by
  have outs : ∃ outs, List.Forall₂ (Becomes executor type nodes) (items.map f) outs ∧
      outs.mapM read = some (items.map g) := by
    induction items with
    | nil => exact ⟨[], .nil, rfl⟩
    | cons item rest ih =>
      obtain ⟨⟨out, becomes, known⟩, others⟩ := List.forall_mem_cons.1 each
      obtain ⟨outs, all, reads⟩ := ih others
      refine ⟨out :: outs, .cons becomes all, ?_⟩
      rw [List.mapM_cons, known, reads]
      rfl
  obtain ⟨outs, all, reads⟩ := outs
  exact ⟨.list outs, becomes_list all, reads⟩

/-- What may be absent is read back as it is. -/
theorem Reports.option (nullable : type.isNonNull = false) (strict : read .null = none)
    {f : β → FieldValue τ} {g : β → α} {option : Option β}
    (each : ∀ item ∈ option, Reports executor type nodes (f item) read (g item)) :
    Reports executor type nodes (.ofOption f option) (readOptional read) (option.map g) := by
  cases option with
  | none => exact ⟨.null, becomes_null nullable, rfl⟩
  | some item =>
    obtain ⟨out, becomes, known⟩ := each item rfl
    refine ⟨out, becomes, ?_⟩
    cases out with
    | null => simp [strict] at known
    | _ => simp [readOptional, known]

end Reporting

section Leaves
variable {executor : Executor τ σ} (asked : executor.Standard) (nodes : List Ast.Field)
include asked

theorem text_reports (text : String) : Reports executor (.named "String") nodes
    (.value (.string text)) readText text := by
  have known := scalar_known asked.built asked.standard .string
    (by simp [ScalarType.builtins]) (by decide)
  exact ⟨.string text, becomes_scalar known rfl rfl, rfl⟩

theorem optionalText_reports (text : Option String) : Reports executor (.named "String") nodes
    (.ofOption (fun text => .value (.string text)) text) (readOptional readText) text := by
  cases text with
  | none => exact ⟨.null, becomes_null rfl, rfl⟩
  | some text =>
    have known := scalar_known asked.built asked.standard .string
      (by simp [ScalarType.builtins]) (by decide)
    exact ⟨.string text, becomes_scalar known rfl rfl, rfl⟩

theorem truth_reports (truth : Bool) : Reports executor (.named "Boolean") nodes
    (.value (.boolean truth)) readTruth truth := by
  have known := scalar_known asked.built asked.standard .boolean
    (by simp [ScalarType.builtins]) (by decide)
  exact ⟨.boolean truth, becomes_scalar known rfl rfl, rfl⟩

theorem kind_reports (kind : TypeKind) : Reports executor (.named "__TypeKind") nodes
    (.value (.string kind.text)) readKind kind := by
  refine ⟨.enum kind.text, becomes_enum (described_types asked.built typeKindType (by simp [types]))
    rfl ?_, ?_⟩
  · cases kind <;> rfl
  · cases kind <;> rfl

theorem location_reports (location : DirectiveLocation) :
    Reports executor (.named "__DirectiveLocation") nodes (.value (.string location.text))
      (readEnum DirectiveLocation.text DirectiveLocation.all) location := by
  refine ⟨.enum location.text, becomes_enum
    (described_types asked.built directiveLocationType (by simp [types])) rfl ?_, ?_⟩
  · cases location <;> rfl
  · cases location <;> rfl

end Leaves

/-- The object type that a definition is. -/
def objectIn : TypeDef → ObjectType
  | .object object => object
  | _ => { name := "" }

/-- The nodes of a reference have different keys. -/
theorem referenceNodes_fine (depth : Nat) : (∀ node ∈ referenceNodes depth, node.directives = []) ∧
    ((referenceNodes depth).map Ast.Field.responseKey).Nodup := by
  cases depth with
  | zero => exact ⟨by simp [referenceNodes, leafNode], by decide⟩
  | succ depth =>
    refine ⟨by simp [referenceNodes, leafNode, partNode], ?_⟩
    show List.Nodup ["kind", "name", "ofType"]
    decide

section Parts
variable {executor : Executor τ σ} (asked : executor.Standard)
include asked

/-- A field of a type that schemas describe themselves with. -/
theorem described_shows (type : TypeDef) (source : FieldValue τ) (node : Ast.Field) {field : Field}
    {arguments : Entries Value} {value : FieldValue τ} {out : Value}
    (ordinary : executor.plan.schema.metaField? (.object (objectIn type)) node.name.text = none)
    (defined : (objectIn type).fields.find? node.name.text = some field)
    (computed : field.resolver = some .introspection)
    (given : argumentValues executor.plan.schema executor.plan.bindings node.arguments
      field.arguments.items = .ok arguments)
    (told : ∀ path, Introspection.resolve source arguments
      ⟨executor.plan, ⟨objectIn type, field, [node]⟩, path⟩ = .ok value)
    (becomes : Becomes executor field.type [node] value out) :
    Shows executor (objectIn type) source node out := by
  refine shows_described asked.discreet ?_ computed given told becomes
  rw [Schema.objectField?, Schema.field?, ordinary]
  exact defined

theorem known_type {name : String} (known : Known executor.plan.schema.types name) :
    ∃ type, executor.plan.schema.type? name = some type := by
  obtain ⟨type, member, named⟩ := known
  rw [← named]
  exact ⟨type, asked.built.unique member⟩

/-- An object that schemas describe themselves with is completed from its fields. -/
theorem described_becomes (type : TypeDef) (among : type ∈ types) (source : FieldValue τ)
    {nodes : List Ast.Field} {outs : List Value} {outer : Ast.Field}
    (is : type = .object (objectIn type)) (unguarded : (objectIn type).isTypeOf = none)
    (here : source.later? = none) (solid : source.isNull = false)
    (selects : outer.selectionSet = some (setOf nodes)) (plain : ∀ node ∈ nodes, node.directives = [])
    (distinct : (nodes.map Ast.Field.responseKey).Nodup)
    (shows : List.Forall₂ (Shows executor (objectIn type) source) nodes outs) :
    Becomes executor (.named type.name) [outer] source
      (.object ((nodes.map Ast.Field.responseKey).zip outs)) := by
  have known := described_types asked.built type among
  exact becomes_object (known.trans (congrArg some is)) unguarded here solid selects plain distinct
    shows

omit asked in
theorem kindOf_named {name : String} {type : TypeDef}
    (known : executor.plan.schema.type? name = some type) :
    Introspection.kindOf executor.plan.schema (.named name) = .ok type.kind := by
  rw [Introspection.kindOf, known]

theorem kind_shows (type : TypeRef) {kind : TypeKind}
    (told : Introspection.kindOf executor.plan.schema type = .ok kind) :
    ∃ out, Shows executor (objectIn typeType) (Introspection.typeOf type) (leafNode "kind") out ∧
      readKind out = some kind := by
  obtain ⟨out, becomes, read⟩ := kind_reports asked [leafNode "kind"] kind
  have answers (path : Path) : Introspection.resolve (Introspection.typeOf type) [] ⟨executor.plan,
      ⟨objectIn typeType, fieldOf "kind" (nonNull "__TypeKind"), [leafNode "kind"]⟩, path⟩ =
        .ok (.value (.string kind.text) : FieldValue τ) := by
    show (Introspection.kindOf executor.plan.schema type).map _ = _
    rw [told]
    rfl
  have solid : out.isNull = false := by
    cases out with
    | null => cases read
    | _ => rfl
  exact ⟨out, described_shows asked _ _ _ rfl rfl rfl rfl answers (becomes.nonNull rfl solid), read⟩

theorem name_shows (name : String) :
    ∃ out, Shows executor (objectIn typeType) (Introspection.typeNamed name) (leafNode "name") out ∧
      readText out = some name := by
  obtain ⟨out, becomes, read⟩ := text_reports asked [leafNode "name"] name
  exact ⟨out, described_shows asked _ _ _ rfl rfl rfl rfl (fun _ => rfl) becomes, read⟩

/-- A reference of some depth is completed from its kind, its name and what it wraps. -/
theorem reference_becomes {depth : Nat} {type : TypeRef} {outer : Ast.Field} {kind text inner : Value}
    (selects : outer.selectionSet = some (setOf (referenceNodes (depth + 1))))
    (kindShows : Shows executor (objectIn typeType) (Introspection.typeOf type)
      (leafNode "kind") kind)
    (nameShows : Shows executor (objectIn typeType) (Introspection.typeOf type)
      (leafNode "name") text)
    (innerShows : Shows executor (objectIn typeType) (Introspection.typeOf type)
      (partNode "ofType" (referenceNodes depth)) inner) :
    Becomes executor (.named "__Type") [outer] (Introspection.typeOf type)
      (.object [("kind", kind), ("name", text), ("ofType", inner)]) := by
  obtain ⟨plain, distinct⟩ := referenceNodes_fine (depth + 1)
  exact described_becomes asked typeType (by simp [types]) _ rfl rfl rfl rfl selects plain
    distinct (.cons kindShows (.cons nameShows (.cons innerShows .nil)))

/-- A wrapper tells its kind and what it wraps. -/
theorem wrapper_becomes {depth : Nat} {type inner : TypeRef} {outer : Ast.Field} (kind : TypeKind)
    (selects : outer.selectionSet = some (setOf (referenceNodes (depth + 1))))
    (kinded : Introspection.kindOf executor.plan.schema type = .ok kind)
    (wraps : type = .list inner ∨ type = .nonNull inner)
    (reports : Reports executor (.named "__Type") [partNode "ofType" (referenceNodes depth)]
      (Introspection.typeOf inner) (readReference depth) inner) :
    ∃ out, Becomes executor (.named "__Type") [outer] (Introspection.typeOf type) out ∧
      member "kind" readKind out = some kind ∧
        member "ofType" (readReference depth) out = some inner := by
  obtain ⟨first, kindShows, readKind⟩ := kind_shows asked type kinded
  obtain ⟨last, becomes, read⟩ := reports
  have nameless : Becomes executor (.named "String") [leafNode "name"] .null .null := becomes_null rfl
  rcases wraps with rfl | rfl
  · exact ⟨_, reference_becomes asked selects kindShows
      (described_shows asked _ _ _ rfl rfl rfl rfl (fun _ => rfl) nameless)
      (described_shows asked _ _ _ rfl rfl rfl rfl (fun _ => rfl) becomes), readKind, read⟩
  · exact ⟨_, reference_becomes asked selects kindShows
      (described_shows asked _ _ _ rfl rfl rfl rfl (fun _ => rfl) nameless)
      (described_shows asked _ _ _ rfl rfl rfl rfl (fun _ => rfl) becomes), readKind, read⟩

/-- A reference to a known type is told whole if it is asked for deeply enough. -/
theorem reference_reports (depth : Nat) {type : TypeRef} (shallow : type.wraps ≤ depth)
    (known : Known executor.plan.schema.types type.innermost) {outer : Ast.Field}
    (selects : outer.selectionSet = some (setOf (referenceNodes depth))) :
    Reports executor (.named "__Type") [outer] (Introspection.typeOf type) (readReference depth)
      type := by
  induction depth generalizing type outer with
  | zero =>
    obtain ⟨plain, distinct⟩ := referenceNodes_fine 0
    cases type with
    | named name =>
      obtain ⟨found, here⟩ := known_type asked known
      obtain ⟨kind, kindShows, -⟩ := kind_shows asked (.named name) (kindOf_named here)
      obtain ⟨text, nameShows, read⟩ := name_shows asked name
      refine ⟨_, described_becomes asked typeType (by simp [types]) _ rfl rfl rfl rfl
        selects plain distinct (.cons kindShows (.cons nameShows .nil)), ?_⟩
      show (readText text).map TypeRef.named = _
      rw [read]
      rfl
    | list item => exact absurd shallow (Nat.not_succ_le_zero _)
    | nonNull inner => exact absurd shallow (Nat.not_succ_le_zero _)
  | succ depth ih =>
    have selectsInside : (partNode "ofType" (referenceNodes depth)).selectionSet =
        some (setOf (referenceNodes depth)) := rfl
    cases type with
    | named name =>
      obtain ⟨found, here⟩ := known_type asked known
      obtain ⟨kind, kindShows, readKind⟩ := kind_shows asked (.named name) (kindOf_named here)
      obtain ⟨text, nameShows, read⟩ := name_shows asked name
      refine ⟨_, reference_becomes asked selects kindShows nameShows
        (described_shows asked _ _ _ rfl rfl rfl rfl (fun _ => rfl) (becomes_null rfl)), ?_⟩
      have named : member "name" readText
          (.object [("kind", kind), ("name", text), ("ofType", .null)]) = some name := read
      have kinded : member "kind" Introspection.readKind
          (.object [("kind", kind), ("name", text), ("ofType", .null)]) = some found.kind := readKind
      rw [readReference, kinded, named]
      cases found <;> rfl
    | list item =>
      have inside := ih (Nat.le_of_succ_le_succ shallow) known selectsInside
      obtain ⟨out, becomes, kinded, read⟩ :=
        wrapper_becomes asked .list selects rfl (.inl rfl) inside
      refine ⟨out, becomes, ?_⟩
      rw [readReference, kinded, read]
      rfl
    | nonNull inner =>
      have inside := ih (Nat.le_of_succ_le_succ shallow) known selectsInside
      obtain ⟨out, becomes, kinded, read⟩ :=
        wrapper_becomes asked .nonNull selects rfl (.inr rfl) inside
      refine ⟨out, becomes, ?_⟩
      rw [readReference, kinded, read]
      rfl

/-- A reference that is not too deep, to a known type. -/
structure Tellable (executor : Executor τ σ) (depth : Nat) (type : TypeRef) : Prop where
  known : Known executor.plan.schema.types type.innermost
  shallow : type.wraps ≤ depth

theorem input_reports (depth : Nat) {input : InputValue} (fits : Tellable executor depth input.type)
    {outer : Ast.Field} (selects : outer.selectionSet = some (setOf (inputNodes depth))) :
    Reports executor (.named "__InputValue") [outer] (.described (.input input)) (readInput depth)
      (inputFacts executor.plan.schema input) := by
  obtain ⟨_, name, readName⟩ :=
    (text_reports asked [leafNode "name"] input.name).nonNull rfl rfl
  obtain ⟨_, description, readDescription⟩ :=
    optionalText_reports asked [leafNode "description"] input.description
  obtain ⟨_, type, readsType⟩ := (reference_reports asked depth fits.shallow fits.known
    (show (partNode "type" (referenceNodes depth)).selectionSet = _ from rfl)).nonNull rfl
      (by cases depth <;> rfl)
  obtain ⟨_, default, readDefault⟩ := optionalText_reports asked [leafNode "defaultValue"]
    (inputFacts executor.plan.schema input).default
  refine ⟨_, described_becomes asked inputValueType (by simp [types]) _ rfl rfl rfl rfl
    selects ?_ ?_ (.cons
      (described_shows asked _ _ _ rfl rfl rfl rfl (fun _ => rfl) name) (.cons
      (described_shows asked _ _ _ rfl rfl rfl rfl (fun _ => rfl) description) (.cons
      (described_shows asked _ _ _ rfl rfl rfl rfl (fun _ => rfl) type) (.cons
      (described_shows asked _ _ _ rfl rfl rfl rfl (fun _ => rfl) default) .nil)))), ?_⟩
  · simp [inputNodes, leafNode, partNode]
  · show List.Nodup ["name", "description", "type", "defaultValue"]
    decide
  · show (do
      let name ← readText _
      let description ← readOptional readText _
      let type ← readReference depth _
      let default ← readOptional readText _
      return (⟨name, description, type, default⟩ : InputFacts)) = _
    rw [readName, readDescription, readsType, readDefault]
    rfl

theorem inputs_report (depth : Nat) {inputs : List InputValue}
    (fits : ∀ input ∈ inputs, Tellable executor depth input.type) {outer : Ast.Field}
    (selects : outer.selectionSet = some (setOf (inputNodes depth))) :
    Reports executor (nullableListOf "__InputValue") [outer]
      (.list (inputs.map fun input => .described (.input input))) (readList (readInput depth))
      (inputs.map (inputFacts executor.plan.schema)) :=
  .list fun _ member => (input_reports asked depth (fits _ member) selects).nonNull rfl rfl

theorem field_reports (depth : Nat) {field : Field}
    (fits : ∀ type ∈ field.typeRefs, Tellable executor depth type) {outer : Ast.Field}
    (selects : outer.selectionSet = some (setOf (fieldNodes depth))) :
    Reports executor (.named "__Field") [outer] (.described (.field field)) (readField depth)
      (fieldFacts executor.plan.schema field) := by
  obtain ⟨own, others⟩ := List.forall_mem_cons.1 fits
  obtain ⟨_, name, readName⟩ :=
    (text_reports asked [leafNode "name"] field.name).nonNull rfl rfl
  obtain ⟨_, description, readDescription⟩ :=
    optionalText_reports asked [leafNode "description"] field.description
  obtain ⟨_, arguments, readArguments⟩ := (inputs_report asked depth (List.forall_mem_map.1 others)
    (show (partNode "args" (inputNodes depth)).selectionSet = _ from rfl)).nonNull rfl rfl
  obtain ⟨_, type, readsType⟩ := (reference_reports asked depth own.shallow own.known
    (show (partNode "type" (referenceNodes depth)).selectionSet = _ from rfl)).nonNull rfl
      (by cases depth <;> rfl)
  obtain ⟨_, deprecated, readDeprecated⟩ :=
    (truth_reports asked [leafNode "isDeprecated"] field.deprecation.isSome).nonNull rfl rfl
  obtain ⟨_, reason, readReason⟩ :=
    optionalText_reports asked [leafNode "deprecationReason"] field.deprecation
  refine ⟨_, described_becomes asked fieldType (by simp [types]) _ rfl rfl rfl rfl
    selects ?_ ?_ (.cons
      (described_shows asked _ _ _ rfl rfl rfl rfl (fun _ => rfl) name) (.cons
      (described_shows asked _ _ _ rfl rfl rfl rfl (fun _ => rfl) description) (.cons
      (described_shows asked _ _ _ rfl rfl rfl rfl (fun _ => rfl) arguments) (.cons
      (described_shows asked _ _ _ rfl rfl rfl rfl (fun _ => rfl) type) (.cons
      (described_shows asked _ _ _ rfl rfl rfl rfl (fun _ => rfl) deprecated) (.cons
      (described_shows asked _ _ _ rfl rfl rfl rfl (fun _ => rfl) reason) .nil)))))), ?_⟩
  · simp [fieldNodes, leafNode, partNode]
  · show List.Nodup ["name", "description", "args", "type", "isDeprecated", "deprecationReason"]
    decide
  · show (do
      let name ← readText _
      let description ← readOptional readText _
      let arguments ← readList (readInput depth) _
      let type ← readReference depth _
      let isDeprecated ← readTruth _
      let deprecationReason ← readOptional readText _
      return (⟨name, description, arguments, type, isDeprecated, deprecationReason⟩ : FieldFacts)) = _
    rw [readName, readDescription, readArguments, readsType, readDeprecated, readReason]
    rfl

theorem enumValue_reports (value : EnumValue) {outer : Ast.Field}
    (selects : outer.selectionSet = some (setOf enumValueNodes)) :
    Reports executor (.named "__EnumValue") [outer] (.described (.enumValue value)) readEnumValue
      (enumValueFacts value) := by
  obtain ⟨_, name, readName⟩ :=
    (text_reports asked [leafNode "name"] value.name).nonNull rfl rfl
  obtain ⟨_, description, readDescription⟩ :=
    optionalText_reports asked [leafNode "description"] value.description
  obtain ⟨_, deprecated, readDeprecated⟩ :=
    (truth_reports asked [leafNode "isDeprecated"] value.deprecation.isSome).nonNull rfl rfl
  obtain ⟨_, reason, readReason⟩ :=
    optionalText_reports asked [leafNode "deprecationReason"] value.deprecation
  refine ⟨_, described_becomes asked enumValueType (by simp [types]) _ rfl rfl rfl rfl
    selects ?_ ?_ (.cons
      (described_shows asked _ _ _ rfl rfl rfl rfl (fun _ => rfl) name) (.cons
      (described_shows asked _ _ _ rfl rfl rfl rfl (fun _ => rfl) description) (.cons
      (described_shows asked _ _ _ rfl rfl rfl rfl (fun _ => rfl) deprecated) (.cons
      (described_shows asked _ _ _ rfl rfl rfl rfl (fun _ => rfl) reason) .nil)))), ?_⟩
  · simp [enumValueNodes, leafNode]
  · decide
  · show (do
      let name ← readText _
      let description ← readOptional readText _
      let isDeprecated ← readTruth _
      let deprecationReason ← readOptional readText _
      return (⟨name, description, isDeprecated, deprecationReason⟩ : EnumValueFacts)) = _
    rw [readName, readDescription, readDeprecated, readReason]
    rfl

theorem directive_reports (depth : Nat) {directive : DirectiveDef}
    (fits : ∀ argument ∈ directive.arguments, Tellable executor depth argument.type) {outer : Ast.Field}
    (selects : outer.selectionSet = some (setOf (directiveNodes depth))) :
    Reports executor (.named "__Directive") [outer] (.described (.directive directive))
      (readDirective depth) (directiveFacts executor.plan.schema directive) := by
  obtain ⟨_, name, readName⟩ :=
    (text_reports asked [leafNode "name"] directive.name).nonNull rfl rfl
  obtain ⟨_, description, readDescription⟩ :=
    optionalText_reports asked [leafNode "description"] directive.description
  have places : Reports executor (nullableListOf "__DirectiveLocation") [leafNode "locations"]
      (.list (directive.locations.map fun location => .value (.string location.text)))
      (readList (readEnum DirectiveLocation.text DirectiveLocation.all))
      (directive.locations.map id) :=
    .list fun location _ => (location_reports asked _ location).nonNull rfl rfl
  obtain ⟨_, locations, readLocations⟩ := places.nonNull rfl rfl
  obtain ⟨_, arguments, readArguments⟩ := (inputs_report asked depth fits
    (show (partNode "args" (inputNodes depth)).selectionSet = _ from rfl)).nonNull rfl rfl
  refine ⟨_, described_becomes asked directiveType (by simp [types]) _ rfl rfl rfl rfl
    selects ?_ ?_ (.cons
      (described_shows asked _ _ _ rfl rfl rfl rfl (fun _ => rfl) name) (.cons
      (described_shows asked _ _ _ rfl rfl rfl rfl (fun _ => rfl) description) (.cons
      (described_shows asked _ _ _ rfl rfl rfl rfl (fun _ => rfl) locations) (.cons
      (described_shows asked _ _ _ rfl rfl rfl rfl (fun _ => rfl) arguments) .nil)))), ?_⟩
  · simp [directiveNodes, leafNode, partNode]
  · show List.Nodup ["name", "description", "locations", "args"]
    decide
  · show (do
      let name ← readText _
      let description ← readOptional readText _
      let locations ← readList (readEnum DirectiveLocation.text DirectiveLocation.all) _
      let arguments ← readList (readInput depth) _
      return (⟨name, description, locations, arguments⟩ : DirectiveFacts)) = _
    rw [readName, readDescription, readLocations, readArguments, List.map_id]
    rfl

omit asked in
theorem possible_known {name : String} {object : ObjectType}
    (possible : object ∈ executor.plan.schema.possibleTypes name) :
    Known executor.plan.schema.types object.name := by
  rw [Schema.possibleTypes] at possible
  split at possible
  · obtain ⟨listed, -⟩ := List.mem_filter.1 possible
    obtain ⟨type, member, is⟩ := List.mem_filterMap.1 listed
    rw [SchemaBuilder.object?_eq_some_iff.1 is] at member
    exact ⟨_, member, rfl⟩
  · obtain ⟨name, -, found⟩ := List.mem_filterMap.1 possible
    exact ⟨_, Schema.mem_of_type? (Schema.type?_of_object? found), rfl⟩
  · cases possible

/-- Types that are referred to by name are told. -/
theorem names_report {α : Type} (depth : Nat) (names : α → String) {items : List α}
    (known : ∀ item ∈ items, Known executor.plan.schema.types (names item)) {outer : Ast.Field}
    (selects : outer.selectionSet = some (setOf (referenceNodes depth))) :
    Reports executor (nullableListOf "__Type") [outer]
      (.list (items.map fun item => Introspection.typeNamed (names item)))
      (readList (readReference depth)) (items.map fun item => .named (names item)) := by
  refine .list fun item member => ?_
  have here : Known executor.plan.schema.types (TypeRef.named (names item)).innermost :=
    known item member
  exact (reference_reports asked depth (Nat.zero_le _) here selects).nonNull rfl
    (by cases depth <;> rfl)

theorem fields_report (depth : Nat) {type : TypeDef}
    (fits : ∀ reference ∈ type.typeRefs, Tellable executor depth reference) {outer : Ast.Field}
    (selects : outer.selectionSet = some (setOf (fieldNodes depth))) :
    Reports executor (nullableListOf "__Field") [outer]
      (.ofOption (fun fields : Definitions Field => .list (fields.items.map fun field =>
        .described (.field field))) type.fields?) (readOptional (readList (readField depth)))
      (typeFacts executor.plan.schema type).fields := by
  refine .option rfl rfl fun fields has => .list fun field inside => ?_
  refine (field_reports asked depth (fun reference member => fits reference ?_) selects).nonNull
    rfl rfl
  cases type with
  | object _ | interface _ =>
    cases has
    exact List.mem_flatMap.2 ⟨field, inside, member⟩
  | _ => cases has

theorem enumValues_report (type : TypeDef) {outer : Ast.Field}
    (selects : outer.selectionSet = some (setOf enumValueNodes)) :
    Reports executor (nullableListOf "__EnumValue") [outer]
      (.ofOption (fun enum : EnumType => .list (enum.values.items.map fun value =>
        .described (.enumValue value))) (enum? type)) (readOptional (readList readEnumValue))
      (typeFacts executor.plan.schema type).enumValues :=
  .option rfl rfl fun _ _ => .list fun value _ =>
    (enumValue_reports asked value selects).nonNull rfl rfl

theorem inputFields_report (depth : Nat) {type : TypeDef}
    (fits : ∀ reference ∈ type.typeRefs, Tellable executor depth reference) {outer : Ast.Field}
    (selects : outer.selectionSet = some (setOf (inputNodes depth))) :
    Reports executor (nullableListOf "__InputValue") [outer]
      (.ofOption (fun input : InputObjectType => .list (input.fields.items.map fun field =>
        .described (.input field))) (inputObject? type)) (readOptional (readList (readInput depth)))
      (typeFacts executor.plan.schema type).inputFields := by
  refine .option rfl rfl fun input has => inputs_report asked depth (fun field inside => ?_) selects
  cases type with
  | inputObject _ =>
    cases has
    exact fits _ (List.mem_map_of_mem inside)
  | _ => cases has

theorem interfaces_report (depth : Nat) {type : TypeDef}
    (known : ∀ name ∈ type.relatives, Known executor.plan.schema.types name) {outer : Ast.Field}
    (selects : outer.selectionSet = some (setOf (referenceNodes depth))) :
    Reports executor (nullableListOf "__Type") [outer]
      (.ofOption (fun object : ObjectType =>
        .list (object.interfaces.map Introspection.typeNamed)) type.object?)
      (readOptional (readList (readReference depth)))
      (typeFacts executor.plan.schema type).interfaces := by
  refine .option rfl rfl fun object has => names_report asked depth id (fun name inside => ?_) selects
  cases type with
  | object _ =>
    cases has
    exact known name inside
  | _ => cases has

theorem possibleTypes_report (depth : Nat) (type : TypeDef) {outer : Ast.Field}
    (selects : outer.selectionSet = some (setOf (referenceNodes depth))) :
    Reports executor (nullableListOf "__Type") [outer]
      (.ofOption (fun type : TypeDef => .list ((executor.plan.schema.possibleTypes type.name).map
        fun object => Introspection.typeNamed object.name)) ((some type).filter TypeDef.isAbstract))
      (readOptional (readList (readReference depth)))
      (typeFacts executor.plan.schema type).possibleTypes :=
  .option rfl rfl fun _ _ =>
    names_report asked depth ObjectType.name (fun _ possible => possible_known possible) selects

/-- A known type tells all its members, with those that are deprecated. -/
structure Members (schema : Schema) (type : TypeDef) : Prop where
  fields : Introspection.ofType (τ := τ) schema (.named type.name) true "fields" =
    .ok (.ofOption (fun fields : Definitions Field => .list (fields.items.map fun field =>
      .described (.field field))) type.fields?)
  interfaces : Introspection.ofType (τ := τ) schema (.named type.name) false "interfaces" =
    .ok (.ofOption (fun object : ObjectType =>
      .list (object.interfaces.map Introspection.typeNamed)) type.object?)
  possibleTypes : Introspection.ofType (τ := τ) schema (.named type.name) false "possibleTypes" =
    .ok (.ofOption (fun type : TypeDef => .list ((schema.possibleTypes type.name).map
      fun object => Introspection.typeNamed object.name)) ((some type).filter TypeDef.isAbstract))
  enumValues : Introspection.ofType (τ := τ) schema (.named type.name) true "enumValues" =
    .ok (.ofOption (fun enum : EnumType => .list (enum.values.items.map fun value =>
      .described (.enumValue value))) (enum? type))
  inputFields : Introspection.ofType (τ := τ) schema (.named type.name) false "inputFields" =
    .ok (.ofOption (fun input : InputObjectType => .list (input.fields.items.map fun field =>
      .described (.input field))) (inputObject? type))

omit asked in
theorem members_told {schema : Schema} {type : TypeDef}
    (known : schema.type? type.name = some type) : Members (τ := τ) schema type := by
  have bare : Introspection.bare? schema (.named type.name) = some type := known
  constructor
  · simp only [Introspection.ofType, bare, Option.bind_some, Bool.true_or]
    cases type.fields? with
    | none => rfl
    | some fields => simp [Introspection.optionalList, FieldValue.ofOption]
  · simp only [Introspection.ofType, bare, Option.bind_some]
    cases type.object? <;> rfl
  · simp only [Introspection.ofType, bare, Option.filter_some]
    cases type.isAbstract <;> rfl
  · simp only [Introspection.ofType, bare, Bool.true_or]
    cases type with
    | enum enum => simp [Introspection.optionalList, FieldValue.ofOption, enum?]
    | _ => rfl
  · simp only [Introspection.ofType, bare]
    cases type <;> rfl

/-- A field that is asked for what is deprecated, too. -/
theorem whole_given (name : String) (nodes : List Ast.Field) :
    argumentValues executor.plan.schema executor.plan.bindings (wholeNode name nodes).arguments
      includeDeprecated = .ok [("includeDeprecated", .boolean true)] := by
  have known := scalar_known asked.built asked.standard .boolean
    (by simp [ScalarType.builtins]) (by decide)
  have read : executor.plan.schema.literalValue executor.plan.bindings (.boolean true none)
      (.named ScalarType.boolean.name) = some (.boolean true) := by
    simp only [Schema.literalValue, LiteralValue.ofLiteral, LiteralValue.ofLayer, known]
    rfl
  have given : argumentValue executor.plan.schema executor.plan.bindings
      (wholeNode name nodes).arguments
      { name := "includeDeprecated", type := .named "Boolean", default := some (.boolean false) } =
        .ok (some (.boolean true)) := by
    simp [argumentValue, wholeNode, show executor.plan.schema.literalValue _ _ (.named "Boolean") = _
      from read]
  rw [includeDeprecated, argumentValues, given]
  rfl

theorem type_reports (depth : Nat) {type : TypeDef} (among : type ∈ executor.plan.schema.types)
    (fits : ∀ reference ∈ type.typeRefs, Tellable executor depth reference)
    (known : ∀ name ∈ type.relatives, Known executor.plan.schema.types name) {outer : Ast.Field}
    (selects : outer.selectionSet = some (setOf (typeNodes depth))) :
    Reports executor (.named "__Type") [outer] (Introspection.typeNamed type.name) (readType depth)
      (typeFacts executor.plan.schema type) := by
  have here := asked.built.unique among
  have members := members_told (τ := τ) here
  obtain ⟨_, kind, readKind⟩ := kind_shows asked (.named type.name) (kindOf_named here)
  obtain ⟨_, name, readName⟩ := name_shows asked type.name
  obtain ⟨_, description, readDescription⟩ :=
    optionalText_reports asked [leafNode "description"] type.description
  obtain ⟨_, fields, readFields⟩ := fields_report asked depth fits
    (show (wholeNode "fields" (fieldNodes depth)).selectionSet = _ from rfl)
  obtain ⟨_, interfaces, readInterfaces⟩ := interfaces_report asked depth known
    (show (partNode "interfaces" (referenceNodes depth)).selectionSet = _ from rfl)
  obtain ⟨_, possible, readPossible⟩ := possibleTypes_report asked depth type
    (show (partNode "possibleTypes" (referenceNodes depth)).selectionSet = _ from rfl)
  obtain ⟨_, enumValues, readEnumValues⟩ := enumValues_report asked type
    (show (wholeNode "enumValues" enumValueNodes).selectionSet = _ from rfl)
  obtain ⟨_, inputFields, readInputFields⟩ := inputFields_report asked depth fits
    (show (partNode "inputFields" (inputNodes depth)).selectionSet = _ from rfl)
  have described (path : Path) : Introspection.resolve (Introspection.typeNamed type.name) []
      ⟨executor.plan, ⟨objectIn typeType, fieldOf "description" Introspection.string,
        [leafNode "description"]⟩, path⟩ = Introspection.optionalText (τ := τ) type.description := by
    show Introspection.optionalText ((Introspection.bare? _ _).bind TypeDef.description) = _
    rw [Introspection.bare?, here]
    rfl
  refine ⟨_, described_becomes asked typeType (by simp [types]) _ rfl rfl rfl rfl
    selects ?_ ?_ (.cons kind (.cons name (.cons
      (described_shows asked _ _ _ rfl rfl rfl rfl described description) (.cons
      (described_shows asked _ _ _ rfl rfl rfl (whole_given asked _ _) (fun _ => members.fields)
        fields) (.cons
      (described_shows asked _ _ _ rfl rfl rfl rfl (fun _ => members.interfaces) interfaces) (.cons
      (described_shows asked _ _ _ rfl rfl rfl rfl (fun _ => members.possibleTypes) possible) (.cons
      (described_shows asked _ _ _ rfl rfl rfl (whole_given asked _ _) (fun _ => members.enumValues)
        enumValues) (.cons
      (described_shows asked _ _ _ rfl rfl rfl rfl (fun _ => members.inputFields) inputFields)
        .nil)))))))), ?_⟩
  · simp [typeNodes, leafNode, partNode, wholeNode]
  · show List.Nodup ["kind", "name", "description", "fields", "interfaces", "possibleTypes",
      "enumValues", "inputFields"]
    decide
  · show (do
      let kind ← Introspection.readKind _
      let name ← readText _
      let description ← readOptional readText _
      let fields ← readOptional (readList (readField depth)) _
      let interfaces ← readOptional (readList (readReference depth)) _
      let possibleTypes ← readOptional (readList (readReference depth)) _
      let enumValues ← readOptional (readList readEnumValue) _
      let inputFields ← readOptional (readList (readInput depth)) _
      return (⟨kind, name, description, fields, interfaces, possibleTypes, enumValues,
        inputFields⟩ : TypeFacts)) = _
    rw [readKind, readName, readDescription, readFields, readInterfaces, readPossible,
      readEnumValues, readInputFields]
    rfl

theorem closed_of_asked : executor.plan.schema.Closed := by
  obtain ⟨builder, builds⟩ := asked.built
  exact SchemaBuilder.closed_of_build builds

theorem root_reports (depth : Nat) (operation : Ast.OperationType) {root : ObjectType}
    (rooted : executor.plan.schema.rootType? operation = some root) {outer : Ast.Field}
    (selects : outer.selectionSet = some (setOf (referenceNodes depth))) :
    Reports executor (.named "__Type") [outer] (Introspection.typeNamed root.name)
      (readReference depth) (.named root.name) := by
  have known : Known executor.plan.schema.types (TypeRef.named root.name).innermost :=
    ⟨_, (closed_of_asked asked).roots operation root rooted, rfl⟩
  exact reference_reports asked depth (Nat.zero_le _) known selects

theorem schema_reports {depth : Nat} (shallow : executor.plan.schema.Shallow depth)
    {outer : Ast.Field} (selects : outer.selectionSet = some (setOf (schemaNodes depth))) :
    Reports executor (.named "__Schema") [outer] (.described .schema) (readSchema depth)
      (schemaFacts executor.plan.schema) := by
  have closed := closed_of_asked asked
  have strict : readReference depth .null = none := by cases depth <;> rfl
  obtain ⟨_, query, readQuery⟩ := (root_reports asked depth .query rfl
    (show (partNode "queryType" (referenceNodes depth)).selectionSet = _ from rfl)).nonNull rfl strict
  have mutation : Reports executor (.named "__Type")
      [partNode "mutationType" (referenceNodes depth)]
      (.ofOption (fun root => Introspection.typeNamed root.name) executor.plan.schema.mutation)
      (readOptional (readReference depth)) (schemaFacts executor.plan.schema).mutation :=
    .option rfl strict fun root rooted => root_reports asked depth .mutation rooted rfl
  have subscription : Reports executor (.named "__Type")
      [partNode "subscriptionType" (referenceNodes depth)]
      (.ofOption (fun root => Introspection.typeNamed root.name) executor.plan.schema.subscription)
      (readOptional (readReference depth)) (schemaFacts executor.plan.schema).subscription :=
    .option rfl strict fun root rooted => root_reports asked depth .subscription rooted rfl
  have types : Reports executor (nullableListOf "__Type") [partNode "types" (typeNodes depth)]
      (.list (executor.plan.schema.types.map fun type => Introspection.typeNamed type.name))
      (readList (readType depth)) (schemaFacts executor.plan.schema).types := by
    refine .list fun type among => ?_
    have references := closed.types type among
    refine (type_reports asked depth among (fun reference member => ⟨?_, ?_⟩)
      (fun name member => ?_) rfl).nonNull rfl rfl
    · exact references _ (List.mem_append_left _ (List.mem_map_of_mem member))
    · exact shallow.types type among reference member
    · exact references _ (List.mem_append_right _ member)
  have directives : Reports executor (nullableListOf "__Directive")
      [partNode "directives" (directiveNodes depth)]
      (.list (executor.plan.schema.directives.map fun directive => .described (.directive directive)))
      (readList (readDirective depth)) (schemaFacts executor.plan.schema).directives :=
    .list fun directive among => (directive_reports asked depth (fun argument member =>
      ⟨closed.arguments directive among argument member,
        shallow.arguments directive among argument member⟩) rfl).nonNull rfl rfl
  obtain ⟨_, mutation, readMutation⟩ := mutation
  obtain ⟨_, subscription, readSubscription⟩ := subscription
  obtain ⟨_, types, readTypes⟩ := types.nonNull rfl rfl
  obtain ⟨_, directives, readDirectives⟩ := directives.nonNull rfl rfl
  refine ⟨_, described_becomes asked schemaType (by simp [Introspection.types]) _ rfl rfl rfl rfl
    selects ?_ ?_ (.cons
      (described_shows asked _ _ _ rfl rfl rfl rfl (fun _ => rfl) query) (.cons
      (described_shows asked _ _ _ rfl rfl rfl rfl (fun _ => rfl) mutation) (.cons
      (described_shows asked _ _ _ rfl rfl rfl rfl (fun _ => rfl) subscription) (.cons
      (described_shows asked _ _ _ rfl rfl rfl rfl (fun _ => rfl) types) (.cons
      (described_shows asked _ _ _ rfl rfl rfl rfl (fun _ => rfl) directives) .nil))))), ?_⟩
  · simp [schemaNodes, partNode]
  · show List.Nodup ["queryType", "mutationType", "subscriptionType", "types", "directives"]
    decide
  · show (do
      let query ← readReference depth _
      let mutation ← readOptional (readReference depth) _
      let subscription ← readOptional (readReference depth) _
      let types ← readList (readType depth) _
      let directives ← readList (readDirective depth) _
      return (⟨query, mutation, subscription, types, directives⟩ : SchemaFacts)) = _
    rw [readQuery, readMutation, readSubscription, readTypes, readDirectives]
    rfl

/-- The root of a query tells the schema. -/
theorem root_shows {depth : Nat} (shallow : executor.plan.schema.Shallow depth) :
    ∃ out, readSchema depth out = some (schemaFacts executor.plan.schema) ∧
      ∀ source, Shows executor executor.plan.schema.query source
        (partNode "__schema" (schemaNodes depth)) out := by
  obtain ⟨out, becomes, read⟩ := (schema_reports asked shallow
    (show (partNode "__schema" (schemaNodes depth)).selectionSet = _ from rfl)).nonNull rfl rfl
  have defined : executor.plan.schema.objectField? executor.plan.schema.query "__schema" =
      some schemaField := by
    have here : TypeDef.name (.object executor.plan.schema.query) =
      executor.plan.schema.query.name := rfl
    simp [Schema.objectField?, Schema.field?, Schema.metaField?, here]
  exact ⟨out, read, fun source =>
    shows_described asked.discreet defined rfl rfl (fun _ => rfl) becomes⟩

end Parts

/-- A schema of which all can be told by references of some depth. -/
structure Describable (schema : Schema) (depth : Nat) : Prop where
  built : schema.Built
  standard : schema.StandardScalars
  shallow : schema.Shallow depth

/-- A request for all that a schema tells about itself. -/
structure Request.Introspects (request : Request τ σ) (depth : Nat) : Prop where
  document : request.document = ⟨[.operation (query depth)], none⟩
  discreet : ∀ wrap ∈ request.middleware, wrap.Discreet

/-- A request is answered with some data and without errors, and leaves the host as it is. -/
def Tells (schema : Schema) (host : Host τ σ) (request : Request τ σ) (state : σ) (data : Value) :
    Prop :=
  ∃ bound, ∀ limits : Limits, limits.Allow bound →
    execute limits schema host request state = some ({ data := some data }, state)

section Telling
variable {schema : Schema} {depth : Nat} {host : Host τ σ} {request : Request τ σ}

theorem Tells.unique {state : σ} {data other : Value} (tells : Tells schema host request state data)
    (again : Tells schema host request state other) : data = other := by
  obtain ⟨bound, first⟩ := tells
  obtain ⟨bound', second⟩ := again
  let limits : Limits := ⟨max bound bound', max bound bound'⟩
  have one := first limits ⟨Nat.le_max_left .., Nat.le_max_left ..⟩
  have two := second limits ⟨Nat.le_max_right .., Nat.le_max_right ..⟩
  rw [one] at two
  cases two
  rfl

/-- The execution that answers a request for all that a schema tells about itself. -/
def describing (schema : Schema) (host : Host τ σ) (request : Request τ σ) (depth : Nat) :
    Executor τ σ :=
  { plan := ⟨schema, [], request.root, query depth, []⟩, host, middleware := request.middleware }

theorem prepare_introspects (asks : request.Introspects depth) :
    prepare schema host request = .ok (describing schema host request depth, schema.query) := by
  obtain ⟨document, name, inputs, root, middleware⟩ := request
  obtain ⟨same, -⟩ := asks
  obtain rfl : document = ⟨[.operation (query depth)], none⟩ := same
  cases name <;> rfl

/-- An operation whose fields are known at once is answered in the first round. -/
theorem operation_settled {executor : Executor τ σ} {limits : Limits} {root : ObjectType}
    {value : Value} (one : 0 < limits.rounds)
    (together : executor.plan.operation.operation ≠ .mutation)
    (completed : executor.object (executor.complete limits.depth) root [] executor.plan.root
      (executor.plan.collect root [executor.plan.operation.selectionSet]) =
        pure (.settled (.ok value))) :
    executor.operation limits root = pure (.ok value) := by
  obtain ⟨rounds, left⟩ := Nat.exists_eq_add_of_le' one
  have answered : executor.settle limits (.settled (.ok value)) = pure (.ok value) := by
    rw [Executor.settle, left]
    rfl
  cases same : executor.plan.operation.operation with
  | mutation => exact absurd same together
  | query | subscription => simp only [Executor.operation, same, completed, pure_bind, answered]

/-- A schema that can be told is told, and read back from what is told. -/
theorem tells_facts (host : Host τ σ) {request : Request τ σ}
    (describable : Describable schema depth) (asks : request.Introspects depth) :
    ∃ data, (∀ state, Tells schema host request state data) ∧
      readData depth data = some (schemaFacts schema) := by
  have asked : (describing schema host request depth).Standard :=
    ⟨describable.built, describable.standard, asks.discreet⟩
  obtain ⟨out, read, shows⟩ := root_shows asked describable.shallow
  have parts : List.Forall₂ (Shows (describing schema host request depth) schema.query request.root)
      [partNode "__schema" (schemaNodes depth)] [out] := .cons (shows request.root) .nil
  obtain ⟨bound, becomes⟩ := object_becomes (by simp [partNode]) (by simp) parts
  refine ⟨.object [("__schema", out)], fun state => ⟨bound + 1, fun limits allow => ?_⟩, read⟩
  have one : 0 < limits.rounds := Nat.lt_of_lt_of_le (Nat.succ_pos bound) allow.2
  have settled : (describing schema host request depth).operation limits schema.query =
      pure (.ok (.object [("__schema", out)])) :=
    operation_settled one nofun (becomes limits.depth (Nat.le_of_succ_le allow.1) [])
  rw [execute, prepare_introspects asks]
  dsimp only
  rw [settled]
  rfl

/-- What is read back is what the data tells, whoever is asked. -/
theorem Tells.facts (describable : Describable schema depth) (asks : request.Introspects depth)
    {state : σ} {data : Value} (tells : Tells schema host request state data) :
    readData depth data = some (schemaFacts schema) := by
  obtain ⟨found, told, read⟩ := tells_facts host describable asks
  rw [tells.unique (told state)]
  exact read

end Telling

/-- The full query for what a schema tells about itself is answered without errors, and all facts
about the schema are read back from the data. So schemas that are told by the same data agree in
all these facts. -/
theorem introspection_faithful {schema : Schema} {depth : Nat}
    (describable : Describable schema depth) :
    (∀ {τ σ : Type} (host : Host τ σ) (request : Request τ σ), request.Introspects depth →
      ∃ data, (∀ state, Tells schema host request state data) ∧
        readData depth data = some (schemaFacts schema)) ∧
    ∀ {other : Schema}, Describable other depth →
      ∀ {τ σ τ' σ' : Type} {host : Host τ σ} {request : Request τ σ} {state : σ}
        {host' : Host τ' σ'} {request' : Request τ' σ'} {state' : σ'} {data : Value},
        request.Introspects depth → request'.Introspects depth →
          Tells schema host request state data → Tells other host' request' state' data →
            schemaFacts schema = schemaFacts other := by
  refine ⟨fun host request asks => tells_facts host describable asks, ?_⟩
  intro other also τ σ τ' σ' host request state host' request' state' data asks asks' tells tells'
  have one := tells.facts describable asks
  have two := tells'.facts also asks'
  rw [one] at two
  exact Option.some.inj two

section Filters

theorem filterSchema_standard : filterSchema.StandardScalars := by
  intro scalar among type found
  simp only [ScalarType.builtins, List.mem_cons, List.not_mem_nil, or_false] at among
  rcases among with rfl | rfl | rfl | rfl | rfl
  all_goals
    cases found
    try rfl

theorem filterSchema_describable : Describable filterSchema 3 where
  built := filterSchema_built
  standard := filterSchema_standard
  shallow := ⟨by decide +kernel, by decide +kernel⟩

def filterRequest : Request Empty Unit := { document := ⟨[.operation (query 3)], none⟩ }

end Filters

/-- The filters are read back from what is told of them. -/
theorem introspection_faithful_filters : Describable filterSchema 3 ∧ filterRequest.Introspects 3 ∧
    ∃ data, (∀ state, Tells filterSchema plainHost filterRequest state data) ∧
      readData 3 data = some (schemaFacts filterSchema) :=
  have asks : filterRequest.Introspects 3 := ⟨rfl, nofun⟩
  ⟨filterSchema_describable, asks,
    (introspection_faithful filterSchema_describable).1 plainHost filterRequest asks⟩

example : (typeFacts filterSchema (.inputObject filterType)).inputFields.map
    (List.map InputFacts.default) = some [none, none, some "10", none] := by cbv

end GraphQL.Execution
