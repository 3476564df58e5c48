import GraphQL.Execution.Request
import GraphQL.Proofs.Coercion.Acceptable
import GraphQL.Proofs.Coercion.Admitted
import GraphQL.Proofs.Execution.Accepted
import GraphQL.Proofs.Validation.Usages

/-! Literals that fit input types. A literal has a value that fits the type that it is read at, if
its variables have values that fit where they stand, or null. -/
namespace GraphQL
open Validation (VariableUsage literalUses)

variable {schema : Schema}

/-- What fits a type fits those that it can stand for. -/
theorem subtype_fits (built : schema.Built) {sub super : TypeRef}
    (below : schema.isSubtype sub super = true) {value : Value} (fits : Fits schema sub value) :
    Fits schema super value := by
  induction sub generalizing super value with
  | named name =>
    rw [Schema.isSubtype.eq_def, Bool.or_eq_true] at below
    rcases below with same | below
    · exact beq_iff_eq.1 same ▸ fits
    · cases super with
      | named other =>
        rw [Bool.and_eq_true] at below
        obtain ⟨object, found⟩ := Schema.object_of_possible built below.2
        cases fits with
        | null _ => exact .null rfl
        | scalar known _ | enum known _ | object known _ _ _ =>
          rw [found] at known
          cases known
      | _ => cases below
  | list item ih =>
    rw [Schema.isSubtype.eq_def, Bool.or_eq_true] at below
    rcases below with same | below
    · exact beq_iff_eq.1 same ▸ fits
    · cases super with
      | list other =>
        cases fits with
        | null _ => exact .null rfl
        | list each => exact .list fun value member => ih below (each value member)
      | _ => cases below
  | nonNull type ih =>
    rw [Schema.isSubtype.eq_def, Bool.or_eq_true] at below
    rcases below with same | below
    · exact beq_iff_eq.1 same ▸ fits
    · cases fits with
      | null nullable => cases nullable
      | nonNull solid fits =>
        cases super with
        | nonNull other => exact .nonNull solid (ih below fits)
        | _ => exact ih below fits

/-- A variable has a value that fits the type expected of it, or null, if it has any. -/
def Validation.VariableUsage.Backed (schema : Schema) (bindings : Entries Value)
    (usage : VariableUsage) : Prop :=
  ∀ expected, usage.expected = some expected → ∀ value,
    bindings.get? usage.target.name.text = some value → value = .null ∨ Fits schema expected value

namespace LiteralValue
variable {bindings : Entries Value}

/-- No variable has a value, or all variables in a literal have values that fit their places. -/
def Settled (schema : Schema) (bindings : Entries Value) (type : TypeRef) (literal : Ast.Value) :
    Prop :=
  bindings = [] ∨ type.hasNestedNonNull = false ∧
    ∀ usage ∈ literalUses schema (some type) literal, usage.Backed schema bindings

section Parts

theorem element_plain {type item : TypeRef} (plain : type.hasNestedNonNull = false)
    (element : type.element? = some item) :
    Validation.Scope.itemType type = item ∧ item.hasNestedNonNull = false := by
  cases type with
  | named _ => cases element
  | list _ =>
    cases element
    exact ⟨rfl, plain⟩
  | nonNull type =>
    cases type with
    | named _ => cases element
    | list _ =>
      cases element
      exact ⟨rfl, plain⟩
    | nonNull _ => cases plain

/-- The items of a list are settled at its item type. -/
theorem Settled.item {type item : TypeRef} {literals : List Ast.Value} {span : Option Span}
    (settled : Settled schema bindings type (.list literals span)) (element : type.element? = some item)
    {literal : Ast.Value} (member : literal ∈ literals) : Settled schema bindings item literal := by
  refine settled.imp_right fun ⟨plain, backed⟩ => ?_
  obtain ⟨same, plain⟩ := element_plain plain element
  refine ⟨plain, fun usage used => backed usage ?_⟩
  rw [literalUses, Option.map_some, same]
  exact Validation.mem_itemUses member used

/-- The fields of an object are settled at the types that its type declares for them. -/
theorem Settled.field (built : schema.Built) (names : schema.Distinct) {type : TypeRef}
    {fields : List Ast.ObjectField} {span : Option Span}
    (settled : Settled schema bindings type (.object fields span)) {input : InputObjectType}
    (known : schema.type? type.innermost = some (.inputObject input)) {declared : InputValue}
    (inside : declared ∈ input.fields.items) {field : Ast.ObjectField} (member : field ∈ fields)
    (named : field.name.text = declared.name) : Settled schema bindings declared.type field.value := by
  refine settled.imp_right fun ⟨_, backed⟩ => ?_
  have within := Schema.mem_of_type? known
  refine ⟨built.inputField_plain within inside, fun usage used => backed usage ?_⟩
  have here : Validation.Scope.inputField? schema type field.name.text = some declared := by
    rw [Validation.Scope.inputField?, Schema.named?, known, named]
    exact find?_of_distinct (names.inputs input within) inside
  have uses := @Validation.mem_fieldUses schema (some type) fields field member
  rw [Option.bind_some, here] at uses
  rw [literalUses]
  exact uses used

/-- What stands in a settled literal is settled there. -/
theorem Settled.placed (built : schema.Built) (names : schema.Distinct) {type expected : TypeRef}
    {literal found : Ast.Value} (placed : Placed schema type literal expected found)
    (settled : Settled schema bindings type literal) : Settled schema bindings expected found := by
  induction placed with
  | whole => exact settled
  | inside stands _ ih =>
    refine ih ?_
    cases stands with
    | item element member => exact settled.item element member
    | field known inside member named => exact settled.field built names known inside member named

/-- The variables in a settled literal have values that fit where they stand, or null. -/
theorem Settled.backed (built : schema.Built) (names : schema.Distinct) {type : TypeRef}
    {literal : Ast.Value} (settled : Settled schema bindings type literal) :
    Backed schema TypeDef.Reads bindings type literal := by
  intro expected target placed value found
  rcases settled.placed built names placed with rfl | ⟨_, backed⟩
  · cases found
  · have usage := backed ⟨target, some expected⟩ List.mem_cons_self expected rfl value found
    exact usage.imp_right fits_iff_admits.1

end Parts

end LiteralValue

/-- What a settled literal stands for at a type fits the type. -/
theorem literalValue_fits (built : schema.Built) (fitting : schema.ReadsFitting)
    {bindings : Entries Value} {literal : Ast.Value} {type : TypeRef}
    (settled : LiteralValue.Settled schema bindings type literal) {value : Value}
    (read : schema.literalValue bindings literal type = some value) : Fits schema type value :=
  fits_iff_admits.2 <| LiteralValue.ofLiteral_admits fitting.admitted literal type
    (settled.backed built fitting.names) value read

end GraphQL

/-! The arguments that resolvers are given. In an accepted document they fit the types that are
declared for them, but for variables with a default that are null all the same. -/
namespace GraphQL.Execution
open Ast (Document VariableDefinition OperationDefinition)
open Validation (VariableUsage UsedBy)
open Validation.Rule (definitionOf? definedNames offeredType)

variable {τ σ : Type} {schema : Schema}

section Variables
variable {inputs bindings : Entries Value}

/-- One more variable, after those that have values or faults already. -/
def bind (schema : Schema) (inputs : Entries Value) (sofar : List ResponseError × Entries Value)
    (definition : VariableDefinition) : List ResponseError × Entries Value :=
  match variableValue schema inputs definition with
  | .ok (some value) => (sofar.1, sofar.2.put definition.target.name.text value)
  | .ok none => sofar
  | .error fault =>
      let error : ResponseError :=
        { message := fault.message
          locations := definition.span.toList.map Span.location }
      (sofar.1 ++ [error], sofar.2)

theorem variableValues_eq (schema : Schema) (inputs : Entries Value)
    (definitions : List VariableDefinition) :
    variableValues schema inputs definitions =
      if (definitions.foldl (bind schema inputs) ([], [])).1.isEmpty then
        .ok (definitions.foldl (bind schema inputs) ([], [])).2
      else .error (definitions.foldl (bind schema inputs) ([], [])).1 := rfl

/-- The value under a name stems from a definition of that name. -/
theorem bound_of_fold (definitions : List VariableDefinition) {name : String} {value : Value}
    (found : (definitions.foldl (bind schema inputs) ([], [])).2.get? name = some value) :
    ∃ definition ∈ definitions, definition.target.name.text = name ∧
      variableValue schema inputs definition = .ok (some value) := by
  induction definitions using List.reverseRecOn with
  | nil => cases found
  | append_singleton definitions last ih =>
    rw [List.foldl_append, List.foldl_cons, List.foldl_nil] at found
    have earlier (before : (definitions.foldl (bind schema inputs) ([], [])).2.get? name = some value) :
        ∃ definition ∈ definitions ++ [last], definition.target.name.text = name ∧
          variableValue schema inputs definition = .ok (some value) := by
      obtain ⟨definition, member, here⟩ := ih before
      exact ⟨definition, List.mem_append_left _ member, here⟩
    rw [bind] at found
    split at found
    · rename_i result here
      rw [Entries.get?_put] at found
      split at found
      · rename_i same
        cases found
        exact ⟨last, List.mem_append_right _ List.mem_cons_self, same.symm, here⟩
      · exact earlier found
    · exact earlier found
    · exact earlier found

/-- A variable has a value that fits its type. -/
theorem variableValue_fits (built : schema.Built) (fitting : schema.ReadsFitting)
    {definition : VariableDefinition} {value : Value}
    (read : variableValue schema inputs definition = .ok (some value)) :
    ∃ type, schema.typeOf? definition.type = some type ∧ Fits schema type value := by
  rw [variableValue] at read
  split at read
  · cases read
  · rename_i type known
    refine ⟨type, (Option.filter_eq_some_iff.1 known).1, ?_⟩
    split at read
    · split at read
      · rename_i coerced
        cases read
        exact coerce_fits fitting coerced
      · cases read
    · rename_i default _ _
      rw [Except.ok.injEq] at read
      exact literalValue_fits built fitting (.inl rfl) read
    · split at read <;> cases read

theorem bound_fits (built : schema.Built) (fitting : schema.ReadsFitting)
    {definitions : List VariableDefinition}
    (bound : variableValues schema inputs definitions = .ok bindings) {name : String} {value : Value} (found : bindings.get? name = some value) :
    ∃ definition ∈ definitions, definition.target.name.text = name ∧
      ∃ type, schema.typeOf? definition.type = some type ∧ Fits schema type value := by
  rw [variableValues_eq] at bound
  split at bound
  · cases bound
    obtain ⟨definition, member, named, read⟩ := bound_of_fold definitions found
    exact ⟨definition, member, named, variableValue_fits built fitting read⟩
  · cases bound

end Variables

/-- A variable that may be null is null, though it has a default. -/
structure NullDespiteDefault (schema : Schema) (operation : OperationDefinition)
    (bindings : Entries Value) (target : Ast.Variable) (definition : VariableDefinition) : Prop where
  member : definition ∈ operation.variableDefinitions
  named : definition.target.name.text = target.name.text
  default : definition.defaultValue.isSome = true
  nullable : ∃ type, schema.typeOf? definition.type = some type ∧ type.isNonNull = false
  null : bindings.get? target.name.text = some .null

section Usages
variable {document : Document} {operation : OperationDefinition} {root : Ast.Node}
  {inputs bindings : Entries Value} {usage : VariableUsage}

/-- The value of a variable fits where it is used, or it is null despite a default. -/
theorem usage_fits (built : schema.Built) (fitting : schema.ReadsFitting)
    (accepted : schema.validate document = some []) (inside : operation ∈ document.operations)
    (bound : variableValues schema inputs operation.variableDefinitions = .ok bindings)
    (used : UsedBy document operation root) (member : usage ∈ Validation.usages schema root)
    {expected : TypeRef} (expects : usage.expected = some expected) {value : Value}
    (found : bindings.get? usage.target.name.text = some value) :
    Fits schema expected value ∨ value = .null ∧ expected.isNonNull = true ∧
      ∃ definition, NullDespiteDefault schema operation bindings usage.target definition := by
  obtain ⟨definition, defined, named, type, known, fits⟩ := bound_fits built fitting bound found
  have counts := Validation.definitionOf_eq (Validation.variables_distinct accepted inside) defined
  rw [named] at counts
  have allowed := Validation.usage_allowed accepted inside used member expects counts known
  rw [offeredType] at allowed
  split at allowed
  · rename_i offered
    rw [Bool.and_eq_true, Bool.not_eq_true'] at offered
    cases null : value.isNull with
    | false => exact .inl (subtype_fits built allowed (.nonNull null fits))
    | true =>
      cases eq_null_of_isNull null
      cases nonNull : expected.isNonNull with
      | false => exact .inl (.null nonNull)
      | true =>
        exact .inr ⟨rfl, rfl, definition, defined, named, offered.1, ⟨type, known, offered.2⟩, found⟩
  · exact .inl (subtype_fits built allowed fits)

/-- So literals are settled where they are used. -/
theorem usage_backed (built : schema.Built) (fitting : schema.ReadsFitting)
    (accepted : schema.validate document = some []) (inside : operation ∈ document.operations)
    (bound : variableValues schema inputs operation.variableDefinitions = .ok bindings)
    (used : UsedBy document operation root) (member : usage ∈ Validation.usages schema root) :
    usage.Backed schema bindings := by
  intro expected expects value found
  rcases usage_fits built fitting accepted inside bound used member expects found with
    fits | ⟨null, -⟩
  · exact .inr fits
  · exact .inl null

end Usages

section Declared
variable {parent : TypeDef} {name : String} {field : Field}

/-- The arguments of a field that is selected have names of their own and defaults that fit. -/
theorem selected_arguments (fitting : schema.ReadsFitting)
    (known : schema.type? parent.name = some parent) (found : schema.field? parent name = some field) :
    field.arguments.names.Nodup ∧ ∀ argument ∈ field.arguments.items, ∀ value,
      argument.default = some value → Fits schema argument.type value := by
  rw [Schema.field?, Option.or_eq_some_iff] at found
  rcases found with found | ⟨-, found⟩
  · rcases Schema.metaField?_cases found with ⟨_, _, rfl⟩ | ⟨_, _, rfl⟩ | ⟨_, _, rfl⟩
    · exact ⟨List.nodup_nil, fun _ given => absurd given List.not_mem_nil⟩
    · refine ⟨List.nodup_singleton _, fun argument given value default => ?_⟩
      rw [List.mem_singleton.1 given] at default
      cases default
    · exact ⟨List.nodup_nil, fun _ given => absurd given List.not_mem_nil⟩
  · obtain ⟨fields, has, found⟩ := Option.bind_eq_some_iff.1 found
    have member := Schema.mem_of_type? known
    have inside := List.mem_of_find?_eq_some found
    exact ⟨fitting.names.arguments parent member fields has field inside,
      fitting.defaults.arguments parent member fields has field inside⟩

variable {document : Document} {operation : OperationDefinition} {object : ObjectType}
  {x : Validation.Overlap.Selected} {user : Ast.Node} {outer : TypeDef} {declared : Field}
  {result : TypeDef}

/-- An argument that is declared on the field of an object, and given, has the type that validation
has seen on it. -/
theorem Answering.argument_type
    (answering : Answering schema document operation object field x user outer declared result)
    (distinct : field.arguments.names.Nodup) {argument input : InputValue}
    (inside : argument ∈ field.arguments.items)
    (known : declared.arguments.find? argument.name = some input) : input.type = argument.type := by
  have own : field.arguments.find? argument.name = some argument := find?_of_distinct distinct inside
  rcases answering.arguments with rfl | arguments
  · rw [own] at known
    cases known
    rfl
  · have named : input.name = argument.name := beq_iff_eq.1 (List.find?_some known :)
    have same := arguments input (List.mem_of_find?_eq_some known)
    rw [named, own] at same
    exact (Option.some.inj same).symm

end Declared

section Arguments
variable {bindings values : Entries Value} {given : List Ast.Argument}

/-- The values of arguments stand under the names that are declared. -/
theorem argumentValues_get? {items : List InputValue}
    (read : argumentValues schema bindings given items = .ok values)
    (distinct : (items.map InputValue.name).Nodup) :
    values.keys.Sublist (items.map InputValue.name) ∧ ∀ declared ∈ items,
      argumentValue schema bindings given declared = .ok (values.get? declared.name) := by
  induction items generalizing values with
  | nil =>
    cases read
    exact ⟨.slnil, fun _ => nofun⟩
  | cons first rest ih =>
    obtain ⟨fresh, distinct⟩ := List.nodup_cons.1 distinct
    rw [argumentValues] at read
    obtain ⟨found, here, read⟩ := SchemaBuilder.except_bind_ok read
    obtain ⟨others, later, read⟩ := SchemaBuilder.except_bind_ok read
    cases read
    obtain ⟨keys, each⟩ := ih later distinct
    have apart : first.name ∉ others.keys := fun member => fresh (keys.subset member)
    cases found with
    | none =>
      refine ⟨keys.cons _, List.forall_mem_cons.2 ⟨?_, each⟩⟩
      rw [here]
      exact congrArg Except.ok (Entries.get?_of_not_mem apart).symm
    | some value =>
      refine ⟨keys.cons_cons _, List.forall_mem_cons.2 ⟨?_, fun declared member => ?_⟩⟩
      · rw [here]
        exact congrArg Except.ok ((Entries.get?_cons first.name value others _).trans (if_pos rfl)).symm
      · rw [each declared member]
        have other : declared.name ≠ first.name :=
          fun same => fresh (List.mem_map.2 ⟨declared, member, same⟩)
        exact congrArg Except.ok
          ((Entries.get?_cons first.name value others _).trans (if_neg other)).symm

theorem absent_supplied {declared : InputValue}
    (defaults : ∀ value, declared.default = some value → Fits schema declared.type value)
    {fault : ArgumentFault} {found : Option Value} (read : absentValue declared fault = .ok found) :
    Supplied schema declared found := by
  rw [absentValue] at read
  split at read
  · rename_i value default
    cases read
    exact defaults value default
  · rename_i without
    split at read
    · cases read
    · rename_i nullable
      cases read
      exact ⟨by simpa using nullable, without⟩

/-- The value of an argument, if literals for it are settled. -/
theorem argument_supplied (built : schema.Built) (fitting : schema.ReadsFitting) {declared : InputValue}
    (defaults : ∀ value, declared.default = some value → Fits schema declared.type value)
    (settled : ∀ argument ∈ given, argument.name.text = declared.name →
      LiteralValue.Settled schema bindings declared.type argument.value)
    {found : Option Value} (read : argumentValue schema bindings given declared = .ok found) :
    Supplied schema declared found ∨ ∃ argument ∈ given, argument.name.text = declared.name ∧
      ∃ target, argument.value = .var target ∧ bindings.get? target.name.text = found ∧
        found.isSome = true := by
  rw [argumentValue] at read
  split at read
  · exact .inl (absent_supplied defaults read)
  · rename_i target written
    obtain ⟨argument, here, value⟩ := Option.map_eq_some_iff.1 written
    split at read
    · rename_i result bound
      cases read
      exact .inr ⟨argument, List.mem_of_find?_eq_some here,
        beq_iff_eq.1 (List.find?_some here :), target, value, bound, rfl⟩
    · exact .inl (absent_supplied defaults read)
  · rename_i literal _ written
    obtain ⟨argument, here, rfl⟩ := Option.map_eq_some_iff.1 written
    split at read
    · rename_i result stands
      cases read
      exact .inl (literalValue_fits built fitting
        (settled argument (List.mem_of_find?_eq_some here) (beq_iff_eq.1 (List.find?_some here :))) stands)
    · cases read

end Arguments

/-- The arguments that are written on the fields that are answered together: those of the first. -/
def Site.given (site : Site) : List Ast.Argument := (site.nodes.head?.map Ast.Field.arguments).getD []

section Given
variable {plan : Plan τ} {document : Document} {root : ObjectType} {site : Site}

/-- What validation has seen of the arguments that a resolver is given. -/
theorem given_seen (accepted : plan.Accepted document root) (resolves : plan.Resolves root site) :
    plan.schema.type? site.parent.name = some (.object site.parent) ∧
      (∃ name, plan.schema.objectField? site.parent name = some site.field) ∧
      ∃ x user outer declared result,
        Answering plan.schema document plan.operation site.parent site.field x user outer declared result ∧
          x.node.arguments = site.given := by
  obtain ⟨sets, key, reached, collected, found⟩ := resolves
  obtain ⟨views, overseen⟩ := reaches_overseen accepted reached
  obtain ⟨field, same, each⟩ := overseen.selected accepted collected
  rw [found] at same
  cases same
  obtain ⟨node, first, named⟩ := Option.bind_eq_some_iff.1 found
  obtain ⟨x, seen, rfl, keyed⟩ := overseen.collected accepted collected (List.mem_of_mem_head? first)
  obtain ⟨user, outer, declared, result, answering⟩ := each x seen keyed
  refine ⟨overseen.known, ⟨_, named⟩, x, user, outer, declared, result, answering, ?_⟩
  rw [Site.given, first]
  rfl

/-- The variables in an argument are used where validation has seen the field, at the type of the
argument. -/
theorem given_uses (accepted : plan.Accepted document root) {field declared : Field}
    {x : Validation.Overlap.Selected} {user : Ast.Node} {outer result : TypeDef}
    (answering : Answering plan.schema document plan.operation site.parent field x user outer declared
      result)
    (distinct : field.arguments.names.Nodup) {argument : Ast.Argument}
    (given : argument ∈ x.node.arguments) {input : InputValue} (inside : input ∈ field.arguments.items)
    (named : argument.name.text = input.name) :
    Validation.literalUses plan.schema (some input.type) argument.value ⊆
      Validation.usages plan.schema user := by
  obtain ⟨scope, ancestors, ⟨entered, _, below⟩, around⟩ := answering.typed.entered
  obtain ⟨seen, known⟩ := Validation.argument_declared accepted.accepted entered around
    answering.typed.field given
  have uses := below.argument_uses around answering.typed.field given
  rw [known, Option.map_some] at uses
  rw [named] at known
  rwa [answering.argument_type distinct inside known] at uses

end Given

section Pets

theorem petSchema_inputs (input : InputObjectType) : .inputObject input ∉ petSchema.types := by
  have outputs : petSchema.types.all TypeDef.isOutput = true := by decide +kernel
  intro member
  cases List.all_eq_true.1 outputs _ member

open GraphQL.Introspection in
theorem petSchema_nullFree : petSchema.NullFree where
  scalar scalar member := by
    simp only [petSchema, List.mem_cons, List.not_mem_nil, or_false, TypeDef.scalar.injEq, reduceCtorEq,
      false_or, schemaType, typeType, fieldType, inputValueType, enumValueType, directiveType, objectOf,
      typeKindType, directiveLocationType] at member
    refine ScalarType.builtins_nullFree scalar ?_
    simp only [ScalarType.builtins, List.mem_cons]
    tauto
  enum enum member := by
    simp only [petSchema, List.mem_cons, List.not_mem_nil, or_false, TypeDef.enum.injEq, reduceCtorEq,
      false_or, schemaType, typeType, fieldType, inputValueType, enumValueType, directiveType, objectOf,
      typeKindType, directiveLocationType] at member
    rcases member with rfl | rfl
    · decide +kernel
    · decide +kernel

theorem petSchema_distinct : petSchema.Distinct where
  arguments type member fields has field inside := by
    have distinct : (petSchema.types.all fun type => (type.fields?.toList.flatMap Definitions.items).all
        fun field => decide field.arguments.names.Nodup) = true := by decide +kernel
    have here := List.all_eq_true.1 (List.all_eq_true.1 distinct type member) field
      (by rw [has]; simpa using inside)
    simpa using here
  inputs input member := absurd member (petSchema_inputs input)

def isFlag : Value → Bool
  | .boolean _ => true
  | _ => false

/-- The only arguments with defaults are those by which the schema describes itself. -/
theorem petSchema_defaults : petSchema.FittingDefaults where
  arguments type member fields has field inside argument given value default := by
    have flags : (petSchema.types.all fun type => (type.fields?.toList.flatMap Definitions.items).all
        fun field => field.arguments.items.all fun argument =>
          argument.default.isNone || argument.default.all isFlag &&
            argument.type == .named "Boolean") = true := by decide +kernel
    have here := List.all_eq_true.1 (List.all_eq_true.1 (List.all_eq_true.1 flags type member) field
      (by rw [has]; simpa using inside)) argument given
    rw [default] at here
    obtain ⟨flag, typed⟩ := Bool.and_eq_true_iff.1 (here : (isFlag value && _) = true)
    cases value with
    | boolean choice =>
      rw [beq_iff_eq.1 typed]
      exact .scalar rfl (.inl ⟨.boolean choice, rfl⟩)
    | _ => cases flag
  inputs input member := absurd member (petSchema_inputs input)

theorem petSchema_fitting : petSchema.ReadsFitting :=
  ⟨petSchema_nullFree, petSchema_distinct, petSchema_defaults⟩

/-- Friends since a year that is given by default, selected where it has to be given. -/
def defaultOperation : OperationDefinition :=
  ⟨.query, none, [⟨⟨⟨"year", none⟩, none⟩, .named ⟨⟨"Int", none⟩, none⟩, some (.int "1" none), none⟩],
    [], ⟨petFriends.map .field, none⟩, none⟩

def defaultDocument : Document := ⟨[.operation defaultOperation], none⟩

/-- The year is given as null. -/
def nullPlan : Plan Empty := ⟨petSchema, [], .null, defaultOperation, [("year", .null)]⟩

theorem nullPlan_accepted : nullPlan.Accepted defaultDocument dogType where
  built := petSchema_built
  plain := petSchema_plain
  accepted := by cbv
  fragments := rfl
  operation := List.mem_cons_self
  root := rfl

theorem nullPlan_resolves : nullPlan.Resolves dogType friendSite := by
  have collected : nullPlan.collect dogType [defaultOperation.selectionSet] = [("friend", petFriends)] := by
    cbv
  exact ⟨_, "friend", .root, collected ▸ List.mem_cons_self, rfl⟩

end Pets

/-- Whatever is read of the arguments of a field that an execution of an accepted document resolves
stands under declared names, and each argument that is declared is absent where it may be, or has
a value that fits its type; but for a variable that may be null, and is, where its default has let
it stand for a value that is not. -/
theorem arguments_supplied {plan : Plan τ} {document : Document} {root : ObjectType} {site : Site}
    {inputs values : Entries Value} (accepted : plan.Accepted document root)
    (fitting : plan.schema.ReadsFitting)
    (bound : variableValues plan.schema inputs plan.operation.variableDefinitions = .ok plan.bindings)
    (resolves : plan.Resolves root site)
    (read : argumentValues plan.schema plan.bindings site.given site.field.arguments.items = .ok values) :
    values.keys.Sublist site.field.arguments.names ∧ ∀ declared ∈ site.field.arguments.items,
      Supplied plan.schema declared (values.get? declared.name) ∨
        declared.type.isNonNull = true ∧ values.get? declared.name = some .null ∧
          ∃ argument ∈ site.given, argument.name.text = declared.name ∧
            ∃ target definition, argument.value = .var target ∧
              NullDespiteDefault plan.schema plan.operation plan.bindings target definition := by
  obtain ⟨known, ⟨name, found⟩, x, user, outer, static, result, answering, same⟩ :=
    given_seen accepted resolves
  have known : plan.schema.type? (TypeDef.object site.parent).name = some (.object site.parent) := known
  obtain ⟨distinct, defaults⟩ := selected_arguments fitting known found
  obtain ⟨keys, each⟩ := argumentValues_get? read distinct
  refine ⟨keys, fun declared inside => ?_⟩
  have uses (argument : Ast.Argument) (given : argument ∈ site.given)
      (named : argument.name.text = declared.name) :=
    given_uses accepted answering distinct (same ▸ given) inside named
  rcases argument_supplied accepted.built fitting (defaults declared inside)
    (fun argument given named => .inr ⟨accepted.built.selected_plain known found inside, fun usage used =>
      usage_backed accepted.built fitting accepted.accepted accepted.operation bound answering.used
        (uses argument given named used)⟩) (each declared inside) with
    supplied | ⟨argument, given, named, target, written, stands, present⟩
  · exact .inl supplied
  · obtain ⟨value, there⟩ := Option.isSome_iff_exists.1 present
    have used : (⟨target, some declared.type⟩ : VariableUsage) ∈
        Validation.usages plan.schema user := by
      refine uses argument given named ?_
      rw [written]
      exact List.mem_cons_self
    rw [there] at stands ⊢
    rcases usage_fits accepted.built fitting accepted.accepted accepted.operation bound answering.used
      used rfl stands with fits | ⟨rfl, nonNull, definition, despite⟩
    · exact .inl fits
    · exact .inr ⟨nonNull, rfl, argument, given, named, target, definition, written, despite⟩

/-- A friend since a year that is given. -/
theorem arguments_supplied_friend :
    petPlan.Accepted petDocument dogType ∧ petSchema.ReadsFitting ∧
      variableValues petSchema [("year", .int 1)] petOperation.variableDefinitions =
        .ok petPlan.bindings ∧
      petPlan.Resolves dogType friendSite ∧
      argumentValues petSchema petPlan.bindings friendSite.given friendSite.field.arguments.items =
        .ok [("since", .int 1)] ∧
      Fits petSchema (.nonNull (.named "Int")) (.int 1) := by
  have bound : variableValues petPlan.schema [("year", .int 1)] petPlan.operation.variableDefinitions =
      .ok petPlan.bindings := by cbv
  have read : argumentValues petPlan.schema petPlan.bindings friendSite.given
      friendSite.field.arguments.items = .ok [("since", .int 1)] := by cbv
  have supplied := (arguments_supplied petPlan_accepted petSchema_fitting bound petPlan_resolves read).2 _
    List.mem_cons_self
  refine ⟨petPlan_accepted, petSchema_fitting, bound, petPlan_resolves, read, ?_⟩
  rcases supplied with fits | ⟨-, null, -⟩
  · exact fits
  · cases null

/-- A friend since a year that is null, where it has to be given. -/
theorem arguments_null :
    nullPlan.Accepted defaultDocument dogType ∧ petSchema.ReadsFitting ∧
      variableValues petSchema [("year", .null)] defaultOperation.variableDefinitions =
        .ok nullPlan.bindings ∧
      nullPlan.Resolves dogType friendSite ∧
      argumentValues petSchema nullPlan.bindings friendSite.given friendSite.field.arguments.items =
        .ok [("since", .null)] ∧
      ¬ Fits petSchema (.nonNull (.named "Int")) .null := by
  refine ⟨nullPlan_accepted, petSchema_fitting, by cbv, nullPlan_resolves, by cbv, fun fits => ?_⟩
  cases fits with
  | null nullable => cases nullable
  | nonNull solid _ => cases solid

end GraphQL.Execution
