import GraphQL.Coercion.ToLiteral
import GraphQL.Proofs.Coercion.Acceptable
import GraphQL.Proofs.Numerals

/-! Values that are written as literals again. The value of a literal has a literal of its own, which is
read as a value equal to it. -/
namespace GraphQL

variable {schema : Schema}

namespace ToLiteral

theorem ofValues_eq (values : List Value) : ofValues schema values = values.map (ofValue schema) := by
  induction values with
  | nil => rfl
  | cons value rest ih => rw [ofValues, ih, List.map_cons]

theorem ofEntries_eq (entries : List (String × Value)) :
    ofEntries schema entries = entries.map fun entry => (entry.1, ofValue schema entry.2) := by
  induction entries with
  | nil => rfl
  | cons entry rest ih =>
    obtain ⟨key, value⟩ := entry
    rw [ofEntries, ih, List.map_cons]

/-- A value is written layer by layer. -/
theorem ofValue_eq (value : Value) :
    ofValue schema value = ofLayer schema value (value.layer (ofValue schema)) := by
  cases value with
  | list values => rw [ofValue, ofValues_eq, Value.layer]
  | object entries => rw [ofValue, ofEntries_eq, Value.layer]
  | _ => rw [ofValue, Value.layer] <;> simp

end ToLiteral

section Equations

theorem literalOf_null (type : TypeRef) : schema.literalOf .null type =
    if type.isNonNull then none else some (.null none) := by
  rw [Schema.literalOf, ToLiteral.ofValue_eq, ToLiteral.ofLayer_null]

theorem literalOf_nonNull {value : Value} (solid : value.isNull = false) (type : TypeRef) :
    schema.literalOf value (.nonNull type) = schema.literalOf value type := by
  rw [Schema.literalOf, Schema.literalOf, ToLiteral.ofValue_eq, ToLiteral.ofLayer_nonNull solid]

theorem literalOf_list (values : List Value) (item : TypeRef) :
    schema.literalOf (.list values) (.list item) =
      (values.mapM fun value => schema.literalOf value item).map fun literals => .list literals none := by
  rw [Schema.literalOf, ToLiteral.ofValue_eq, ToLiteral.ofLayer.eq_def]
  dsimp only [Value.layer]
  rw [if_neg (Bool.eq_false_iff.1 (rfl : (Value.list values).isNull = false)), List.mapM_map]
  rfl

theorem literalOf_single {value : Value} (solid : value.isNull = false) (single : value.list? = none)
    (item : TypeRef) : schema.literalOf value (.list item) = schema.literalOf value item := by
  rw [Schema.literalOf, Schema.literalOf, ToLiteral.ofValue_eq, ToLiteral.ofLayer.eq_def]
  dsimp only
  rw [if_neg (Bool.eq_false_iff.1 solid)]
  cases value with
  | list values => cases single
  | _ => rfl

theorem literalOf_enum {name : String} {enum : EnumType} (known : schema.type? name = some (.enum enum))
    {value : Value} (solid : value.isNull = false) : schema.literalOf value (.named name) =
      match enum.serialize value with
      | some (.enum name) => some (.enum name none)
      | _ => none := by
  rw [Schema.literalOf, ToLiteral.ofValue_eq, ToLiteral.ofLayer, if_neg (Bool.eq_false_iff.1 solid)]
  generalize schema.type? name = found at known ⊢
  subst known
  rfl

theorem literalOf_scalar {name : String} {scalar : ScalarType}
    (known : schema.type? name = some (.scalar scalar)) {value : Value} (solid : value.isNull = false) :
    schema.literalOf value (.named name) =
      (scalar.serialize value).toOption.map (ToLiteral.ofSerialized (name == "ID")) := by
  rw [Schema.literalOf, ToLiteral.ofValue_eq, ToLiteral.ofLayer, if_neg (Bool.eq_false_iff.1 solid),
    known]

/-- The fields of an object literal, in the order of their declarations. -/
def declaredFields (declared : List InputValue) (literals : InputValue → Option Ast.Value) :
    List Ast.ObjectField :=
  declared.filterMap fun field => (literals field).map fun literal => ⟨⟨field.name, none⟩, literal, none⟩

theorem literalOf_object {name : String} {input : InputObjectType}
    (known : schema.type? name = some (.inputObject input)) (entries : Entries Value) :
    schema.literalOf (.object entries) (.named name) =
      some (.object (declaredFields input.fields.items fun declared =>
        (entries.get? declared.name).bind fun value => schema.literalOf value declared.type) none) := by
  rw [Schema.literalOf, ToLiteral.ofValue_eq, ToLiteral.ofLayer,
    if_neg (Bool.eq_false_iff.1 (rfl : (Value.object entries).isNull = false)), known]
  refine congrArg (fun fields => some (Ast.Value.object fields none)) ?_
  refine List.filterMap_congr fun declared _ => ?_
  have found : Layer.field? (entries.map fun entry => (entry.1, ToLiteral.ofValue schema entry.2))
      declared.name = (entries.get? declared.name).map schema.literalOf := by
    rw [Layer.field?, List.find?_map, Option.map_map, Entries.get?, Option.map_map]
    rfl
  show (Layer.field? (entries.map fun entry => (entry.1, ToLiteral.ofValue schema entry.2))
    declared.name).bind _ = _
  rw [found]
  dsimp only
  cases entries.get? declared.name with
  | none => rfl
  | some value => cases written : schema.literalOf value declared.type <;> simp [written]

theorem literalOf_notObject {name : String} {input : InputObjectType}
    (known : schema.type? name = some (.inputObject input)) {value : Value} (solid : value.isNull = false)
    (other : value.object? = none) : schema.literalOf value (.named name) = none := by
  rw [Schema.literalOf, ToLiteral.ofValue_eq, ToLiteral.ofLayer, if_neg (Bool.eq_false_iff.1 solid),
    known]
  cases value with
  | object entries => cases other
  | _ => rfl

end Equations

section Reading

/-- Neither a variable nor null. -/
def Ast.Value.isSolid : Ast.Value → Bool
  | .var _ | .null _ => false
  | _ => true

theorem Ast.Value.solid {literal : Ast.Value} (solid : literal.isSolid = true) :
    (∀ target, literal ≠ .var target) ∧ LiteralValue.isNull literal = false := by
  cases literal with
  | var _ | null _ => cases solid
  | _ => exact ⟨nofun, rfl⟩

theorem literalValue_null (type : TypeRef) : schema.literalValue [] (.null none) type =
    if type.isNonNull then none else some .null := by
  rw [Schema.literalValue, LiteralValue.ofLiteral_eq schema [] (by simp), LiteralValue.ofLayer_null rfl]

theorem literalValue_nonNull {literal : Ast.Value} (solid : literal.isSolid = true) (type : TypeRef) :
    schema.literalValue [] literal (.nonNull type) = schema.literalValue [] literal type := by
  rw [Schema.literalValue, Schema.literalValue, LiteralValue.ofLiteral_eq schema [] (Ast.Value.solid solid).1,
    LiteralValue.ofLayer, if_neg (Bool.eq_false_iff.1 (Ast.Value.solid solid).2)]

theorem literalValue_list (literals : List Ast.Value) (span : Option Span) (item : TypeRef) :
    schema.literalValue [] (.list literals span) (.list item) =
      (literals.mapM fun literal => schema.literalValue [] literal item).map .list := by
  rw [Schema.literalValue, LiteralValue.ofLiteral_eq schema [] (by simp), LiteralValue.ofLayer.eq_def]
  dsimp only [Ast.Value.layer]
  rw [if_neg (by simp [LiteralValue.isNull]), List.mapM_map]
  rfl

theorem literalValue_single {literal : Ast.Value} (solid : literal.isSolid = true)
    (single : ∀ literals span, literal ≠ .list literals span) (item : TypeRef) :
    schema.literalValue [] literal (.list item) =
      (schema.literalValue [] literal item).map fun value => .list [value] := by
  rw [Schema.literalValue, Schema.literalValue, LiteralValue.ofLiteral_eq schema [] (Ast.Value.solid solid).1,
    LiteralValue.ofLayer.eq_def]
  dsimp only
  rw [if_neg (Bool.eq_false_iff.1 (Ast.Value.solid solid).2)]
  cases literal with
  | list literals span => exact absurd rfl (single literals span)
  | _ => rfl

theorem literalValue_scalar {name : String} {scalar : ScalarType}
    (known : schema.type? name = some (.scalar scalar)) {literal : Ast.Value} (solid : literal.isSolid = true) :
    schema.literalValue [] literal (.named name) = scalar.parseLiteral literal := by
  rw [Schema.literalValue, LiteralValue.ofLiteral_eq schema [] (Ast.Value.solid solid).1, LiteralValue.ofLayer,
    if_neg (Bool.eq_false_iff.1 (Ast.Value.solid solid).2), known]

theorem literalValue_enum {name : String} {enum : EnumType}
    (known : schema.type? name = some (.enum enum)) {literal : Ast.Value} (solid : literal.isSolid = true) :
    schema.literalValue [] literal (.named name) = enum.parseLiteral literal := by
  rw [Schema.literalValue, LiteralValue.ofLiteral_eq schema [] (Ast.Value.solid solid).1, LiteralValue.ofLayer,
    if_neg (Bool.eq_false_iff.1 (Ast.Value.solid solid).2), known]

theorem literalValue_object {name : String} {input : InputObjectType}
    (known : schema.type? name = some (.inputObject input)) (fields : List Ast.ObjectField)
    (span : Option Span) :
    schema.literalValue [] (.object fields span) (.named name) =
      if fields.all fun field => input.fields.contains field.name.text then
        (LiteralValue.ofDeclared (fields.map fun field =>
          (field.name.text, schema.literalValue [] field.value)) input.fields.items).map .object
      else none := by
  rw [Schema.literalValue, LiteralValue.ofLiteral_eq schema [] (by simp), LiteralValue.ofLayer,
    if_neg (by simp [LiteralValue.isNull]), known]
  simp only [Ast.Value.layer, List.all_map]
  rfl

theorem declaredFields_known (input : InputObjectType) (literals : InputValue → Option Ast.Value) :
    ((declaredFields input.fields.items literals).all fun field =>
      input.fields.contains field.name.text) = true := by
  refine List.all_eq_true.2 fun field member => ?_
  obtain ⟨declared, inside, same⟩ := List.mem_filterMap.1 member
  obtain ⟨literal, -, rfl⟩ := Option.map_eq_some_iff.1 same
  exact List.any_eq_true.2 ⟨declared, inside, beq_self_eq_true _⟩

/-- Declared fields are read as the literals that are written for them. -/
theorem field?_declaredFields {declared : List InputValue} (distinct : (declared.map InputValue.name).Nodup)
    (literals : InputValue → Option Ast.Value) {field : InputValue} (inside : field ∈ declared) :
    Layer.field? ((declaredFields declared literals).map fun field =>
      (field.name.text, schema.literalValue [] field.value)) field.name =
        (literals field).map (schema.literalValue []) := by
  have readings : ((declaredFields declared literals).map fun field =>
      (field.name.text, schema.literalValue [] field.value)) = declared.filterMap fun field =>
        ((literals field).map (schema.literalValue [])).map (field.name, ·) := by
    rw [declaredFields, List.map_filterMap]
    refine List.filterMap_congr fun field _ => ?_
    cases literals field <;> rfl
  rw [readings]
  exact get?_declared (fun field => (literals field).map (schema.literalValue [])) distinct inside

theorem literalValue_notObject {name : String} {input : InputObjectType}
    (known : schema.type? name = some (.inputObject input)) {literal : Ast.Value}
    (solid : literal.isSolid = true) (other : ∀ fields span, literal ≠ .object fields span) :
    schema.literalValue [] literal (.named name) = none := by
  rw [Schema.literalValue, LiteralValue.ofLiteral_eq schema [] (Ast.Value.solid solid).1, LiteralValue.ofLayer,
    if_neg (Bool.eq_false_iff.1 (Ast.Value.solid solid).2), known]
  cases literal with
  | object fields span => exact absurd rfl (other fields span)
  | _ => rfl

end Reading

section Denoted

/-- Some literal has the value at the type. -/
def Schema.Denotes (schema : Schema) (type : TypeRef) (value : Value) : Prop :=
  ∃ literal, schema.literalValue [] literal type = some value

/-- A denoted value is null, where it may be, or the value of a literal that is written out. -/
theorem Schema.Denotes.solid {type : TypeRef} {value : Value} (denotes : schema.Denotes type value) :
    (value = .null ∧ type.isNonNull = false) ∨
      ∃ literal : Ast.Value, literal.isSolid = true ∧ schema.literalValue [] literal type = some value := by
  obtain ⟨literal, read⟩ := denotes
  by_cases written : ∃ target, literal = .var target
  · obtain ⟨target, rfl⟩ := written
    left
    have read : (if Value.null.isNull && type.isNonNull then none else some Value.null) = some value := read
    cases nonNull : type.isNonNull with
    | true =>
      rw [nonNull] at read
      cases read
    | false =>
      rw [nonNull] at read
      cases read
      exact ⟨rfl, rfl⟩
  · have written : ∀ target, literal ≠ .var target := fun target same => written ⟨target, same⟩
    cases null : LiteralValue.isNull literal with
    | false =>
      have solid : literal.isSolid = true := by
        cases literal with
        | var target => exact absurd rfl (written target)
        | null _ => cases null
        | _ => rfl
      exact .inr ⟨literal, solid, read⟩
    | true =>
      rw [Schema.literalValue, LiteralValue.ofLiteral_eq schema [] written,
        LiteralValue.ofLayer_null null] at read
      split at read
      · cases read
      · rename_i nullable
        cases read
        exact .inl ⟨rfl, by simpa using nullable⟩

/-- At a list type, literals have lists of values that are denoted at the item type. -/
theorem list_denoted {literal : Ast.Value} (solid : literal.isSolid = true) {item : TypeRef}
    {value : Value} (read : schema.literalValue [] literal (.list item) = some value) :
    ∃ values, value = .list values ∧ ∀ value ∈ values, schema.Denotes item value := by
  by_cases several : ∃ literals span, literal = .list literals span
  · obtain ⟨literals, span, rfl⟩ := several
    rw [literalValue_list] at read
    obtain ⟨values, each, rfl⟩ := Option.map_eq_some_iff.1 read
    refine ⟨values, rfl, fun value member => ?_⟩
    obtain ⟨literal, -, read⟩ := forall₂_mem (LiteralValue.mapM_eq_some_iff.1 each).flip member
    exact ⟨literal, read⟩
  · rw [literalValue_single solid fun literals span same => several ⟨literals, span, same⟩] at read
    obtain ⟨single, here, rfl⟩ := Option.map_eq_some_iff.1 read
    exact ⟨[single], rfl, List.forall_mem_singleton.2 ⟨literal, here⟩⟩

/-- At an input object, literals have objects of denoted fields; what is left out may be null. -/
theorem object_denoted {name : String} {input : InputObjectType}
    (known : schema.type? name = some (.inputObject input))
    (defaults : ∀ declared ∈ input.fields.items, ∀ value, declared.default = some value →
      schema.Denotes declared.type value) {literal : Ast.Value} (solid : literal.isSolid = true)
    {value : Value} (read : schema.literalValue [] literal (.named name) = some value) :
    ∃ found : InputValue → Option Value, value = .object (input.fields.items.filterMap fun declared =>
      (found declared).map (declared.name, ·)) ∧ ∀ declared ∈ input.fields.items,
        (∀ value, found declared = some value → schema.Denotes declared.type value) ∧
        (found declared = none → declared.default = none ∧ declared.type.isNonNull = false) := by
  by_cases object : ∃ fields span, literal = .object fields span
  · obtain ⟨fields, span, rfl⟩ := object
    rw [literalValue_object known] at read
    split at read
    · obtain ⟨entries, each, rfl⟩ := Option.map_eq_some_iff.1 read
      obtain ⟨all, rfl⟩ := LiteralValue.ofDeclared_eq_some_iff.1 each
      refine ⟨_, rfl, fun declared inside => ?_⟩
      obtain ⟨result, here⟩ := all declared inside
      rw [here, Option.join_some]
      rw [LiteralValue.ofField] at here
      split at here
      · rename_i reading given
        obtain ⟨value, read, rfl⟩ := Option.map_eq_some_iff.1 here
        obtain ⟨field, -, rfl⟩ := Option.map_eq_some_iff.1
          ((Ast.Value.field?_map (schema.literalValue []) fields declared.name).symm.trans given)
        refine ⟨?_, fun absent => by cases absent⟩
        rintro _ ⟨⟩
        exact ⟨field.value, read⟩
      · split at here
        · rename_i value default
          cases here
          refine ⟨?_, fun absent => by cases absent⟩
          rintro _ ⟨⟩
          exact defaults declared inside value default
        · rename_i without
          split at here
          · cases here
          · rename_i nullable
            cases here
            exact ⟨fun _ given => (by cases given), fun _ => ⟨without, by simpa using nullable⟩⟩
    · cases read
  · rw [literalValue_notObject known solid fun fields span same => object ⟨fields, span, same⟩] at read
    cases read

end Denoted

section Equality

/-- A value is equal to another one, and the same one if something holds. -/
structure Value.Restores (exact : Prop) (again value : Value) : Prop where
  equal : again.equal value = true
  same : exact → again = value

variable {exact : Prop}

theorem Value.Restores.mono {weaker : Prop} {again value : Value} (restores : again.Restores exact value)
    (implies : weaker → exact) : again.Restores weaker value :=
  ⟨restores.equal, fun holds => restores.same (implies holds)⟩

theorem restores_list {again values : List Value} (each : List.Forall₂ (Value.Restores exact) again values) :
    (Value.list again).Restores exact (.list values) := by
  constructor
  · show Value.equalList again values = true
    induction each with
    | nil => rfl
    | cons first _ ih =>
      rw [Value.equalList, first.equal, ih]
      rfl
  · intro holds
    refine congrArg Value.list ?_
    rw [← List.forall₂_eq_eq_eq]
    exact each.imp fun _ _ restores => restores.same holds

theorem equalEntries_iff {entries others : Entries Value} : Value.equalEntries entries others = true ↔
    ∀ entry ∈ entries, ∃ value, others.get? entry.1 = some value ∧ entry.2.equal value = true := by
  induction entries with
  | nil => simp [Value.equalEntries]
  | cons entry rest ih =>
    obtain ⟨key, value⟩ := entry
    rw [Value.equalEntries, Bool.and_eq_true, ih, List.forall_mem_cons]
    refine and_congr_left fun _ => ?_
    cases others.get? key <;> simp

/-- Objects with the same keys in the same order, and equal values under them. -/
theorem restores_object {again entries : Entries Value} (distinct : entries.keys.Nodup)
    (each : List.Forall₂ (fun first second => first.1 = second.1 ∧ first.2.Restores exact second.2) again entries) :
    (Value.object again).Restores exact (.object entries) := by
  constructor
  · show (again.length == entries.length && Value.equalEntries again entries) = true
    rw [each.length_eq, beq_self_eq_true, Bool.true_and, equalEntries_iff]
    intro entry member
    obtain ⟨⟨key, value⟩, inside, named, restores⟩ := forall₂_mem each member
    refine ⟨value, ?_, restores.equal⟩
    rw [named]
    exact Entries.get?_of_mem distinct inside
  · intro holds
    refine congrArg Value.object ?_
    rw [← List.forall₂_eq_eq_eq]
    exact each.imp fun _ _ related => Prod.ext related.1 (related.2.same holds)

end Equality

/-- Enum values have names of their own, and internal values that are equal to themselves and not null.
Input fields have names of their own, and defaults that literals have as their values. -/
structure TypeDef.Restorable (schema : Schema) (type : TypeDef) : Prop where
  choices : ∀ enum, type = .enum enum → enum.values.names.Nodup
  internals : ∀ enum, type = .enum enum → ∀ choice ∈ enum.values.items,
    choice.internal.isNull = false ∧ choice.internal.equal choice.internal = true
  fields : ∀ input, type = .inputObject input → input.fields.names.Nodup
  defaults : ∀ input, type = .inputObject input → ∀ declared ∈ input.fields.items, ∀ value,
    declared.default = some value → schema.Denotes declared.type value

/-- Internal values of an enum are the same where they are equal. -/
def TypeDef.IsExact (type : TypeDef) : Prop := ∀ enum, type = .enum enum →
  ∀ first ∈ enum.values.items, ∀ second ∈ enum.values.items,
    first.internal.equal second.internal = true → first.internal = second.internal

/-- The literal that is written for a value restores it. -/
def Schema.Rewrites (schema : Schema) (exact : Prop) (type : TypeRef) (value : Value) : Prop :=
  ∃ literal again, schema.literalOf value type = some literal ∧
    (value.isNull = false → literal.isSolid = true) ∧
    schema.literalValue [] literal type = some again ∧ again.Restores exact value

section Rewriting
variable {exact : Prop}

theorem rewrites_null {type : TypeRef} (nullable : type.isNonNull = false) :
    schema.Rewrites exact type .null := by
  refine ⟨.null none, .null, ?_, nofun, ?_, rfl, fun _ => rfl⟩
  · rw [literalOf_null, nullable]
    rfl
  · rw [literalValue_null, nullable]
    rfl

theorem rewrites_nonNull {type : TypeRef} {value : Value} (rewrites : schema.Rewrites exact type value)
    (full : value.isNull = false) : schema.Rewrites exact (.nonNull type) value := by
  obtain ⟨literal, again, written, solid, read, restores⟩ := rewrites
  refine ⟨literal, again, ?_, solid, ?_, restores⟩
  · rw [literalOf_nonNull full, written]
  · rw [literalValue_nonNull (solid full), read]

theorem rewrites_list {item : TypeRef} {values : List Value}
    (each : ∀ value ∈ values, schema.Rewrites exact item value) :
    schema.Rewrites exact (.list item) (.list values) := by
  choose! literals again written solid read restores using each
  refine ⟨.list (values.map literals) none, .list (values.map again), ?_, fun _ => rfl, ?_, ?_⟩
  · have all : values.mapM (fun value => schema.literalOf value item) = some (values.map literals) :=
      LiteralValue.mapM_eq_some_iff.2 (List.forall₂_map_right_iff.2 (List.forall₂_same.2 written))
    rw [literalOf_list, all]
    rfl
  · have all : (values.map literals).mapM (fun literal => schema.literalValue [] literal item) =
        some (values.map again) :=
      LiteralValue.mapM_eq_some_iff.2 (List.forall₂_map_left_iff.2 (List.forall₂_map_right_iff.2
        (List.forall₂_same.2 read)))
    rw [literalValue_list, all]
    rfl
  · exact restores_list (List.forall₂_map_left_iff.2 (List.forall₂_same.2 restores))

theorem rewrites_enum {name : String} {enum : EnumType} (known : schema.type? name = some (.enum enum))
    (restorable : (TypeDef.enum enum).Restorable schema) (same : exact → (TypeDef.enum enum).IsExact)
    {choice : EnumValue} (inside : choice ∈ enum.values.items) :
    schema.Rewrites exact (.named name) choice.internal := by
  obtain ⟨full, self⟩ := restorable.internals enum rfl choice inside
  obtain ⟨first, found⟩ := Option.isSome_iff_exists.1
    (List.find?_isSome.2 ⟨choice, inside, self⟩ : (enum.values.items.find? fun other =>
      other.internal == choice.internal).isSome = true)
  have among := List.mem_of_find?_eq_some found
  have equal : first.internal.equal choice.internal = true := (List.find?_some found :)
  refine ⟨.enum first.name none, first.internal, ?_, fun _ => rfl, ?_, equal, fun holds => ?_⟩
  · have serialized : enum.serialize choice.internal = some (.enum first.name) := by
      unfold EnumType.serialize
      rw [found]
    rw [literalOf_enum known full, serialized]
  · have unique : enum.values.find? first.name = some first :=
      find?_of_distinct (restorable.choices enum rfl) among
    rw [literalValue_enum known rfl]
    exact congrArg (Option.map EnumValue.internal) unique
  · exact same holds enum rfl first among choice inside equal

/-- What a scalar writes for a value, and reads as that value, restores it. -/
theorem rewrites_written {name : String} {scalar : ScalarType}
    (known : schema.type? name = some (.scalar scalar)) {value : Value} (written : Ast.Value)
    (full : value.isNull = false) (solid : written.isSolid = true)
    (write : (scalar.serialize value).toOption.map (ToLiteral.ofSerialized (name == "ID")) = some written)
    (read : scalar.parseLiteral written = some value) (self : value.equal value = true) :
    schema.Rewrites exact (.named name) value :=
  ⟨written, value, (literalOf_scalar known full).trans write, fun _ => solid,
    (literalValue_scalar known solid).trans read, self, fun _ => rfl⟩

theorem rewrites_int {name : String} (known : schema.type? name = some (.scalar .int)) {i : Int}
    (fits : Decimal.fitsBits 32 i = true) : schema.Rewrites exact (.named name) (.int i) := by
  have narrow : ScalarType.int32? i = some (.int i) := if_pos fits
  refine rewrites_written known (.int (toString i) none) rfl rfl ?_ ?_ (beq_self_eq_true i)
  · show ((ScalarType.int32? i).elim _ Except.ok).toOption.map _ = _
    rw [narrow]
    rfl
  · show Decimal.int64? (toString i) >>= ScalarType.int32? = _
    rw [Decimal.int64?_toString (Decimal.fitsBits_wider fits)]
    exact narrow

/-- Digits are written as an integer and other texts as strings; both are read as identities. -/
theorem rewrites_identity (known : schema.type? "ID" = some (.scalar .id)) (text : String) :
    schema.Rewrites exact (.named "ID") (.string text) := by
  cases digits : (true && !text.isEmpty && text.toList.all Decimal.isDigit) with
  | true =>
    have written : ToLiteral.ofSerialized true (.string text) = .int text none := if_pos digits
    exact rewrites_written known (.int text none) rfl rfl (congrArg some written) rfl (beq_self_eq_true text)
  | false =>
    have written : ToLiteral.ofSerialized true (.string text) = .string text none :=
      if_neg (Bool.eq_false_iff.1 digits)
    exact rewrites_written known (.string text none) rfl rfl (congrArg some written) rfl
      (beq_self_eq_true text)

theorem rewrites_scalar {name : String} {scalar : ScalarType}
    (known : schema.type? name = some (.scalar scalar))
    (portable : scalar ∈ [ScalarType.int, ScalarType.string, ScalarType.boolean, ScalarType.id])
    {literal : Ast.Value} {value : Value} (read : scalar.parseLiteral literal = some value) :
    schema.Rewrites exact (.named name) value := by
  have named : scalar.name = name := Schema.name_of_type? known
  simp only [List.mem_cons, List.not_mem_nil, or_false] at portable
  rcases portable with rfl | rfl | rfl | rfl <;> subst named
  · cases literal with
    | int text span =>
      obtain ⟨i, -, here⟩ := Option.bind_eq_some_iff.1 read
      rw [ScalarType.int32?] at here
      split at here
      · rename_i fits
        cases here
        exact rewrites_int known fits
      · cases here
    | _ => cases read
  · cases literal with
    | string text span =>
      cases read
      exact rewrites_written known (.string text none) rfl rfl rfl rfl (beq_self_eq_true text)
    | _ => cases read
  · cases literal with
    | boolean truth span =>
      cases read
      exact rewrites_written known (.boolean truth none) rfl rfl rfl rfl (beq_self_eq_true truth)
    | _ => cases read
  · cases literal with
    | int text span | string text span =>
      cases read
      exact rewrites_identity known text
    | _ => cases read

theorem rewrites_object {name : String} {input : InputObjectType}
    (known : schema.type? name = some (.inputObject input)) (distinct : input.fields.names.Nodup)
    {found : InputValue → Option Value}
    (each : ∀ declared ∈ input.fields.items, ∀ value, found declared = some value →
      schema.Rewrites exact declared.type value)
    (absent : ∀ declared ∈ input.fields.items, found declared = none →
      declared.default = none ∧ declared.type.isNonNull = false) :
    schema.Rewrites exact (.named name) (.object (input.fields.items.filterMap fun declared =>
      (found declared).map (declared.name, ·))) := by
  choose! literals again written solid read restores using each
  let fields := declaredFields input.fields.items fun declared => (found declared).map (literals declared)
  refine ⟨.object fields none, .object (input.fields.items.filterMap fun declared =>
    ((found declared).map (again declared)).map (declared.name, ·)), ?_, fun _ => rfl, ?_, ?_⟩
  · rw [literalOf_object known]
    refine congrArg (fun fields => some (Ast.Value.object fields none)) ?_
    refine List.filterMap_congr fun declared inside => congrArg _ ?_
    dsimp only
    rw [get?_declared found distinct inside]
    cases here : found declared with
    | none => rfl
    | some value =>
      rw [Option.bind_some, written declared inside value here]
      rfl
  · have field (declared : InputValue) (inside : declared ∈ input.fields.items) :
        LiteralValue.ofField (fields.map fun field =>
          (field.name.text, schema.literalValue [] field.value)) declared =
            some ((found declared).map (again declared)) := by
      rw [LiteralValue.ofField, field?_declaredFields distinct _ inside]
      cases given : found declared with
      | some value =>
        show (schema.literalValue [] (literals declared value) declared.type).map some = _
        rw [read declared inside value given]
        rfl
      | none =>
        obtain ⟨without, nullable⟩ := absent declared inside given
        simp [without, nullable]
    rw [literalValue_object known, if_pos (declaredFields_known input _),
      LiteralValue.ofDeclared_eq_some_iff.2 ⟨fun declared inside => ⟨_, field declared inside⟩, rfl⟩]
    refine congrArg (fun entries => some (Value.object entries)) ?_
    refine List.filterMap_congr fun declared inside => ?_
    rw [field declared inside]
    rfl
  · refine restores_object ((keys_sublist found _).nodup distinct) ?_
    have same : List.Forall₂ (fun first second => first = second ∧ first ∈ input.fields.items)
        input.fields.items input.fields.items := List.forall₂_same.2 fun _ inside => ⟨rfl, inside⟩
    refine List.rel_filterMap ?_ same
    rintro declared _ ⟨rfl, inside⟩
    dsimp only
    cases here : found declared with
    | none => exact .none
    | some value => exact .some ⟨rfl, restores declared inside value here⟩

end Rewriting

/-- Only null is read as null. -/
theorem solid_read {type : TypeRef} (portable : schema.Portable type)
    (restorable : schema.Throughout (TypeDef.Restorable schema) type) {literal : Ast.Value}
    (solid : literal.isSolid = true) {value : Value}
    (read : schema.literalValue [] literal type = some value) : value.isNull = false := by
  induction type with
  | nonNull type ih =>
    rw [literalValue_nonNull solid] at read
    exact ih portable restorable read
  | list item ih =>
    obtain ⟨values, rfl, -⟩ := list_denoted solid read
    rfl
  | named name =>
    obtain ⟨found, known, kind⟩ := portable name .refl
    have here := restorable name found .refl known
    cases found with
    | scalar scalar =>
      rw [literalValue_scalar known solid] at read
      have builtin : scalar ∈ ScalarType.builtins := by
        simp only [TypeDef.IsPortable, List.mem_cons, List.not_mem_nil, or_false] at kind
        rcases kind with rfl | rfl | rfl | rfl <;> simp [ScalarType.builtins]
      exact (ScalarType.builtins_nullFree scalar builtin).literal literal value
        (Ast.Value.solid solid).2 read
    | enum enum =>
      rw [literalValue_enum known solid] at read
      obtain ⟨choice, inside, rfl⟩ := LiteralValue.parseLiteral_choice read
      exact (here.internals enum rfl choice inside).1
    | inputObject input =>
      obtain ⟨found, rfl, -⟩ := object_denoted known (here.defaults input rfl) solid read
      rfl
    | _ => cases kind

/-- Wherever a literal has the value, what is written for it restores it. -/
def Schema.RewritesAll (schema : Schema) (value : Value) : Prop :=
  ∀ type, schema.Portable type → schema.Throughout (TypeDef.Restorable schema) type →
    schema.Denotes type value → schema.Rewrites (schema.Throughout TypeDef.IsExact type) type value

theorem rewrites_named {name : String} (portable : schema.Portable (.named name))
    (restorable : schema.Throughout (TypeDef.Restorable schema) (.named name)) {value : Value}
    (parts : ∀ part ∈ value.parts, schema.RewritesAll part) {literal : Ast.Value}
    (solid : literal.isSolid = true) (read : schema.literalValue [] literal (.named name) = some value) :
    schema.Rewrites (schema.Throughout TypeDef.IsExact (.named name)) (.named name) value := by
  obtain ⟨found, known, kind⟩ := portable name .refl
  have here := restorable name found .refl known
  cases found with
  | scalar scalar =>
    rw [literalValue_scalar known solid] at read
    exact rewrites_scalar known kind read
  | enum enum =>
    rw [literalValue_enum known solid] at read
    obtain ⟨choice, inside, rfl⟩ := LiteralValue.parseLiteral_choice read
    exact rewrites_enum known here (fun exact => exact name _ .refl known) inside
  | inputObject input =>
    obtain ⟨found, rfl, each⟩ := object_denoted known (here.defaults input rfl) solid read
    refine rewrites_object known (here.fields input rfl) (fun declared inside value given => ?_)
      fun declared inside => (each declared inside).2
    have member : value ∈ Value.parts (.object (input.fields.items.filterMap fun declared =>
        (found declared).map (declared.name, ·))) :=
      List.mem_map.2 ⟨_, List.mem_filterMap.2 ⟨declared, inside, by rw [given]; rfl⟩, rfl⟩
    -- What is exact throughout the object is exact throughout the field.
    obtain ⟨literal, again, written, solid, read, restores⟩ := parts value member declared.type
      (portable.field known inside) (restorable.field known inside)
      ((each declared inside).1 value given)
    exact ⟨literal, again, written, solid, read,
      restores.mono fun exact => exact.field known inside⟩
  | _ => cases kind

/-- A value that a literal has is written as a literal that restores it. -/
theorem denotes_rewrites (value : Value) : schema.RewritesAll value := by
  refine value.byParts fun value parts type portable restorable denotes => ?_
  rcases denotes.solid with ⟨rfl, nullable⟩ | ⟨literal, solid, read⟩
  · exact rewrites_null nullable
  · induction type with
    | nonNull type ih =>
      have full := solid_read portable restorable solid read
      rw [literalValue_nonNull solid] at read
      exact rewrites_nonNull (ih portable restorable ⟨literal, read⟩ read) full
    | list item ih =>
      obtain ⟨values, rfl, each⟩ := list_denoted solid read
      exact rewrites_list fun value member => parts value member item portable restorable (each value member)
    | named name => exact rewrites_named portable restorable parts solid read

/-- The value of a literal is written as a literal, and that is read as a value equal to it: the very
value, where no enum has equal internal values that are not the same. -/
theorem literalOf_restores {type : TypeRef} (portable : schema.Portable type)
    (restorable : schema.Throughout (TypeDef.Restorable schema) type) {literal : Ast.Value}
    {value : Value} (read : schema.literalValue [] literal type = some value) :
    ∃ written, schema.literalOf value type = some written ∧
      ∃ again, schema.literalValue [] written type = some again ∧ again.equal value = true ∧
        (schema.Throughout TypeDef.IsExact type → again = value) := by
  obtain ⟨written, again, write, -, read, restores⟩ :=
    denotes_rewrites value type portable restorable ⟨literal, read⟩
  exact ⟨written, write, again, read, restores.equal, restores.same⟩

section Filters

/-- Filters lead to themselves, to colors and to scalars. -/
theorem filterSchema_reached {property : TypeDef → Prop} (filter : property (.inputObject filterType))
    (color : property (.enum colorType)) (scalars : ∀ scalar, property (.scalar scalar)) :
    filterSchema.Throughout property (.named "Filter") := by
  intro name found path known
  have among := filterSchema_path path
  simp only [List.mem_cons, List.not_mem_nil, or_false] at among
  rcases among with rfl | rfl | rfl | rfl <;> cases known
  · exact filter
  · exact scalars _
  · exact color
  · exact scalars _

theorem filterSchema_restorable : filterSchema.Throughout (TypeDef.Restorable filterSchema)
    (.named "Filter") := by
  refine filterSchema_reached ⟨nofun, nofun, ?_, ?_⟩ ⟨?_, ?_, nofun, nofun⟩ fun _ =>
    ⟨nofun, nofun, nofun, nofun⟩
  · rintro _ ⟨⟩
    decide
  · rintro _ ⟨⟩ declared inside value default
    simp only [filterType, List.mem_cons, List.not_mem_nil, or_false] at inside
    rcases inside with rfl | rfl | rfl | rfl <;> cases default
    refine ⟨.int (toString (10 : Int)) none, ?_⟩
    show filterSchema.literalValue [] _ (.nonNull (.named "Int")) = some (.int 10)
    have known : filterSchema.type? "Int" = some (.scalar .int) := rfl
    rw [literalValue_nonNull rfl, literalValue_scalar known rfl]
    show Decimal.int64? (toString (10 : Int)) >>= ScalarType.int32? = _
    rw [Decimal.int64?_toString rfl]
    rfl
  · rintro _ ⟨⟩
    decide
  · rintro _ ⟨⟩ choice inside
    obtain rfl := List.mem_singleton.1 inside
    exact ⟨rfl, rfl⟩

theorem filterSchema_exact : filterSchema.Throughout TypeDef.IsExact (.named "Filter") := by
  refine filterSchema_reached (fun _ same => nomatch same) ?_ fun _ _ same => nomatch same
  rintro _ ⟨⟩ first inside second among -
  rw [List.mem_singleton.1 inside, List.mem_singleton.1 among]

/-- A filter with its defaults filled in and its only identity in a list. -/
def filledFilter : Value :=
  .object [("ids", .list [.string "7"]), ("color", .int 1), ("limit", .int 10)]

theorem literalOf_restores_filter :
    filterSchema.Portable (.named "Filter") ∧
    filterSchema.Throughout (TypeDef.Restorable filterSchema) (.named "Filter") ∧
    filterSchema.literalValue [] spelledFilter (.named "Filter") = some filledFilter ∧
    ∃ written, filterSchema.literalOf filledFilter (.named "Filter") = some written ∧
      filterSchema.literalValue [] written (.named "Filter") = some filledFilter := by
  have read : filterSchema.literalValue [] spelledFilter (.named "Filter") = some filledFilter := rfl
  obtain ⟨written, write, again, reread, -, same⟩ :=
    literalOf_restores filterSchema_portable filterSchema_restorable read
  rw [same filterSchema_exact] at reread
  exact ⟨filterSchema_portable, filterSchema_restorable, read, written, write, reread⟩

end Filters

end GraphQL
