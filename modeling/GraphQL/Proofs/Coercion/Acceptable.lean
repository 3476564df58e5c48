import GraphQL.Proofs.Coercion.External

/-! Inputs that a type accepts. Their coercion is a relation between inputs and values, and from it
follow what is accepted, that values are admitted by their types, and that they stay as they are. -/
namespace GraphQL

namespace Value

/-- The values directly inside a value. -/
def parts : Value → List Value
  | list values => values
  | object entries => entries.map Prod.snd
  | _ => []

section Induction
variable {motive : Value → Prop}

mutual

/-- What a value has once its parts have it, all values have. -/
theorem byParts (step : ∀ value, (∀ part ∈ value.parts, motive part) → motive value) :
    (value : Value) → motive value
  | list values => step (list values) (byParts_list step values)
  | object entries => step (object entries) (List.forall_mem_map.2 (byParts_object step entries))
  | null => step null fun _ member => absurd member List.not_mem_nil
  | int i => step (int i) fun _ member => absurd member List.not_mem_nil
  | float x => step (float x) fun _ member => absurd member List.not_mem_nil
  | string s => step (string s) fun _ member => absurd member List.not_mem_nil
  | boolean b => step (boolean b) fun _ member => absurd member List.not_mem_nil
  | enum name => step (enum name) fun _ member => absurd member List.not_mem_nil

theorem byParts_list (step : ∀ value, (∀ part ∈ value.parts, motive part) → motive value) :
    (values : List Value) → ∀ part ∈ values, motive part
  | [] => fun _ member => absurd member List.not_mem_nil
  | value :: rest => List.forall_mem_cons.2 ⟨byParts step value, byParts_list step rest⟩

theorem byParts_object (step : ∀ value, (∀ part ∈ value.parts, motive part) → motive value) :
    (entries : List (String × Value)) → ∀ entry ∈ entries, motive entry.2
  | [] => fun _ member => absurd member List.not_mem_nil
  | (_, value) :: rest => List.forall_mem_cons.2 ⟨byParts step value, byParts_object step rest⟩

end

end Induction

theorem eq_list {given : Value} {values : List Value} (list : given.list? = some values) :
    given = .list values := by
  cases given with
  | list _ => rw [Option.some.inj list]
  | _ => cases list

theorem eq_object {given : Value} {entries : Entries Value}
    (object : given.object? = some entries) : given = .object entries := by
  cases given with
  | object _ => rw [Option.some.inj object]
  | _ => cases object

end Value

/-- How a leaf type reads inputs. -/
def TypeDef.parseInput : TypeDef → Value → Option Value
  | .scalar type, value => type.parseValue value
  | .enum type, value => type.parseValue value
  | _, _ => none

/-- A type accepts an input. -/
inductive Acceptable (schema : Schema) : TypeRef → Value → Prop
  | null {type : TypeRef} : type.isNonNull = false → Acceptable schema type .null
  | nonNull {type : TypeRef} {given : Value} : given.isNull = false → Acceptable schema type given →
      Acceptable schema (.nonNull type) given
  | list {item : TypeRef} {givens : List Value} : (∀ given ∈ givens, Acceptable schema item given) →
      Acceptable schema (.list item) (.list givens)
  | single {item : TypeRef} {given : Value} : given.isNull = false → given.list? = none →
      Acceptable schema item given → Acceptable schema (.list item) given
  | leaf {name : String} {type : TypeDef} {given : Value} : schema.type? name = some type →
      type.isLeaf = true → given.isNull = false → (type.parseInput given).isSome = true →
      Acceptable schema (.named name) given
  | object {name : String} {input : InputObjectType} {entries : Entries Value} :
      schema.type? name = some (.inputObject input) →
      (∀ key ∈ entries.keys, input.fields.contains key = true) →
      (∀ declared ∈ input.fields.items, ∀ given, entries.get? declared.name = some given →
        Acceptable schema declared.type given) →
      (∀ declared ∈ input.fields.items, entries.get? declared.name = none →
        declared.type.isNonNull = false ∨ declared.default.isSome = true) →
      Acceptable schema (.named name) (.object entries)

/-- The value of a declared field: what its input becomes, else its default. -/
def InputValue.filled (declared : InputValue) (entries : Entries Value) (value : Value) : Option Value :=
  match entries.get? declared.name with
  | some _ => some value
  | none => declared.default

theorem InputValue.filled_eq_none {declared : InputValue} {entries : Entries Value} {value : Value} :
    declared.filled entries value = none ↔
      entries.get? declared.name = none ∧ declared.default = none := by
  rw [filled]
  cases entries.get? declared.name <;> simp

theorem InputValue.filled_eq_some {declared : InputValue} {entries : Entries Value}
    {value found : Value} : declared.filled entries value = some found ↔
      ((∃ given, entries.get? declared.name = some given) ∧ value = found) ∨
        (entries.get? declared.name = none ∧ declared.default = some found) := by
  rw [filled]
  cases entries.get? declared.name <;> simp

/-- What a type makes of an input. Single values become lists, and objects have their declared fields
in the order of the declarations, with defaults where no input is given. -/
inductive Becomes (schema : Schema) : TypeRef → Value → Value → Prop
  | null {type : TypeRef} : type.isNonNull = false → Becomes schema type .null .null
  | nonNull {type : TypeRef} {given value : Value} : given.isNull = false →
      Becomes schema type given value → Becomes schema (.nonNull type) given value
  | list {item : TypeRef} {givens values : List Value} : givens.length = values.length →
      (∀ given value, (given, value) ∈ givens.zip values → Becomes schema item given value) →
      Becomes schema (.list item) (.list givens) (.list values)
  | single {item : TypeRef} {given value : Value} : given.isNull = false → given.list? = none →
      Becomes schema item given value → Becomes schema (.list item) given (.list [value])
  | leaf {name : String} {type : TypeDef} {given value : Value} : schema.type? name = some type →
      type.isLeaf = true → given.isNull = false → type.parseInput given = some value →
      Becomes schema (.named name) given value
  | object {name : String} {input : InputObjectType} {entries : Entries Value}
      {values : InputValue → Value} : schema.type? name = some (.inputObject input) →
      (∀ key ∈ entries.keys, input.fields.contains key = true) →
      (∀ declared ∈ input.fields.items, ∀ given, entries.get? declared.name = some given →
        Becomes schema declared.type given (values declared)) →
      (∀ declared ∈ input.fields.items, entries.get? declared.name = none →
        declared.type.isNonNull = false ∨ declared.default.isSome = true) →
      Becomes schema (.named name) (.object entries) (.object (input.fields.items.filterMap
        fun declared => (declared.filled entries (values declared)).map (declared.name, ·)))

namespace Coercion
variable {schema : Schema}

/-- A name is one of a leaf type, one of an input object or none for inputs. -/
theorem named_cases (schema : Schema) (name : String) :
    (∀ type, schema.type? name = some type → type.isInput = false) ∨
      (∃ type, schema.type? name = some type ∧ type.isLeaf = true) ∨
      ∃ input, schema.type? name = some (.inputObject input) := by
  cases known : schema.type? name with
  | none => exact .inl nofun
  | some type =>
    cases type with
    | scalar _ | enum _ => exact .inr (.inl ⟨_, rfl, rfl⟩)
    | inputObject input => exact .inr (.inr ⟨input, rfl⟩)
    | _ =>
      refine .inl ?_
      rintro _ ⟨⟩
      rfl

section Equations

theorem coerce_null (type : TypeRef) : schema.coerce .null type =
    if type.isNonNull then .error [foundNull type] else .ok .null := by
  rw [Schema.coerce, ofValue_eq, ofLayer_null]

theorem coerce_nonNull {given : Value} (solid : given.isNull = false) (type : TypeRef) :
    schema.coerce given (.nonNull type) = schema.coerce given type := by
  rw [Schema.coerce, Schema.coerce, ofValue_eq, ofLayer, if_neg (Bool.eq_false_iff.1 solid)]

theorem coerce_list (givens : List Value) (item : TypeRef) : schema.coerce (.list givens) (.list item) =
    ofItems (givens.map fun given => schema.coerce given item) := by
  rw [Schema.coerce, ofValue_eq, ofLayer.eq_def]
  dsimp only [Value.layer]
  rw [if_neg (Bool.eq_false_iff.1 (rfl : (Value.list givens).isNull = false)), List.map_map]
  rfl

theorem coerce_single {given : Value} (solid : given.isNull = false) (single : given.list? = none)
    (item : TypeRef) : schema.coerce given (.list item) =
      (schema.coerce given item).map fun value => .list [value] := by
  rw [Schema.coerce, Schema.coerce, ofValue_eq, ofLayer.eq_def]
  dsimp only
  rw [if_neg (Bool.eq_false_iff.1 solid)]
  cases given with
  | list values => cases single
  | _ => rfl

theorem coerce_leaf {name : String} {type : TypeDef} (known : schema.type? name = some type)
    (leaf : type.isLeaf = true) {given : Value} (solid : given.isNull = false) :
    schema.coerce given (.named name) =
      (type.parseInput given).elim (.error [unexpected name given.json]) .ok := by
  rw [Schema.coerce, ofValue_eq, ofLayer, if_neg (Bool.eq_false_iff.1 solid)]
  dsimp only
  rw [known]
  cases type with
  | scalar _ | enum _ => rfl
  | _ => cases leaf

theorem coerce_object {name : String} {input : InputObjectType}
    (known : schema.type? name = some (.inputObject input)) (entries : Entries Value) :
    schema.coerce (.object entries) (.named name) =
      ofFields (entries.map fun entry => (entry.1, schema.coerce entry.2)) input := by
  rw [Schema.coerce, ofValue_eq, ofLayer,
    if_neg (Bool.eq_false_iff.1 (rfl : (Value.object entries).isNull = false))]
  dsimp only
  rw [known]
  rfl

theorem coerce_notObject {name : String} {input : InputObjectType}
    (known : schema.type? name = some (.inputObject input)) {given : Value}
    (solid : given.isNull = false) (other : given.object? = none) :
    schema.coerce given (.named name) = .error [notAnObject name] := by
  rw [Schema.coerce, ofValue_eq, ofLayer, if_neg (Bool.eq_false_iff.1 solid)]
  dsimp only
  rw [known]
  cases given with
  | object entries => cases other
  | _ => rfl

theorem coerce_unknown {name : String}
    (unknown : ∀ type, schema.type? name = some type → type.isInput = false) {given : Value}
    (solid : given.isNull = false) :
    schema.coerce given (.named name) = .error ["Unknown input type \"" ++ name ++ "\"."] := by
  rw [Schema.coerce, ofValue_eq, ofLayer, if_neg (Bool.eq_false_iff.1 solid)]
  dsimp only
  cases known : schema.type? name with
  | none => rfl
  | some type =>
    cases type with
    | scalar _ | enum _ | inputObject _ => cases unknown _ known
    | _ => rfl

theorem ofField_entries (entries : Entries Value) (declared : InputValue) :
    ofField (entries.map fun entry => (entry.1, schema.coerce entry.2)) declared =
      match entries.get? declared.name with
      | some given => (schema.coerce given declared.type).map some
      | none =>
          match declared.default with
          | some value => .ok (some value)
          | none => if declared.type.isNonNull then .error [foundNull declared.type] else .ok none := by
  have found : Layer.field? (entries.map fun entry => (entry.1, schema.coerce entry.2)) declared.name =
      (entries.get? declared.name).map schema.coerce := by
    rw [Layer.field?, List.find?_map, Option.map_map, Entries.get?, Option.map_map]
    rfl
  rw [ofField, found]
  cases entries.get? declared.name <;> rfl

end Equations

section Results

theorem coerce_list_iff {givens : List Value} {item : TypeRef} {value : Value} :
    schema.coerce (.list givens) (.list item) = .ok value ↔ ∃ values : List Value,
      List.Forall₂ (fun given value => schema.coerce given item = .ok value) givens values ∧
        value = .list values := by
  have telling : .error [] ∉ givens.map fun given => schema.coerce given item := by
    intro member
    obtain ⟨given, -, failed⟩ := List.mem_map.1 member
    exact ofValue_ne_nil given item failed
  rw [coerce_list, ofItems_eq_ok_iff telling]
  refine exists_congr fun values => and_congr_left fun _ => ?_
  rw [← List.forall₂_eq_eq_eq, List.forall₂_map_left_iff, List.forall₂_map_right_iff]

/-- What a declared field of an object is, given what its input is. -/
theorem ofField_ok_iff {entries : Entries Value} {declared : InputValue} {found : Option Value} :
    ofField (entries.map fun entry => (entry.1, schema.coerce entry.2)) declared = .ok found ↔
      ∃ value, (∀ given, entries.get? declared.name = some given →
          schema.coerce given declared.type = .ok value) ∧
        (entries.get? declared.name = none →
          declared.type.isNonNull = false ∨ declared.default.isSome = true) ∧
        found = declared.filled entries value := by
  rw [ofField_entries]
  unfold InputValue.filled
  cases entries.get? declared.name with
  | some given =>
    simp only [Option.some.injEq, forall_eq', reduceCtorEq, false_implies, true_and]
    constructor
    · intro read
      obtain ⟨value, here, rfl⟩ := except_map_ok read
      exact ⟨value, here, rfl⟩
    · rintro ⟨value, here, rfl⟩
      rw [here]
      rfl
  | none => cases declared.default <;> cases declared.type.isNonNull <;> simp [eq_comm]

theorem coerce_object_iff {name : String} {input : InputObjectType}
    (known : schema.type? name = some (.inputObject input)) {entries : Entries Value} {value : Value} :
    schema.coerce (.object entries) (.named name) = .ok value ↔
      (∀ key ∈ entries.keys, input.fields.contains key = true) ∧ ∃ values : InputValue → Value,
        (∀ declared ∈ input.fields.items, ∀ given, entries.get? declared.name = some given →
          schema.coerce given declared.type = .ok (values declared)) ∧
        (∀ declared ∈ input.fields.items, entries.get? declared.name = none →
          declared.type.isNonNull = false ∨ declared.default.isSome = true) ∧
        value = .object (input.fields.items.filterMap fun declared =>
          (declared.filled entries (values declared)).map (declared.name, ·)) := by
  have telling (declared : InputValue) :
      ofField (entries.map fun entry => (entry.1, schema.coerce entry.2)) declared ≠ .error [] :=
    ofField_ne_nil (List.forall_mem_map.2 fun entry _ => @ofValue_ne_nil schema entry.2) declared
  rw [coerce_object known, ofFields_eq_ok_iff telling]
  refine and_congr (by simp [Entries.keys]) ?_
  constructor
  · rintro ⟨all, rfl⟩
    have each (declared : InputValue) (inside : declared ∈ input.fields.items) :
        ∃ value, (∀ given, entries.get? declared.name = some given →
            schema.coerce given declared.type = .ok value) ∧
          (entries.get? declared.name = none →
            declared.type.isNonNull = false ∨ declared.default.isSome = true) ∧
          ofField (entries.map fun entry => (entry.1, schema.coerce entry.2)) declared =
            .ok (declared.filled entries value) := by
      obtain ⟨found, here⟩ := all declared inside
      obtain ⟨value, given, required, rfl⟩ := ofField_ok_iff.1 here
      exact ⟨value, given, required, here⟩
    choose! values given required here using each
    refine ⟨values, given, required, congrArg Value.object ?_⟩
    refine List.filterMap_congr fun declared inside => ?_
    rw [here declared inside]
    rfl
  · rintro ⟨values, given, required, rfl⟩
    have each (declared : InputValue) (inside : declared ∈ input.fields.items) :
        ofField (entries.map fun entry => (entry.1, schema.coerce entry.2)) declared =
          .ok (declared.filled entries (values declared)) :=
      ofField_ok_iff.2 ⟨_, given declared inside, required declared inside, rfl⟩
    refine ⟨fun declared inside => ⟨_, each declared inside⟩, congrArg Value.object ?_⟩
    refine List.filterMap_congr fun declared inside => ?_
    rw [each declared inside]
    rfl

theorem named_becomes {given : Value} (solid : given.isNull = false)
    (parts : ∀ part ∈ given.parts, ∀ type value, schema.coerce part type = .ok value →
      Becomes schema type part value) {name : String} {value : Value}
    (read : schema.coerce given (.named name) = .ok value) : Becomes schema (.named name) given value := by
  rcases named_cases schema name with unknown | ⟨type, known, leaf⟩ | ⟨input, known⟩
  · rw [coerce_unknown unknown solid] at read
    cases read
  · rw [coerce_leaf known leaf solid] at read
    cases parsed : type.parseInput given with
    | none =>
      rw [parsed] at read
      cases read
    | some result =>
      rw [parsed] at read
      cases read
      exact .leaf known leaf solid parsed
  · cases object : given.object? with
    | none =>
      rw [coerce_notObject known solid object] at read
      cases read
    | some entries =>
      obtain rfl := Value.eq_object object
      obtain ⟨keys, values, each, required, rfl⟩ := (coerce_object_iff known).1 read
      exact .object known keys (fun declared inside given here =>
        parts given (List.mem_map.2 ⟨_, Entries.mem_of_get? here, rfl⟩) _ _ (each declared inside given here))
        required

theorem coerce_becomes (given : Value) : ∀ type value, schema.coerce given type = .ok value →
    Becomes schema type given value := by
  refine given.byParts (motive := fun given => ∀ type value, schema.coerce given type = .ok value →
    Becomes schema type given value) ?_
  intro given parts type
  cases null : given.isNull with
  | true =>
    obtain rfl := eq_null_of_isNull null
    intro value read
    rw [coerce_null] at read
    split at read
    · cases read
    · rename_i nullable
      cases read
      exact .null (by simpa using nullable)
  | false =>
    induction type with
    | nonNull type ih =>
      intro value read
      rw [coerce_nonNull null] at read
      exact .nonNull null (ih value read)
    | list item ih =>
      intro value read
      cases single : given.list? with
      | some givens =>
        obtain rfl := Value.eq_list single
        obtain ⟨values, each, rfl⟩ := coerce_list_iff.1 read
        obtain ⟨same, each⟩ := List.forall₂_iff_zip.1 each
        exact .list same fun given value member =>
          parts given (List.of_mem_zip member).1 item value (each member)
      | none =>
        rw [coerce_single null single] at read
        obtain ⟨value, here, rfl⟩ := except_map_ok read
        exact .single null single (ih value here)
    | named name => exact fun value => named_becomes null parts

end Results

end Coercion

section Acceptance
open Coercion
variable {schema : Schema}

theorem Becomes.coerce {type : TypeRef} {given value : Value} (becomes : Becomes schema type given value) :
    schema.coerce given type = .ok value := by
  induction becomes with
  | null nullable => rw [coerce_null, if_neg (Bool.eq_false_iff.1 nullable)]
  | nonNull solid _ ih => rw [coerce_nonNull solid, ih]
  | list same _ ih => exact coerce_list_iff.2 ⟨_, List.forall₂_iff_zip.2 ⟨same, ih _ _⟩, rfl⟩
  | single solid single _ ih =>
    rw [coerce_single solid single, ih]
    rfl
  | leaf known leaf solid read =>
    rw [coerce_leaf known leaf solid, read]
    rfl
  | object known keys _ required ih => exact (coerce_object_iff known).2 ⟨keys, _, ih, required, rfl⟩

theorem Acceptable.becomes {type : TypeRef} {given : Value} (acceptable : Acceptable schema type given) :
    ∃ value, Becomes schema type given value := by
  induction acceptable with
  | null nullable => exact ⟨.null, .null nullable⟩
  | nonNull solid _ ih =>
    obtain ⟨value, becomes⟩ := ih
    exact ⟨value, .nonNull solid becomes⟩
  | @list item givens _ ih =>
    choose! values becomes using ih
    obtain ⟨same, each⟩ := List.forall₂_iff_zip.1
      (List.forall₂_map_right_iff.2 (List.forall₂_same.2 becomes) :
        List.Forall₂ (Becomes schema item) givens (givens.map values))
    exact ⟨_, .list same fun given value member => each member⟩
  | single solid single _ ih =>
    obtain ⟨value, becomes⟩ := ih
    exact ⟨.list [value], .single solid single becomes⟩
  | leaf known leaf solid read =>
    obtain ⟨value, read⟩ := Option.isSome_iff_exists.1 read
    exact ⟨value, .leaf known leaf solid read⟩
  | @object name input entries known keys _ required ih =>
    have each (declared : InputValue) (inside : declared ∈ input.fields.items) :
        ∃ value, ∀ given, entries.get? declared.name = some given →
          Becomes schema declared.type given value := by
      cases found : entries.get? declared.name with
      | none => exact ⟨.null, nofun⟩
      | some given =>
        obtain ⟨value, becomes⟩ := ih declared inside given found
        refine ⟨value, ?_⟩
        rintro _ ⟨⟩
        exact becomes
    choose! values becomes using each
    exact ⟨_, .object known keys becomes required⟩

theorem Becomes.acceptable {type : TypeRef} {given value : Value}
    (becomes : Becomes schema type given value) : Acceptable schema type given := by
  induction becomes with
  | null nullable => exact .null nullable
  | nonNull solid _ ih => exact .nonNull solid ih
  | @list item givens values same _ ih =>
    refine .list fun given member => ?_
    obtain ⟨value, -, acceptable⟩ := forall₂_mem (R := fun given _ => Acceptable schema item given)
      (List.forall₂_iff_zip.2 ⟨same, ih _ _⟩) member
    exact acceptable
  | single solid single _ ih => exact .single solid single ih
  | leaf known leaf solid read => exact .leaf known leaf solid (by rw [read]; rfl)
  | object known keys _ required ih => exact .object known keys ih required

end Acceptance

/-- A property of the types that a type is built from, and so the fields inside it. -/
def Schema.Throughout (schema : Schema) (property : TypeDef → Prop) (type : TypeRef) : Prop :=
  ∀ name found, schema.InputPath type.innermost name → schema.type? name = some found → property found

theorem Schema.Throughout.field {schema : Schema} {property : TypeDef → Prop} {name : String}
    {input : InputObjectType} (throughout : schema.Throughout property (.named name))
    (known : schema.type? name = some (.inputObject input)) {declared : InputValue}
    (inside : declared ∈ input.fields.items) : schema.Throughout property declared.type :=
  fun inner found path => throughout inner found (.head ⟨input, known, declared, inside, rfl⟩ path)

theorem Schema.Portable.field {schema : Schema} {name : String} {input : InputObjectType}
    (portable : schema.Portable (.named name)) (known : schema.type? name = some (.inputObject input))
    {declared : InputValue} (inside : declared ∈ input.fields.items) : schema.Portable declared.type :=
  fun inner path => portable inner (.head ⟨input, known, declared, inside, rfl⟩ path)

theorem Schema.Throughout.mono {schema : Schema} {property weaker : TypeDef → Prop} {type : TypeRef}
    (throughout : schema.Throughout property type) (implies : ∀ found, property found → weaker found) :
    schema.Throughout weaker type :=
  fun name found path known => implies found (throughout name found path known)

namespace TypeDef

/-- Nothing but null is parsed as null. -/
def ParsesSolid (type : TypeDef) : Prop :=
  ∀ given value, given.isNull = false → type.parseInput given = some value → value.isNull = false

/-- What is parsed is not null and taken, and defaults are admitted. -/
structure AdmitsInputs (schema : Schema) (takes : TypeDef → Value → Prop) (type : TypeDef) : Prop where
  solid : type.ParsesSolid
  leaf : ∀ given value, given.isNull = false → type.parseInput given = some value → takes type value
  names : ∀ input, type = .inputObject input → input.fields.names.Nodup
  defaults : ∀ input, type = .inputObject input → ∀ declared ∈ input.fields.items, ∀ value,
    declared.default = some value → Admits schema takes declared.type value

/-- What is parsed, and what defaults are, stays the same when it is given again. -/
structure KeepsInputs (schema : Schema) (type : TypeDef) : Prop where
  solid : type.ParsesSolid
  leaf : ∀ given value, given.isNull = false → type.parseInput given = some value →
    type.parseInput value = some value
  names : ∀ input, type = .inputObject input → input.fields.names.Nodup
  defaults : ∀ input, type = .inputObject input → ∀ declared ∈ input.fields.items, ∀ value,
    declared.default = some value → schema.coerce value declared.type = .ok value

end TypeDef

section Declared
variable {α : Type} {declared : List InputValue} (found : InputValue → Option α)

/-- Declared fields have their values in the order of the declarations. -/
theorem keys_sublist (declared : List InputValue) :
    (Entries.keys (declared.filterMap fun field => (found field).map (field.name, ·))).Sublist
      (declared.map InputValue.name) := by
  induction declared with
  | nil => exact .refl _
  | cons first rest ih =>
    rw [List.filterMap_cons]
    cases found first with
    | none => exact ih.cons _
    | some value => exact ih.cons_cons _

theorem get?_declared (distinct : (declared.map InputValue.name).Nodup) {field : InputValue}
    (inside : field ∈ declared) :
    Entries.get? (declared.filterMap fun field => (found field).map (field.name, ·)) field.name =
      found field := by
  have keys := (keys_sublist found declared).nodup distinct
  cases here : found field with
  | some value =>
    exact Entries.get?_of_mem keys (List.mem_filterMap.2 ⟨field, inside, by rw [here]; rfl⟩)
  | none =>
    refine Entries.get?_of_not_mem fun member => ?_
    obtain ⟨entry, member, named⟩ := List.mem_map.1 member
    obtain ⟨other, among, same⟩ := List.mem_filterMap.1 member
    obtain ⟨value, there, rfl⟩ := Option.map_eq_some_iff.1 same
    rw [← List.inj_on_of_nodup_map distinct among inside named, there] at here
    cases here

end Declared

section Outcomes
variable {schema : Schema} {type : TypeRef} {given value : Value}

theorem Becomes.solid (throughout : schema.Throughout TypeDef.ParsesSolid type)
    (becomes : Becomes schema type given value) (solid : given.isNull = false) :
    value.isNull = false := by
  induction becomes with
  | null _ => cases solid
  | nonNull _ _ ih => exact ih throughout solid
  | list _ _ _ | single _ _ _ _ | object _ _ _ _ _ => rfl
  | leaf known _ solid read => exact throughout _ _ .refl known _ _ solid read

/-- What an input becomes is admitted by the type. -/
theorem Becomes.admits {takes : TypeDef → Value → Prop}
    (throughout : schema.Throughout (TypeDef.AdmitsInputs schema takes) type)
    (becomes : Becomes schema type given value) : Admits schema takes type value := by
  induction becomes with
  | null nullable => exact .null nullable
  | @nonNull type _ _ solid becomes ih =>
    have inner : schema.Throughout TypeDef.ParsesSolid type :=
      throughout.mono fun _ => TypeDef.AdmitsInputs.solid
    exact .nonNull (becomes.solid inner solid) (ih throughout)
  | @list item givens values same _ ih =>
    have each : List.Forall₂ (fun _ value => Admits schema takes item value) givens values :=
      List.forall₂_iff_zip.2 ⟨same, fun member => ih _ _ member throughout⟩
    refine .list fun value member => ?_
    obtain ⟨_, -, admits⟩ := forall₂_mem each.flip member
    exact admits
  | single _ _ _ ih => exact .list (List.forall_mem_singleton.2 (ih throughout))
  | leaf known leaf solid read =>
    exact .leaf known leaf ((throughout _ _ .refl known).leaf _ _ solid read)
  | @object name input entries values known keys _ required ih =>
    have here := throughout _ _ .refl known
    refine object_admitted known (here.names input rfl) (fun key value member => ?_)
      fun declared inside nonNull => ?_
    · obtain ⟨declared, inside, same⟩ := List.mem_filterMap.1 member
      obtain ⟨_, filled, same⟩ := Option.map_eq_some_iff.1 same
      cases same
      refine ⟨declared, inside, rfl, ?_⟩
      rcases declared.filled_eq_some.1 filled with ⟨⟨given, found⟩, rfl⟩ | ⟨-, default⟩
      · exact ih declared inside given found (throughout.field known inside)
      · exact here.defaults input rfl declared inside _ default
    · cases filled : declared.filled entries (values declared) with
      | some value =>
        exact ⟨value, List.mem_filterMap.2 ⟨declared, inside, by rw [filled]; rfl⟩⟩
      | none =>
        obtain ⟨absent, without⟩ := declared.filled_eq_none.1 filled
        rcases required declared inside absent with nullable | default
        · rw [nullable] at nonNull
          cases nonNull
        · rw [without] at default
          cases default

/-- A list of values that stay as they are stays as it is. -/
theorem Becomes.of_fixed {item : TypeRef} {values : List Value}
    (fixed : ∀ value ∈ values, Becomes schema item value value) :
    Becomes schema (.list item) (.list values) (.list values) :=
  .list rfl fun _ _ member => (List.forall₂_iff_zip.1 (List.forall₂_same.2 fixed)).2 member

/-- What an input has become stays as it is. -/
theorem Becomes.again (throughout : schema.Throughout (TypeDef.KeepsInputs schema) type)
    (becomes : Becomes schema type given value) : Becomes schema type value value := by
  induction becomes with
  | null nullable => exact .null nullable
  | @nonNull type _ _ solid becomes ih =>
    have inner : schema.Throughout TypeDef.ParsesSolid type :=
      throughout.mono fun _ => TypeDef.KeepsInputs.solid
    exact .nonNull (becomes.solid inner solid) (ih throughout)
  | @list item givens values same _ ih =>
    have each : List.Forall₂ (fun _ value => Becomes schema item value value) givens values :=
      List.forall₂_iff_zip.2 ⟨same, fun member => ih _ _ member throughout⟩
    refine .of_fixed fun value member => ?_
    obtain ⟨_, -, becomes⟩ := forall₂_mem each.flip member
    exact becomes
  | single _ _ _ ih => exact .of_fixed (List.forall_mem_singleton.2 (ih throughout))
  | leaf known leaf solid read =>
    have here := throughout _ _ .refl known
    exact .leaf known leaf (here.solid _ _ solid read) (here.leaf _ _ solid read)
  | @object name input entries values known keys _ required ih =>
    have here := throughout _ _ .refl known
    let found (declared : InputValue) : Option Value := declared.filled entries (values declared)
    let result : Entries Value := input.fields.items.filterMap fun declared =>
      (found declared).map (declared.name, ·)
    have lookup (declared : InputValue) (inside : declared ∈ input.fields.items) :
        result.get? declared.name = found declared := get?_declared found (here.names input rfl) inside
    have same : result = input.fields.items.filterMap fun declared =>
        (declared.filled result ((found declared).getD .null)).map (declared.name, ·) := by
      refine List.filterMap_congr fun declared inside => ?_
      rw [InputValue.filled, lookup declared inside]
      cases filled : found declared with
      | some value => rfl
      | none =>
        obtain ⟨-, without⟩ := declared.filled_eq_none.1 filled
        rw [without]
    show Becomes schema (.named name) (.object result) (.object result)
    nth_rewrite 2 [same]
    refine .object known (fun key member => ?_) (fun declared inside given there => ?_)
      fun declared inside absent => ?_
    · obtain ⟨declared, inside, rfl⟩ := List.mem_map.1 ((keys_sublist found _).subset member)
      exact List.any_eq_true.2 ⟨declared, inside, beq_self_eq_true _⟩
    · rw [lookup declared inside] at there
      rw [there]
      show Becomes schema declared.type given given
      rcases declared.filled_eq_some.1 there with ⟨⟨outer, present⟩, rfl⟩ | ⟨-, default⟩
      · exact ih declared inside outer present (throughout.field known inside)
      · exact Coercion.coerce_becomes _ _ _ (here.defaults input rfl declared inside _ default)
    · rw [lookup declared inside] at absent
      exact required declared inside (declared.filled_eq_none.1 absent).1

end Outcomes

/-- Where nothing but null is read as null, all inputs are admitted if the defaults are. -/
theorem Schema.NullFree.throughout {schema : Schema} (nulls : schema.NullFree)
    (names : ∀ input, .inputObject input ∈ schema.types → input.fields.names.Nodup)
    (defaults : ∀ input, .inputObject input ∈ schema.types → ∀ declared ∈ input.fields.items, ∀ value,
      declared.default = some value → Admits schema TypeDef.Reads declared.type value)
    (type : TypeRef) : schema.Throughout (TypeDef.AdmitsInputs schema TypeDef.Reads) type := by
  intro name found path known
  have inside := Schema.mem_of_type? known
  refine ⟨fun given value solid read => ?_, fun given value solid read => ?_, ?_, ?_⟩
  · cases found with
    | scalar scalar => exact (nulls.scalar scalar inside).value given value solid read
    | enum enum =>
      obtain ⟨choice, among, rfl⟩ := parseValue_choice read
      exact nulls.enum enum inside choice among
    | _ => cases read
  · cases found with
    | scalar scalar => exact .inl ⟨given, read⟩
    | enum enum => exact parseValue_choice read
    | _ => cases read
  · rintro input rfl
    exact names input inside
  · rintro input rfl
    exact defaults input inside

/-- What an input value is coerced to fits the type. -/
theorem coerce_fits {schema : Schema} (fitting : schema.ReadsFitting) {given value : Value}
    {type : TypeRef} (read : schema.coerce given type = .ok value) : Fits schema type value :=
  have throughout := fitting.nulls.throughout fitting.names.inputs
    (fun input known declared inside value default =>
      fits_iff_admits.1 (fitting.defaults.inputs input known declared inside value default)) type
  fits_iff_admits.2 ((Coercion.coerce_becomes given type value read).admits throughout)

end GraphQL
