import GraphQL.Coercion.Literal
import GraphQL.Proofs.Entries
import GraphQL.Proofs.Schema.Typing

/-! Values that fit input types, and what a schema has to provide for inputs and literals to be read as
such values: defaults that fit, and nothing but null that is read as null. -/
namespace GraphQL

/-- A scalar reads some input or literal as a value. -/
def ScalarType.Reads (scalar : ScalarType) (value : Value) : Prop :=
  (∃ given, scalar.parseValue given = some value) ∨
    ∃ literal, scalar.parseLiteral literal = some value

/-- A scalar reads nothing but null as null. -/
structure ScalarType.NullFree (scalar : ScalarType) : Prop where
  value : ∀ given value, given.isNull = false → scalar.parseValue given = some value →
    value.isNull = false
  literal : ∀ literal value, LiteralValue.isNull literal = false →
    scalar.parseLiteral literal = some value → value.isNull = false

namespace ScalarType

theorem int32?_solid {i : Int} {value : Value} (read : int32? i = some value) :
    value.isNull = false := by
  rw [int32?] at read
  split at read
  · cases read
    rfl
  · cases read

theorem int_nullFree : int.NullFree where
  value given value _ read := by
    cases given with
    | int i => exact int32?_solid read
    | float x =>
      obtain ⟨i, _, whole⟩ := Option.bind_eq_some_iff.1 read
      exact int32?_solid whole
    | _ => cases read
  literal literal value _ read := by
    cases literal with
    | int text span =>
      obtain ⟨i, _, whole⟩ := Option.bind_eq_some_iff.1 read
      exact int32?_solid whole
    | _ => cases read

theorem float_nullFree : float.NullFree where
  value given value _ read := by
    cases given with
    | int i =>
      cases read
      rfl
    | float x =>
      have read : (if x.isFinite then some (Value.float x) else none) = some value := read
      split at read
      · cases read
        rfl
      · cases read
    | _ => cases read
  literal literal value _ read := by
    cases literal with
    | int text span | float text span =>
      obtain ⟨x, _, rfl⟩ := Option.map_eq_some_iff.1 read
      rfl
    | _ => cases read

/-- The built-in scalars read nothing as null. -/
theorem builtins_nullFree : ∀ scalar ∈ builtins, scalar.NullFree := by
  simp only [builtins, List.forall_mem_cons]
  refine ⟨int_nullFree, float_nullFree, ⟨?_, ?_⟩, ⟨?_, ?_⟩, ⟨?_, ?_⟩, fun _ => nofun⟩ <;>
    intro given value _ read <;> cases given <;> cases read <;> rfl

end ScalarType

/-- A value fits an input type. -/
inductive Fits (schema : Schema) : TypeRef → Value → Prop
  | null {type : TypeRef} : type.isNonNull = false → Fits schema type .null
  | nonNull {type : TypeRef} {value : Value} : value.isNull = false → Fits schema type value →
      Fits schema (.nonNull type) value
  | list {item : TypeRef} {values : List Value} : (∀ value ∈ values, Fits schema item value) →
      Fits schema (.list item) (.list values)
  | scalar {name : String} {scalar : ScalarType} {value : Value} :
      schema.type? name = some (.scalar scalar) → scalar.Reads value → Fits schema (.named name) value
  | enum {name : String} {enum : EnumType} {choice : EnumValue} :
      schema.type? name = some (.enum enum) → choice ∈ enum.values.items →
      Fits schema (.named name) choice.internal
  | object {name : String} {input : InputObjectType} {entries : Entries Value} :
      schema.type? name = some (.inputObject input) →
      (∀ key ∈ entries.keys, input.fields.contains key = true) →
      (∀ declared ∈ input.fields.items, ∀ value, (declared.name, value) ∈ entries →
        Fits schema declared.type value) →
      (∀ declared ∈ input.fields.items, declared.type.isNonNull = true →
        declared.name ∈ entries.keys) →
      Fits schema (.named name) (.object entries)

/-- A leaf type reads some input or literal as a value. -/
def TypeDef.Reads : TypeDef → Value → Prop
  | .scalar type, value => type.Reads value
  | .enum type, value => ∃ choice ∈ type.values.items, choice.internal = value
  | _, _ => False

/-- An input type admits a value, given which values its leaf types take. -/
inductive Admits (schema : Schema) (takes : TypeDef → Value → Prop) : TypeRef → Value → Prop
  | null {type : TypeRef} : type.isNonNull = false → Admits schema takes type .null
  | nonNull {type : TypeRef} {value : Value} : value.isNull = false → Admits schema takes type value →
      Admits schema takes (.nonNull type) value
  | list {item : TypeRef} {values : List Value} : (∀ value ∈ values, Admits schema takes item value) →
      Admits schema takes (.list item) (.list values)
  | leaf {name : String} {type : TypeDef} {value : Value} :
      schema.type? name = some type → type.isLeaf = true → takes type value →
      Admits schema takes (.named name) value
  | object {name : String} {input : InputObjectType} {entries : Entries Value} :
      schema.type? name = some (.inputObject input) →
      (∀ key ∈ entries.keys, input.fields.contains key = true) →
      (∀ declared ∈ input.fields.items, ∀ value, (declared.name, value) ∈ entries →
        Admits schema takes declared.type value) →
      (∀ declared ∈ input.fields.items, declared.type.isNonNull = true →
        declared.name ∈ entries.keys) →
      Admits schema takes (.named name) (.object entries)

/-- What fits a type is what the type admits, if leaf types take what they read. -/
theorem fits_iff_admits {schema : Schema} {type : TypeRef} {value : Value} :
    Fits schema type value ↔ Admits schema TypeDef.Reads type value := by
  constructor
  · intro fits
    induction fits with
    | null nullable => exact .null nullable
    | nonNull solid _ ih => exact .nonNull solid ih
    | list _ ih => exact .list ih
    | scalar known reads => exact .leaf known rfl reads
    | enum known inside => exact .leaf known rfl ⟨_, inside, rfl⟩
    | object known keys _ required ih => exact .object known keys ih required
  · intro admits
    induction admits with
    | null nullable => exact .null nullable
    | nonNull solid _ ih => exact .nonNull solid ih
    | list _ ih => exact .list ih
    | @leaf _ type _ known isLeaf reads =>
      cases type with
      | scalar scalar => exact .scalar known reads
      | enum enum =>
        obtain ⟨choice, inside, rfl⟩ := reads
        exact .enum known inside
      | _ => cases isLeaf
    | object known keys _ required ih => exact .object known keys ih required

namespace Schema

/-- Scalars read nothing but null as null, and no enum value stands for null. -/
structure NullFree (schema : Schema) : Prop where
  scalar : ∀ scalar, .scalar scalar ∈ schema.types → scalar.NullFree
  enum : ∀ enum, .enum enum ∈ schema.types → ∀ choice ∈ enum.values.items,
    choice.internal.isNull = false

/-- No field has two arguments of one name, and no input object two fields. -/
structure Distinct (schema : Schema) : Prop where
  arguments : ∀ type ∈ schema.types, ∀ fields, type.fields? = some fields → ∀ field ∈ fields.items,
    field.arguments.names.Nodup
  inputs : ∀ input, .inputObject input ∈ schema.types → input.fields.names.Nodup

/-- The defaults of arguments and input fields fit their types. -/
structure FittingDefaults (schema : Schema) : Prop where
  arguments : ∀ type ∈ schema.types, ∀ fields, type.fields? = some fields → ∀ field ∈ fields.items,
    ∀ argument ∈ field.arguments.items, ∀ value, argument.default = some value →
    Fits schema argument.type value
  inputs : ∀ input, .inputObject input ∈ schema.types → ∀ field ∈ input.fields.items,
    ∀ value, field.default = some value → Fits schema field.type value

/-- What a schema has to provide for inputs to fit. -/
structure ReadsFitting (schema : Schema) : Prop where
  nulls : schema.NullFree
  names : schema.Distinct
  defaults : schema.FittingDefaults

end Schema

/-- What a declared value is: one that fits its type, or none where that may be. -/
def Supplied (schema : Schema) (declared : InputValue) : Option Value → Prop
  | none => declared.type.isNonNull = false ∧ declared.default = none
  | some value => Fits schema declared.type value

/-- The item type of a list type, within any non-null wrappers. -/
def TypeRef.element? : TypeRef → Option TypeRef
  | list item => some item
  | nonNull type => type.element?
  | named _ => none

theorem TypeRef.element_innermost {type item : TypeRef} (element : type.element? = some item) :
    item.innermost = type.innermost := by
  induction type with
  | named _ => cases element
  | list _ =>
    cases element
    rfl
  | nonNull type ih => exact ih element

section Parts
variable {schema : Schema}

theorem eq_null_of_isNull {value : Value} (null : value.isNull = true) : value = .null := by
  cases value with
  | null => rfl
  | _ => cases null

/-- An object is admitted if its entries are admitted at its declared fields, and no field that may
not be null is left out. -/
theorem object_admitted {takes : TypeDef → Value → Prop} {name : String} {input : InputObjectType}
    {entries : Entries Value} (known : schema.type? name = some (.inputObject input))
    (distinct : input.fields.names.Nodup)
    (each : ∀ key value, (key, value) ∈ entries → ∃ declared ∈ input.fields.items,
      declared.name = key ∧ Admits schema takes declared.type value)
    (all : ∀ declared ∈ input.fields.items, declared.type.isNonNull = true →
      ∃ value, (declared.name, value) ∈ entries) :
    Admits schema takes (.named name) (.object entries) := by
  refine .object known (fun key member => ?_) (fun declared inside value member => ?_)
    fun declared inside nonNull => ?_
  · obtain ⟨⟨_, value⟩, entry, rfl⟩ := List.mem_map.1 member
    obtain ⟨declared, inside, same, -⟩ := each _ value entry
    exact List.any_eq_true.2 ⟨declared, inside, by simpa [Named.name] using same⟩
  · obtain ⟨other, among, same, admits⟩ := each _ value member
    rwa [← List.inj_on_of_nodup_map distinct among inside same]
  · obtain ⟨value, present⟩ := all declared inside nonNull
    exact List.mem_map.2 ⟨_, present, rfl⟩

end Parts

theorem internal_choice {enum : EnumType} {name : String} {value : Value}
    (found : enum.internal? name = some value) : ∃ choice ∈ enum.values.items,
      choice.internal = value := by
  obtain ⟨choice, here, same⟩ := Option.map_eq_some_iff.1 found
  exact ⟨choice, List.mem_of_find?_eq_some here, same⟩

theorem parseValue_choice {enum : EnumType} {given value : Value}
    (parsed : enum.parseValue given = some value) : ∃ choice ∈ enum.values.items,
      choice.internal = value := by
  rw [EnumType.parseValue.eq_def] at parsed
  split at parsed
  · exact internal_choice parsed
  · exact internal_choice parsed
  · cases parsed

theorem except_map_ok {ε α β : Type} {f : α → β} {first : Except ε α} {result : β}
    (mapped : first.map f = .ok result) : ∃ value, first = .ok value ∧ f value = result := by
  cases first with
  | error _ => cases mapped
  | ok value => exact ⟨value, rfl, Except.ok.inj mapped⟩

namespace Coercion
variable {schema : Schema}

theorem ofField_ne_nil {fields : List (String × Input)}
    (telling : ∀ field ∈ fields, ∀ type, field.2 type ≠ .error []) (declared : InputValue) :
    ofField fields declared ≠ .error [] := by
  intro failed
  rw [ofField] at failed
  split at failed
  · rename_i given
    obtain ⟨⟨name, part⟩, found, rfl⟩ := Option.map_eq_some_iff.1 given
    have told : part declared.type ≠ .error [] :=
      telling _ (List.mem_of_find?_eq_some found) declared.type
    have failed : (part declared.type).map some = .error [] := failed
    cases here : part declared.type with
    | ok _ =>
      rw [here] at failed
      cases failed
    | error problems =>
      rw [here] at failed
      cases failed
      exact told here
  · split at failed
    · cases failed
    · split at failed <;> cases failed

theorem ofItems_ne_nil (results : List (Except Problems Value)) : ofItems results ≠ .error [] := by
  intro failed
  rw [ofItems] at failed
  split at failed
  · cases failed
  · rename_i some_
    rw [Except.error.injEq] at failed
    exact some_ (by rw [failed]; rfl)

theorem ofFields_ne_nil (fields : List (String × Input)) (input : InputObjectType) :
    ofFields fields input ≠ .error [] := by
  intro failed
  rw [ofFields] at failed
  dsimp only at failed
  split at failed
  · cases failed
  · rename_i some_
    rw [Except.error.injEq] at failed
    exact some_ (by rw [failed]; rfl)

/-- An input that has no value at a type has a problem there. -/
theorem ofLayer_ne_nil (schema : Schema) (value : Value) (layer : Layer Input) (type : TypeRef) :
    ofLayer schema value layer type ≠ .error [] := by
  induction type with
  | nonNull type ih =>
    rw [ofLayer]
    split
    · nofun
    · exact ih
  | list item ih =>
    rw [ofLayer.eq_def]
    dsimp only
    split
    · nofun
    · split
      · exact ofItems_ne_nil _
      · cases single : ofLayer schema value layer item with
        | ok _ => nofun
        | error problems =>
          intro failed
          cases failed
          exact ih single
  | named name =>
    rw [ofLayer]
    split
    · nofun
    · split
      · cases ScalarType.parseValue _ value <;> nofun
      · cases EnumType.parseValue _ value <;> nofun
      · split
        · exact ofFields_ne_nil _ _
        · nofun
      · nofun

end Coercion

end GraphQL
