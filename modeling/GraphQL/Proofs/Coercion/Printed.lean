import GraphQL.Execution.Introspection
import GraphQL.Proofs.Coercion.Problems
import GraphQL.Proofs.Coercion.Rewriting
import GraphQL.Proofs.Language.Lexemes
import GraphQL.Proofs.RoundTrip

/-! Values as they are printed. The literal of a value is read back from its text, unless an identity in
it is written as an integer with a zero in front of other digits. -/
namespace GraphQL
open Coercion (Place)

variable {schema : Schema} {limit : Nat} {type : TypeRef} {value : Value} {literal : Ast.Value}

namespace Lexis

/-- A zero in front of other digits. -/
def Padded (digits : List Char) : Prop := digits.head? = some '0' ∧ 1 < digits.length

instance : DecidablePred Padded := fun _ => inferInstanceAs (Decidable (_ ∧ _))

theorem IsInt.not_padded {digits : List Char} (int : IsInt digits) : ¬Padded digits := by
  rintro ⟨first, more⟩
  obtain ⟨sign, whole, signs, whole, rfl⟩ := int
  rcases signs with rfl | rfl
  · cases whole with
    | zero => exact absurd more (by decide)
    | other _ notZero _ => exact notZero (Option.some.inj first)
  · exact absurd (Option.some.inj first) (by decide)

theorem whole_of_digits {digits : List Char} (filled : digits ≠ [])
    (all : digits.all Decimal.isDigit = true) (plain : ¬Padded digits) : Whole digits := by
  have all := List.all_eq_true.1 all
  cases digits with
  | nil => contradiction
  | cons first rest =>
    by_cases zero : first = '0'
    · subst zero
      cases rest with
      | nil => exact .zero
      | cons next rest => exact absurd ⟨rfl, by simp⟩ plain
    · exact .other (all first List.mem_cons_self) zero fun d member => all d (List.mem_cons_of_mem _ member)

/-- What is printed of an integer is an integer of the language. -/
theorem isInt_toString (i : Int) : IsInt (toString i).toList := by
  have natural (n : Nat) : Whole (Nat.toDigits 10 n) := by
    refine whole_of_digits Nat.toDigits_ne_nil (Decimal.digits_natural n).1 ?_
    rintro ⟨first, more⟩
    rcases Nat.eq_zero_or_pos n with rfl | positive
    · exact absurd more (by decide)
    · exact Decimal.head_toDigits positive first
  rw [Decimal.toList_toString]
  split
  · exact ⟨[], _, .inl rfl, natural _, rfl⟩
  · exact ⟨['-'], _, .inr rfl, natural _, rfl⟩

end Lexis

open Lexis (IsInt IsName Padded whole_of_digits isInt_toString int_spelled_iff)

namespace Ast.Value

mutual

/-- The integers in a literal. -/
def ints : Value → List String
  | int text _ => [text]
  | list values _ => intsOfList values
  | object fields _ => intsOfFields fields
  | _ => []

def intsOfList : List Value → List String
  | [] => []
  | value :: rest => value.ints ++ intsOfList rest

def intsOfFields : List ObjectField → List String
  | [] => []
  | ⟨_, value, _⟩ :: rest => value.ints ++ intsOfFields rest

end

theorem mem_ints_list {values : List Value} {span : Option Span} {text : String} :
    text ∈ (list values span).ints ↔ ∃ value ∈ values, text ∈ value.ints := by
  rw [ints]
  induction values with
  | nil => simp [intsOfList]
  | cons value rest ih => simp [intsOfList, ih]

theorem mem_ints_object {fields : List ObjectField} {span : Option Span} {text : String} :
    text ∈ (object fields span).ints ↔ ∃ field ∈ fields, text ∈ field.value.ints := by
  rw [ints]
  induction fields with
  | nil => simp [intsOfFields]
  | cons field rest ih =>
    obtain ⟨name, value, span⟩ := field
    simp [intsOfFields, ih]

/-- No integer in the literal has a zero in front of other digits. -/
def Unpadded (literal : Value) : Prop := ∀ text ∈ literal.ints, ¬Padded text.toList

instance (literal : Value) : Decidable literal.Unpadded :=
  inferInstanceAs (Decidable (∀ text ∈ literal.ints, _))

end Ast.Value

/-- Nothing that can be read has such an integer in it. -/
theorem Parser.Readable.unpadded {isConst : Bool} (readable : Parser.Readable isConst limit literal) :
    literal.Unpadded := by
  induction readable with
  | int spelled =>
    intro text member
    obtain rfl := List.mem_singleton.1 member
    exact (int_spelled_iff.1 spelled).not_padded
  | float | string | var => exact fun _ member => absurd member List.not_mem_nil
  | @named _ text _ =>
    have none : (namedLiteral text none).ints = [] := by
      unfold namedLiteral
      split <;> rfl
    intro text member
    rw [none] at member
    cases member
  | list _ each =>
    intro text member
    obtain ⟨value, inside, member⟩ := Ast.Value.mem_ints_list.1 member
    exact each value inside text member
  | object _ _ _ each =>
    intro text member
    obtain ⟨field, inside, member⟩ := Ast.Value.mem_ints_object.1 member
    exact each field inside text member

namespace Value

mutual

/-- How deeply lists and objects are nested in a value. -/
def depth : Value → Nat
  | list values => depthOfList values + 1
  | object entries => depthOfEntries entries + 1
  | _ => 0

def depthOfList : List Value → Nat
  | [] => 0
  | value :: rest => max value.depth (depthOfList rest)

def depthOfEntries : List (String × Value) → Nat
  | [] => 0
  | (_, value) :: rest => max value.depth (depthOfEntries rest)

end

theorem depth_list {values : List Value} {bound : Nat} (shallow : (list values).depth ≤ bound + 1) :
    ∀ value ∈ values, value.depth ≤ bound := by
  rw [depth, Nat.add_le_add_iff_right] at shallow
  induction values with
  | nil => nofun
  | cons value rest ih =>
    rw [depthOfList, Nat.max_le] at shallow
    exact List.forall_mem_cons.2 ⟨shallow.1, ih shallow.2⟩

theorem depth_object {entries : Entries Value} {bound : Nat}
    (shallow : (object entries).depth ≤ bound + 1) : ∀ entry ∈ entries, entry.2.depth ≤ bound := by
  rw [depth, Nat.add_le_add_iff_right] at shallow
  induction entries with
  | nil => nofun
  | cons entry rest ih =>
    obtain ⟨_, value⟩ := entry
    rw [depthOfEntries, Nat.max_le] at shallow
    exact List.forall_mem_cons.2 ⟨shallow.1, ih shallow.2⟩

end Value

/-- Enum values and input fields are named in the language, enum values by words that are no other
literals, and no two fields of a type have the same name. -/
structure TypeDef.WellNamed (type : TypeDef) : Prop where
  choices : ∀ enum, type = .enum enum → ∀ choice ∈ enum.values.items,
    IsName choice.name.toList ∧ choice.name ∉ ["true", "false", "null"]
  fields : ∀ input, type = .inputObject input → ∀ declared ∈ input.fields.items,
    IsName declared.name.toList
  distinct : ∀ input, type = .inputObject input → input.fields.names.Nodup

/-- A literal of a value can be read, up to a depth, if it has no padded integer in it. The padded ones are
identities of the value. -/
structure Schema.Prints (schema : Schema) (limit : Nat) (type : TypeRef) (value : Value)
    (literal : Ast.Value) : Prop where
  readable : literal.Unpadded → Parser.Readable false limit literal
  padded : ∀ text ∈ literal.ints, Padded text.toList →
    ∃ path, Place schema type value path (.named "ID") (.string text)

section Prints

theorem prints_word (none : literal.ints = []) (readable : Parser.Readable false limit literal) :
    schema.Prints limit type value literal :=
  ⟨fun _ => readable, fun _ member => by rw [none] at member; cases member⟩

theorem prints_int {digits : String} (int : IsInt digits.toList) :
    schema.Prints limit type value (.int digits none) := by
  refine ⟨fun _ => .int (int_spelled_iff.2 int), fun text member padded => ?_⟩
  rw [List.mem_singleton.1 member] at padded
  exact absurd padded int.not_padded

theorem prints_null (written : schema.literalOf .null type = some literal) :
    schema.Prints limit type .null literal := by
  rw [literalOf_null] at written
  split at written
  · cases written
  · cases written
    have word : (Lexeme.name "null").Spelled := keyword_spelled rfl (by decide) (by decide)
    exact prints_word rfl (.named word)

/-- What is printed of a value at a type is printed at a type around it. -/
theorem Schema.Prints.outer {inner : TypeRef} (prints : schema.Prints limit inner value literal)
    (places : ∀ {path last part}, Place schema inner value path last part →
      Place schema type value path last part) : schema.Prints limit type value literal := by
  refine ⟨prints.readable, fun text member padded => ?_⟩
  obtain ⟨path, place⟩ := prints.padded text member padded
  exact ⟨path, places place⟩

theorem prints_list {values : List Value} {literals : List Ast.Value}
    (each : List.Forall₂ (schema.Prints limit type) values literals) :
    schema.Prints (limit + 1) (.list type) (.list values) (.list literals none) := by
  refine ⟨fun plain => .list fun literal member => ?_, fun text member padded => ?_⟩
  · obtain ⟨value, -, prints⟩ := forall₂_mem each.flip member
    exact prints.readable fun text inside =>
      plain text (Ast.Value.mem_ints_list.2 ⟨literal, member, inside⟩)
  · obtain ⟨literal, inside, member⟩ := Ast.Value.mem_ints_list.1 member
    obtain ⟨value, among, prints⟩ := forall₂_mem each.flip inside
    obtain ⟨path, place⟩ := prints.padded text member padded
    obtain ⟨index, here⟩ := List.mem_iff_getElem?.1 among
    exact ⟨_, .item here place⟩

theorem declaredFields_names (declared : List InputValue) (literals : InputValue → Option Ast.Value) :
    ((declaredFields declared literals).map fun field => field.name.text).Sublist
      (declared.map InputValue.name) := by
  have names : ((declaredFields declared literals).map fun field => field.name.text) =
      Entries.keys (declared.filterMap fun field => (literals field).map (field.name, ·)) := by
    rw [declaredFields, Entries.keys, List.map_filterMap, List.map_filterMap]
    refine List.filterMap_congr fun field _ => ?_
    cases literals field <;> rfl
  rw [names]
  exact keys_sublist literals declared

theorem prints_object {name : String} {input : InputObjectType}
    (known : schema.type? name = some (.inputObject input)) (named : (TypeDef.inputObject input).WellNamed)
    {entries : Entries Value} (each : ∀ declared ∈ input.fields.items, ∀ value literal,
      entries.get? declared.name = some value → schema.literalOf value declared.type = some literal →
        schema.Prints limit declared.type value literal)
    (written : schema.literalOf (.object entries) (.named name) = some literal) :
    schema.Prints (limit + 1) (.named name) (.object entries) literal := by
  rw [literalOf_object known] at written
  obtain rfl := Option.some.inj written
  -- What is written in a field is the literal of the value that the object has there.
  have field (field : Ast.ObjectField) (member : field ∈ declaredFields input.fields.items fun declared =>
      (entries.get? declared.name).bind fun value => schema.literalOf value declared.type) :
      ∃ declared ∈ input.fields.items, field.name = ⟨declared.name, none⟩ ∧ field.span = none ∧
        ∃ value, entries.get? declared.name = some value ∧
          schema.Prints limit declared.type value field.value := by
    obtain ⟨declared, inside, same⟩ := List.mem_filterMap.1 member
    obtain ⟨literal, found, rfl⟩ := Option.map_eq_some_iff.1 same
    obtain ⟨value, here, written⟩ := Option.bind_eq_some_iff.1 found
    exact ⟨declared, inside, rfl, rfl, value, here, each declared inside value literal here written⟩
  refine ⟨fun plain => .object (fun found member => ?_) ?_ fun found member => ?_,
    fun text member padded => ?_⟩
  · obtain ⟨declared, inside, name, span, -⟩ := field found member
    rw [name]
    exact ⟨⟨(named.fields input rfl declared inside).spelled, rfl⟩, span⟩
  · exact (declaredFields_names _ _).nodup (named.distinct input rfl)
  · obtain ⟨declared, inside, -, -, value, -, prints⟩ := field found member
    exact prints.readable fun text inside =>
      plain text (Ast.Value.mem_ints_object.2 ⟨found, member, inside⟩)
  · obtain ⟨found, inside, member⟩ := Ast.Value.mem_ints_object.1 member
    obtain ⟨declared, among, -, -, value, here, prints⟩ := field found inside
    obtain ⟨path, place⟩ := prints.padded text member padded
    exact ⟨_, .field known among here place⟩

theorem EnumType.serialize_choice {enum : EnumType} {answer : Value}
    (serialized : enum.serialize value = some answer) :
    ∃ choice ∈ enum.values.items, answer = .enum choice.name := by
  unfold EnumType.serialize at serialized
  split at serialized
  · rename_i choice found
    exact ⟨choice, List.mem_of_find?_eq_some found, (Option.some.inj serialized).symm⟩
  · split at serialized
    · split at serialized
      · rename_i name known
        obtain ⟨choice, inside, same⟩ := List.any_eq_true.1 known
        rw [← beq_iff_eq.1 same] at serialized
        exact ⟨choice, inside, (Option.some.inj serialized).symm⟩
      · cases serialized
    · cases serialized

/-- A word that is no other literal stands for an enum value. -/
theorem namedLiteral_enum {word : String} (other : word ∉ ["true", "false", "null"]) :
    Parser.namedLiteral word none = .enum word none := by
  simp only [List.mem_cons, List.not_mem_nil, or_false, not_or] at other
  obtain ⟨notTrue, notFalse, notNull⟩ := other
  unfold Parser.namedLiteral
  split
  · contradiction
  · contradiction
  · contradiction
  · rfl

theorem prints_enum {name : String} {enum : EnumType} (known : schema.type? name = some (.enum enum))
    (named : (TypeDef.enum enum).WellNamed) (solid : value.isNull = false)
    (written : schema.literalOf value (.named name) = some literal) :
    schema.Prints limit (.named name) value literal := by
  rw [literalOf_enum known solid] at written
  cases serialized : enum.serialize value with
  | none =>
    rw [serialized] at written
    cases written
  | some answer =>
    obtain ⟨choice, inside, rfl⟩ := EnumType.serialize_choice serialized
    rw [serialized] at written
    cases written
    obtain ⟨word, other⟩ := named.choices enum rfl choice inside
    refine prints_word rfl ?_
    rw [← namedLiteral_enum other]
    exact .named word.spelled

theorem elim_eq_ok {result : Option Value} {message : String} {answer : Value} :
    result.elim (Except.error message) Except.ok = .ok answer ↔ result = some answer := by
  cases result <;> simp

theorem int32?_answer {i : Int} {answer : Value} (found : ScalarType.int32? i = some answer) :
    answer = .int i := by
  unfold ScalarType.int32? at found
  split at found
  · exact (Option.some.inj found).symm
  · cases found

/-- What stands for an Int is an integer. -/
theorem serializeInt_answer {answer : Value} (solid : value.isNull = false)
    (serialized : ScalarType.serializeInt value = .ok answer) : ∃ i, answer = .int i := by
  have whole {x : Float} {message other : String}
      (found : (if ScalarType.isWhole x then (ScalarType.wholeInt32? x).elim (Except.error message) Except.ok
        else Except.error other) = .ok answer) : ∃ i, answer = .int i := by
    split at found
    · obtain ⟨i, -, here⟩ := Option.bind_eq_some_iff.1 (elim_eq_ok.1 found)
      exact ⟨i, int32?_answer here⟩
    · cases found
  cases value with
  | int i => exact ⟨i, int32?_answer (elim_eq_ok.1 serialized)⟩
  | float x => exact whole serialized
  | boolean truth => exact ⟨_, (Except.ok.inj serialized).symm⟩
  | string text =>
    cases number : ScalarType.numberIn? text with
    | none =>
      rw [ScalarType.serializeInt, number] at serialized
      cases serialized
    | some x =>
      rw [ScalarType.serializeInt, number] at serialized
      exact whole serialized
  | null => cases solid
  | _ => cases serialized

theorem serializeBoolean_answer {answer : Value} (solid : value.isNull = false)
    (serialized : ScalarType.serializeBoolean value = .ok answer) : ∃ truth, answer = .boolean truth := by
  cases value with
  | boolean | int | float => exact ⟨_, (Except.ok.inj serialized).symm⟩
  | null => cases solid
  | _ => cases serialized

theorem serializeString_answer {answer : Value} (solid : value.isNull = false)
    (serialized : ScalarType.serializeString value = .ok answer) : ∃ text, answer = .string text := by
  cases value with
  | string | enum | int | float | boolean => exact ⟨_, (Except.ok.inj serialized).symm⟩
  | null => cases solid
  | _ => cases serialized

/-- What stands for an identity is its text, or the digits of an integer. -/
theorem serializeId_answer {answer : Value} (solid : value.isNull = false)
    (serialized : ScalarType.serializeId value = .ok answer) :
    ∃ text, answer = .string text ∧ (value = .string text ∨ IsInt text.toList) := by
  cases value with
  | string text => exact ⟨text, (Except.ok.inj serialized).symm, .inl rfl⟩
  | int i => exact ⟨toString i, (Except.ok.inj serialized).symm, .inr (isInt_toString i)⟩
  | null => cases solid
  | _ => cases serialized

/-- Digits are written as an integer, other texts as strings. -/
theorem prints_identity {text : String} (source : value = .string text ∨ IsInt text.toList) :
    schema.Prints limit (.named "ID") value (ToLiteral.ofSerialized true (.string text)) := by
  cases digits : (true && !text.isEmpty && text.toList.all Decimal.isDigit) with
  | false =>
    have written : ToLiteral.ofSerialized true (.string text) = .string text none :=
      if_neg (Bool.eq_false_iff.1 digits)
    rw [written]
    exact prints_word rfl .string
  | true =>
    have written : ToLiteral.ofSerialized true (.string text) = .int text none := if_pos digits
    rw [written]
    rcases source with rfl | int
    · rw [Bool.true_and, Bool.and_eq_true] at digits
      obtain ⟨filled, all⟩ := digits
      have filled : text.toList ≠ [] := by simpa using filled
      refine ⟨fun plain => ?_, fun digits member _ => ?_⟩
      · have whole := whole_of_digits filled all (plain text (List.mem_singleton.2 rfl))
        exact .int (int_spelled_iff.2 ⟨[], _, .inl rfl, whole, rfl⟩)
      · obtain rfl := List.mem_singleton.1 member
        exact ⟨[], .here⟩
    · exact prints_int int

theorem prints_scalar {name : String} {scalar : ScalarType}
    (known : schema.type? name = some (.scalar scalar))
    (portable : scalar ∈ [ScalarType.int, ScalarType.string, ScalarType.boolean, ScalarType.id])
    (solid : value.isNull = false) (written : schema.literalOf value (.named name) = some literal) :
    schema.Prints limit (.named name) value literal := by
  have named : scalar.name = name := Schema.name_of_type? known
  rw [literalOf_scalar known solid] at written
  obtain ⟨answer, serialized, rfl⟩ := Option.map_eq_some_iff.1 written
  replace serialized : scalar.serialize value = .ok answer := by
    cases result : scalar.serialize value with
    | error _ =>
      rw [result] at serialized
      cases serialized
    | ok _ =>
      rw [result] at serialized
      rw [Option.some.inj serialized]
  simp only [List.mem_cons, List.not_mem_nil, or_false] at portable
  rcases portable with rfl | rfl | rfl | rfl <;> subst named
  · obtain ⟨i, rfl⟩ := serializeInt_answer solid serialized
    exact prints_int (isInt_toString i)
  · obtain ⟨text, rfl⟩ := serializeString_answer solid serialized
    exact prints_word rfl .string
  · obtain ⟨truth, rfl⟩ := serializeBoolean_answer solid serialized
    refine prints_word rfl ?_
    cases truth with
    | true =>
      have word : (Lexeme.name "true").Spelled := keyword_spelled rfl (by decide) (by decide)
      exact .named word
    | false =>
      have word : (Lexeme.name "false").Spelled := keyword_spelled rfl (by decide) (by decide)
      exact .named word
  · obtain ⟨text, rfl, source⟩ := serializeId_answer solid serialized
    exact prints_identity source

/-- Whatever literal a value has, at a type in which everything is well named, is printed. -/
def Schema.PrintsAll (schema : Schema) (value : Value) : Prop :=
  ∀ limit type literal, schema.Portable type → schema.Throughout TypeDef.WellNamed type →
    value.depth ≤ limit → schema.literalOf value type = some literal →
      schema.Prints limit type value literal

theorem prints_items {values : List Value} (parts : ∀ value ∈ values, schema.PrintsAll value)
    (portable : schema.Portable type) (named : schema.Throughout TypeDef.WellNamed type)
    (shallow : (Value.list values).depth ≤ limit)
    (written : schema.literalOf (.list values) (.list type) = some literal) :
    schema.Prints limit (.list type) (.list values) literal := by
  obtain ⟨limit, rfl⟩ := Nat.exists_eq_add_of_le' (Nat.le_of_add_left_le shallow)
  rw [literalOf_list] at written
  obtain ⟨literals, each, rfl⟩ := Option.map_eq_some_iff.1 written
  obtain ⟨same, each⟩ := List.forall₂_iff_zip.1 (LiteralValue.mapM_eq_some_iff.1 each)
  refine prints_list (List.forall₂_iff_zip.2 ⟨same, fun member => ?_⟩)
  have inside := (List.of_mem_zip member).1
  exact parts _ inside limit type _ portable named (Value.depth_list shallow _ inside) (each member)

theorem prints_fields {name : String} {input : InputObjectType}
    (known : schema.type? name = some (.inputObject input)) {entries : Entries Value}
    (parts : ∀ entry ∈ entries, schema.PrintsAll entry.2) (portable : schema.Portable (.named name))
    (named : schema.Throughout TypeDef.WellNamed (.named name))
    (shallow : (Value.object entries).depth ≤ limit)
    (written : schema.literalOf (.object entries) (.named name) = some literal) :
    schema.Prints limit (.named name) (.object entries) literal := by
  obtain ⟨limit, rfl⟩ := Nat.exists_eq_add_of_le' (Nat.le_of_add_left_le shallow)
  have here := named name _ .refl known
  refine prints_object known here (fun declared inside value literal given written => ?_) written
  have member := Entries.mem_of_get? given
  exact parts _ member limit declared.type literal (portable.field known inside)
    (named.field known inside) (Value.depth_object shallow _ member) written

theorem literalOf_prints (value : Value) : schema.PrintsAll value := by
  refine value.byParts fun value parts limit type literal portable named shallow written => ?_
  cases solid : value.isNull with
  | true =>
    obtain rfl : value = .null := by
      cases value with
      | null => rfl
      | _ => cases solid
    exact prints_null written
  | false =>
    induction type with
    | nonNull type ih =>
      rw [literalOf_nonNull solid] at written
      exact (ih portable named written).outer (.nonNull solid)
    | list item ih =>
      cases single : value.list? with
      | none =>
        rw [literalOf_single solid single] at written
        exact (ih portable named written).outer (.single solid single)
      | some values =>
        obtain rfl := Value.eq_list single
        exact prints_items parts portable named shallow written
    | named name =>
      obtain ⟨found, known, kind⟩ := portable name .refl
      have here := named name found .refl known
      cases found with
      | scalar scalar => exact prints_scalar known kind solid written
      | enum enum => exact prints_enum known here solid written
      | inputObject input =>
        cases entries : value.object? with
        | none =>
          rw [literalOf_notObject known solid entries] at written
          cases written
        | some entries =>
          obtain rfl := Value.eq_object entries
          exact prints_fields known (List.forall_mem_map.1 parts) portable named shallow written
      | _ => cases kind

end Prints

section Reports
open Execution

/-- A default is reported if there is one with a literal, as the text of its literal. -/
theorem defaultValue_text_iff {τ : Type} {input : InputValue} {text : String} :
    Introspection.ofInput schema input "defaultValue" = (Introspection.text text : FieldResult τ) ↔
      ∃ value literal, input.default = some value ∧ schema.literalOf value input.type = some literal ∧
        literal.text = text := by
  have report : Introspection.ofInput schema input "defaultValue" = (Introspection.optionalText
    ((input.default.bind fun value => schema.literalOf value input.type).map Ast.Value.text) :
      FieldResult τ) := rfl
  rw [report]
  cases written : input.default.bind fun value => schema.literalOf value input.type with
  | none =>
    constructor
    · nofun
    · rintro ⟨value, literal, default, found, -⟩
      rw [default, Option.bind_some, found] at written
      cases written
  | some literal =>
    obtain ⟨value, default, found⟩ := Option.bind_eq_some_iff.1 written
    constructor
    · intro same
      have same := Except.ok.inj same
      exact ⟨value, literal, default, found, Value.string.inj (FieldValue.value.inj same)⟩
    · rintro ⟨other, another, given, here, rfl⟩
      rw [given, Option.bind_some, here] at written
      cases written
      rfl

/-- The literal of a value is read back from its text exactly if no integer in it has a zero in front of
other digits. Those that have one are identities, as the value has them. The same goes for the text that
is reported of a default. -/
theorem literalOf_reread (τ : Type) (portable : schema.Portable type)
    (named : schema.Throughout TypeDef.WellNamed type) (title : String) :
    (∀ value literal, value.depth ≤ Parser.maxDepth → schema.literalOf value type = some literal →
      ((Source.mk literal.text title).parseValue false = .ok literal ↔ literal.Unpadded) ∧
      ∀ text ∈ literal.ints, Padded text.toList →
        ∃ path, Place schema type value path (.named "ID") (.string text)) ∧
    ∀ (input : InputValue) (text : String), input.type = type →
      (∀ value, input.default = some value → value.depth ≤ Parser.maxDepth) →
      Introspection.ofInput schema input "defaultValue" = (Introspection.text text : FieldResult τ) →
        ∃ value literal, input.default = some value ∧ schema.literalOf value type = some literal ∧
          ((Source.mk text title).parseValue false = .ok literal ↔ literal.Unpadded) := by
  have reread (value : Value) (literal : Ast.Value) (shallow : value.depth ≤ Parser.maxDepth)
      (written : schema.literalOf value type = some literal) :
      ((Source.mk literal.text title).parseValue false = .ok literal ↔ literal.Unpadded) ∧
        ∀ text ∈ literal.ints, Padded text.toList →
          ∃ path, Place schema type value path (.named "ID") (.string text) := by
    have prints := literalOf_prints value Parser.maxDepth type literal portable named shallow written
    refine ⟨?_, prints.padded⟩
    rw [parseValue_text_iff]
    exact ⟨Parser.Readable.unpadded, prints.readable⟩
  refine ⟨reread, ?_⟩
  rintro input text rfl shallow reported
  obtain ⟨value, literal, default, written, rfl⟩ := defaultValue_text_iff.1 reported
  exact ⟨value, literal, default, written, (reread value literal (shallow value default) written).1⟩

theorem filterSchema_wellNamed : filterSchema.Throughout TypeDef.WellNamed (.named "Filter") := by
  have fields : ∀ declared ∈ filterType.fields.items, IsName declared.name.toList := by decide
  have choices : ∀ choice ∈ colorType.values.items,
      IsName choice.name.toList ∧ choice.name ∉ ["true", "false", "null"] := by decide
  have distinct : filterType.fields.names.Nodup := by decide
  refine filterSchema_reached ⟨nofun, ?_, ?_⟩ ⟨?_, nofun, nofun⟩ fun _ => ⟨nofun, nofun, nofun⟩
  · rintro _ ⟨⟩
    exact fields
  · rintro _ ⟨⟩
    exact distinct
  · rintro _ ⟨⟩
    exact choices

theorem literalOf_reread_filter :
    filterSchema.Portable (.named "Filter") ∧
    filterSchema.Throughout TypeDef.WellNamed (.named "Filter") ∧
    filledFilter.depth ≤ Parser.maxDepth ∧
    Introspection.ofInput filterSchema
      { name := "filter", type := .named "Filter", default := some filledFilter } "defaultValue" =
        (Introspection.text "\x7bids: [7], color: RED, limit: 10\x7d" : FieldResult Unit) ∧
    ∃ literal, filterSchema.literalOf filledFilter (.named "Filter") = some literal ∧
      (Source.mk "\x7bids: [7], color: RED, limit: 10\x7d" "default").parseValue false = .ok literal := by
  have shallow : filledFilter.depth ≤ Parser.maxDepth := by decide
  have written : filterSchema.literalOf filledFilter (.named "Filter") = some (.object
      [⟨⟨"ids", none⟩, .list [.int "7" none] none, none⟩, ⟨⟨"color", none⟩, .enum "RED" none, none⟩,
        ⟨⟨"limit", none⟩, .int "10" none, none⟩] none) := by rfl
  obtain ⟨reread, -⟩ :=
    literalOf_reread Unit filterSchema_portable filterSchema_wellNamed "default"
  exact ⟨filterSchema_portable, filterSchema_wellNamed, shallow, by rfl, _, written,
    (reread filledFilter _ shallow written).1.2 (by decide)⟩

/-- An identity of digits with a zero in front is reported as an integer that cannot be read. -/
theorem identity_unread :
    filterSchema.Portable (.named "ID") ∧
    filterSchema.Throughout TypeDef.WellNamed (.named "ID") ∧
    (Value.string "007").depth ≤ Parser.maxDepth ∧
    filterSchema.literalOf (.string "007") (.named "ID") = some (.int "007" none) ∧
    Introspection.ofInput filterSchema
      { name := "id", type := .named "ID", default := some (.string "007") } "defaultValue" =
        (Introspection.text "007" : FieldResult Unit) ∧
    ∀ literal, (Source.mk "007" "default").parseValue false ≠ .ok literal := by
  have inside : { name := "ids", type := .nonNull (.list (.nonNull (.named "ID"))) } ∈
      filterType.fields.items := List.mem_cons_self
  have refused : ((Source.mk "007" "default").parseValue false).toOption.isNone = true := by
    decide +kernel
  refine ⟨filterSchema_portable.field rfl inside, filterSchema_wellNamed.field rfl inside, by decide,
    by rfl, by rfl, fun literal read => ?_⟩
  rw [read] at refused
  cases refused

end Reports

end GraphQL
