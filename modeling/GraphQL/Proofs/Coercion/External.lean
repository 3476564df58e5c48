import GraphQL.Proofs.Coercion.Admitted
import Mathlib.Logic.Relation

/-! Literals and the values that they spell. Written into a document, a value is read as it is
coerced when a variable has it. Only strings and enum names are told apart in one case and not in the
other. -/
namespace GraphQL

variable {schema : Schema}

namespace Ast.Value

mutual

/-- The value that is given for a variable instead of a literal. Integers have to be written as they
are printed and fields must not be repeated; variables and floating-point numbers have no such value. -/
def external? : Value → Option GraphQL.Value
  | var _ | float _ _ => none
  | int text _ => (Decimal.int64? text).bind fun i => if toString i = text then some (.int i) else none
  | string text _ => some (.string text)
  | boolean value _ => some (.boolean value)
  | null _ => some .null
  | enum name _ => some (.string name)
  | list literals _ => (externals? literals).map .list
  | object fields _ =>
      if (fields.map fun field => field.name.text).Nodup then (externalFields? fields).map .object
      else none

def externals? : List Value → Option (List GraphQL.Value)
  | [] => some []
  | literal :: rest => do
      let value ← literal.external?
      return value :: (← externals? rest)

def externalFields? : List ObjectField → Option (List (String × GraphQL.Value))
  | [] => some []
  | ⟨name, literal, _⟩ :: rest => do
      let value ← literal.external?
      return (name.text, value) :: (← externalFields? rest)

end

theorem externals?_eq_some {literals : List Value} {values : List GraphQL.Value}
    (spelled : externals? literals = some values) :
    List.Forall₂ (fun literal value => literal.external? = some value) literals values := by
  induction literals generalizing values with
  | nil =>
    cases spelled
    exact .nil
  | cons literal rest ih =>
    rw [externals?] at spelled
    obtain ⟨value, here, spelled⟩ := Option.bind_eq_some_iff.1 spelled
    obtain ⟨others, later, spelled⟩ := Option.bind_eq_some_iff.1 spelled
    cases spelled
    exact .cons here (ih later)

theorem externalFields?_eq_some {fields : List ObjectField} {entries : List (String × GraphQL.Value)}
    (spelled : externalFields? fields = some entries) :
    List.Forall₂ (fun field entry => entry.1 = field.name.text ∧ field.value.external? = some entry.2)
      fields entries := by
  induction fields generalizing entries with
  | nil =>
    cases spelled
    exact .nil
  | cons field rest ih =>
    obtain ⟨name, literal, span⟩ := field
    rw [externalFields?] at spelled
    obtain ⟨value, here, spelled⟩ := Option.bind_eq_some_iff.1 spelled
    obtain ⟨others, later, spelled⟩ := Option.bind_eq_some_iff.1 spelled
    cases spelled
    exact .cons ⟨rfl, here⟩ (ih later)

theorem external?_int {text : String} {span : Option Span} {given : GraphQL.Value}
    (spelled : (int text span).external? = some given) :
    ∃ i, Decimal.int64? text = some i ∧ toString i = text ∧ given = .int i := by
  obtain ⟨i, here, spelled⟩ := Option.bind_eq_some_iff.1 spelled
  split at spelled
  · rename_i canonical
    cases spelled
    exact ⟨i, here, canonical, rfl⟩
  · cases spelled

theorem external?_list {literals : List Value} {span : Option Span} {given : GraphQL.Value}
    (spelled : (list literals span).external? = some given) : ∃ values, given = .list values ∧
      List.Forall₂ (fun literal value => literal.external? = some value) literals values := by
  rw [external?] at spelled
  obtain ⟨values, each, rfl⟩ := Option.map_eq_some_iff.1 spelled
  exact ⟨values, rfl, externals?_eq_some each⟩

theorem external?_object {fields : List ObjectField} {span : Option Span} {given : GraphQL.Value}
    (spelled : (object fields span).external? = some given) : ∃ entries, given = .object entries ∧
      List.Forall₂ (fun field entry => entry.1 = field.name.text ∧ field.value.external? = some entry.2)
        fields entries := by
  rw [external?] at spelled
  split at spelled
  · obtain ⟨entries, each, rfl⟩ := Option.map_eq_some_iff.1 spelled
    exact ⟨entries, rfl, externalFields?_eq_some each⟩
  · cases spelled

theorem external?_ne_list {literal : Value} (single : ∀ literals span, literal ≠ list literals span)
    {values : List GraphQL.Value} : literal.external? ≠ some (.list values) := by
  intro spelled
  cases literal with
  | list literals span => exact single literals span rfl
  | int text span =>
    obtain ⟨i, -, -, same⟩ := external?_int spelled
    cases same
  | object fields span =>
    obtain ⟨entries, same, -⟩ := external?_object spelled
    cases same
  | _ => cases spelled

theorem external?_isNull {literal : Value} {given : GraphQL.Value}
    (spelled : literal.external? = some given) : given.isNull = LiteralValue.isNull literal := by
  cases literal with
  | var _ | float _ _ => cases spelled
  | string _ _ | boolean _ _ | null _ | enum _ _ =>
    cases spelled
    rfl
  | int text _ =>
    obtain ⟨i, -, -, rfl⟩ := external?_int spelled
    rfl
  | list literals _ =>
    obtain ⟨values, rfl, -⟩ := external?_list spelled
    rfl
  | object fields _ =>
    obtain ⟨entries, rfl, -⟩ := external?_object spelled
    rfl

end Ast.Value

/-- The names that a name leads to, through the fields of input objects. -/
def Schema.InputPath (schema : Schema) : String → String → Prop :=
  Relation.ReflTransGen fun outer inner => ∃ input, schema.type? outer = some (.inputObject input) ∧
    ∃ declared ∈ input.fields.items, declared.type.innermost = inner

/-- Integers, strings, truth values, identities, enums and input objects. -/
def TypeDef.IsPortable : TypeDef → Prop
  | .scalar type => type ∈ [ScalarType.int, ScalarType.string, ScalarType.boolean, ScalarType.id]
  | .enum _ | .inputObject _ => True
  | _ => False

/-- A type is built from such types, and so are the fields inside it. -/
def Schema.Portable (schema : Schema) (type : TypeRef) : Prop :=
  ∀ name, schema.InputPath type.innermost name → ∃ found, schema.type? name = some found ∧ found.IsPortable

namespace LiteralValue

/-- Where a literal can stand: enum names where enums are expected, and strings elsewhere. -/
def Suits (schema : Schema) (expected : TypeRef) : Ast.Value → Prop
  | .string _ _ => ∀ enum, schema.named? expected ≠ some (.enum enum)
  | .enum _ _ => ∃ enum, schema.named? expected = some (.enum enum)
  | _ => True

/-- Strings and enum names stand in a literal where they can. -/
def Proper (schema : Schema) (type : TypeRef) (literal : Ast.Value) : Prop :=
  ∀ expected found, Placed schema type literal expected found → Suits schema expected found

theorem Proper.part {type inner : TypeRef} {literal part : Ast.Value}
    (proper : Proper schema type literal) (stands : Part schema type literal inner part) :
    Proper schema inner part :=
  fun expected found placed => proper expected found (.inside stands placed)

theorem Part.portable {type inner : TypeRef} {literal part : Ast.Value}
    (stands : Part schema type literal inner part) (portable : schema.Portable type) :
    schema.Portable inner := by
  cases stands with
  | item element _ =>
    rw [Schema.Portable, TypeRef.element_innermost element]
    exact portable
  | field known inside _ _ =>
    exact fun name path => portable name (.head ⟨_, known, _, inside, rfl⟩ path)

end LiteralValue

namespace Coercion
open LiteralValue (Reading Part Suits Proper)

/-- What is read is what is coerced, and the other way around if all is proper. -/
def Agrees {α : Type} (proper : Prop) (read : Option α) (coerced : Except Problems α) : Prop :=
  ∀ value, (read = some value → coerced = .ok value) ∧
    (proper → coerced = .ok value → read = some value)

section Results
variable {α β : Type} {proper : Prop}

theorem Agrees.mono {more : Prop} {read : Option α} {coerced : Except Problems α}
    (agrees : Agrees proper read coerced) (implies : more → proper) : Agrees more read coerced :=
  fun value => ⟨(agrees value).1, fun holds => (agrees value).2 (implies holds)⟩

theorem Agrees.map {read : Option α} {coerced : Except Problems α} (agrees : Agrees proper read coerced)
    (f : α → β) : Agrees proper (read.map f) (coerced.map f) := by
  intro result
  constructor
  · intro found
    obtain ⟨value, here, rfl⟩ := Option.map_eq_some_iff.1 found
    rw [(agrees value).1 here]
    rfl
  · intro holds found
    obtain ⟨value, here, rfl⟩ := except_map_ok found
    rw [(agrees value).2 holds here]
    rfl

theorem Agrees.failed {problems : Problems} : Agrees (α := α) proper none (.error problems) := by
  intro value
  constructor
  · rintro ⟨⟩
  · rintro _ ⟨⟩

theorem Agrees.found {value : α} : Agrees proper (some value) (.ok value) := by
  intro other
  constructor
  · rintro ⟨⟩
    rfl
  · rintro _ ⟨⟩
    rfl

theorem Agrees.same {read parsed : Option α} {problems : Problems} (same : proper → read = parsed)
    (less : ∀ value, read = some value → parsed = some value) :
    Agrees proper read (parsed.elim (.error problems) .ok) := by
  intro value
  constructor
  · intro found
    rw [less value found]
    rfl
  · intro holds found
    rw [same holds]
    cases parsed with
    | none => cases found
    | some _ =>
      cases found
      rfl

/-- Lists agree if their items do. -/
theorem related_agree {α β γ : Type} {R : α → β → Prop} {S : α → γ → Prop} {T : β → γ → Prop}
    {literals : List α} {givens : List β} (links : List.Forall₂ R literals givens)
    (agree : ∀ literal ∈ literals, ∀ given, R literal given → ∀ value,
      (S literal value → T given value) ∧ (proper → T given value → S literal value))
    (values : List γ) : (List.Forall₂ S literals values → List.Forall₂ T givens values) ∧
      (proper → List.Forall₂ T givens values → List.Forall₂ S literals values) := by
  induction links generalizing values with
  | nil => simp
  | cons link _ ih =>
    obtain ⟨first, others⟩ := List.forall_mem_cons.1 agree
    constructor
    · rintro (_ | ⟨here, later⟩)
      exact .cons ((first _ link _).1 here) ((ih others _).1 later)
    · rintro holds (_ | ⟨here, later⟩)
      exact .cons ((first _ link _).2 holds here) ((ih others _).2 holds later)

theorem all_ok_iff {results : List (Except Problems Value)} :
    (∀ result ∈ results, ∃ item, result = .ok item) ↔ ∃ values : List Value, results = values.map .ok := by
  constructor
  · intro all
    induction results with
    | nil => exact ⟨[], rfl⟩
    | cons result rest ih =>
      obtain ⟨⟨item, rfl⟩, others⟩ := List.forall_mem_cons.1 all
      obtain ⟨values, rfl⟩ := ih others
      exact ⟨item :: values, rfl⟩
  · rintro ⟨values, rfl⟩
    exact List.forall_mem_map.2 fun item _ => ⟨item, rfl⟩

/-- There are no problems with items exactly if all of them have values. -/
theorem itemProblems_eq_nil_iff {results : List (Except Problems Value)}
    (telling : .error [] ∉ results) : (results.zipIdx.flatMap fun (result, index) =>
      match result with
      | .ok _ => []
      | .error problems => problems.map (inElement index)) = [] ↔
        ∃ values : List Value, results = values.map .ok := by
  rw [List.flatMap_eq_nil_iff, ← all_ok_iff]
  constructor
  · intro none result member
    obtain ⟨index, inside, rfl⟩ := List.mem_iff_getElem.1 member
    have here := none (results[index], index)
      (List.mk_mem_zipIdx_iff_getElem?.2 (List.getElem?_eq_getElem inside))
    cases found : results[index] with
    | ok item => exact ⟨item, rfl⟩
    | error problems =>
      rw [found] at here
      obtain rfl := List.map_eq_nil_iff.1 here
      exact absurd (found ▸ member) telling
  · rintro all ⟨result, index⟩ member
    obtain ⟨item, rfl⟩ := all result (List.fst_mem_of_mem_zipIdx member)
    rfl

/-- The list of the items' values exists if all of them have one. -/
theorem ofItems_eq_ok_iff {results : List (Except Problems Value)} (telling : .error [] ∉ results)
    {value : Value} : ofItems results = .ok value ↔
      ∃ values : List Value, results = values.map .ok ∧ value = .list values := by
  have silent := itemProblems_eq_nil_iff telling
  have kept (values : List Value) :
      (values.map (.ok : Value → Except Problems Value)).filterMap Except.toOption = values := by
    rw [List.filterMap_map]
    exact List.filterMap_some
  rw [ofItems]
  dsimp only
  split
  · rename_i empty
    obtain ⟨values, rfl⟩ := silent.1 (List.isEmpty_iff.1 empty)
    rw [kept]
    constructor
    · rintro ⟨⟩
      exact ⟨values, rfl, rfl⟩
    · rintro ⟨others, same, rfl⟩
      rw [List.map_injective_iff.2 (fun _ _ => Except.ok.inj) same]
  · rename_i problematic
    refine iff_of_false (fun same => by cases same) ?_
    rintro ⟨values, all, -⟩
    exact problematic (List.isEmpty_iff.2 (silent.2 ⟨values, all⟩))

/-- There are no problems with declared fields exactly if none of them fails. -/
theorem fieldProblems_eq_nil_iff {fields : List (String × Input)} {declared : List InputValue}
    (telling : ∀ field, ofField fields field ≠ .error []) :
    ((declared.map fun field => (field.name, ofField fields field)).flatMap fun (name, result) =>
      match result with
      | .ok _ => []
      | .error problems => problems.map (inField name)) = [] ↔
      ∀ field ∈ declared, ∃ found, ofField fields field = .ok found := by
  rw [List.flatMap_eq_nil_iff, List.forall_mem_map]
  refine forall₂_congr fun field _ => ?_
  cases here : ofField fields field with
  | ok found => simp
  | error problems =>
    have some : problems ≠ [] := fun none => telling field (none ▸ here)
    simp [some]

/-- The object of the declared fields exists if no other fields are given and none of the declared
ones fails. -/
theorem ofFields_eq_ok_iff {fields : List (String × Input)} {input : InputObjectType}
    (telling : ∀ declared, ofField fields declared ≠ .error []) {value : Value} :
    ofFields fields input = .ok value ↔
      (fields.all fun field => input.fields.contains field.1) = true ∧
      (∀ declared ∈ input.fields.items, ∃ found, ofField fields declared = .ok found) ∧
      value = .object (input.fields.items.filterMap fun declared =>
        (ofField fields declared).toOption.join.map fun value => (declared.name, value)) := by
  have unknown : ((fields.filter fun field => !input.fields.contains field.1).map fun field =>
      unknownField field.1) = [] ↔ (fields.all fun field => input.fields.contains field.1) = true := by
    simp [List.filter_eq_nil_iff, List.all_eq_true]
  have silent := @fieldProblems_eq_nil_iff fields input.fields.items telling
  rw [ofFields]
  dsimp only
  split <;> rename_i empty <;> rw [List.isEmpty_iff, List.append_eq_nil_iff] at empty
  · have fine := And.imp unknown.1 silent.1 empty
    rw [and_iff_right fine.1, and_iff_right fine.2, List.filterMap_map, Except.ok.injEq, eq_comm]
    rfl
  · refine iff_of_false (fun same => by cases same) fun holds => empty ?_
    exact ⟨unknown.2 holds.1, silent.2 holds.2.1⟩

end Results

end Coercion

namespace LiteralValue

/-- The entries of the declared fields exist if none of the fields fails. -/
theorem ofDeclared_eq_some_iff {fields : List (String × Reading)} {declared : List InputValue}
    {entries : Entries Value} : ofDeclared fields declared = some entries ↔
      (∀ field ∈ declared, ∃ found, ofField fields field = some found) ∧
      entries = declared.filterMap fun field =>
        (ofField fields field).join.map fun value => (field.name, value) := by
  induction declared generalizing entries with
  | nil => simp [ofDeclared, eq_comm]
  | cons first rest ih =>
    rw [ofDeclared, List.forall_mem_cons]
    cases here : ofField fields first with
    | none => simp
    | some found =>
      cases later : ofDeclared fields rest with
      | none =>
        have fails (all : ∀ field ∈ rest, ∃ found, ofField fields field = some found) : False := by
          have read := ih.2 ⟨all, rfl⟩
          rw [later] at read
          cases read
        exact iff_of_false (fun same => by cases same) fun holds => fails holds.1.2
      | some others =>
        obtain ⟨all, rfl⟩ := ih.1 later
        have same : (first :: rest).filterMap (fun field =>
            (ofField fields field).join.map fun value => (field.name, value)) =
            (found.toList.map fun value => (first.name, value)) ++ rest.filterMap fun field =>
              (ofField fields field).join.map fun value => (field.name, value) := by
          rw [List.filterMap_cons, here]
          cases found <;> rfl
        rw [same, and_iff_right ⟨⟨found, rfl⟩, all⟩, eq_comm]
        exact Option.some_inj

end LiteralValue

/-- The outermost layer of a value, with something for each part. -/
def Value.layer {α : Type} (f : Value → α) : Value → Layer α
  | list values => .list (values.map f)
  | object entries => .object (entries.map fun entry => (entry.1, f entry.2))
  | _ => .leaf

namespace Coercion
open LiteralValue (Reading Part Suits Proper isNull)

theorem ofValues_eq (values : List Value) : ofValues schema values = values.map (ofValue schema) := by
  induction values with
  | nil => rfl
  | cons value rest ih => rw [ofValues, ih, List.map_cons]

theorem ofEntries_eq (entries : List (String × Value)) :
    ofEntries schema entries = entries.map fun entry => (entry.1, ofValue schema entry.2) := by
  induction entries with
  | nil => rfl
  | cons entry rest ih =>
    obtain ⟨key, value⟩ := entry
    rw [ofEntries, ih, List.map_cons]

/-- A value is coerced layer by layer. -/
theorem ofValue_eq (given : Value) :
    ofValue schema given = ofLayer schema given (given.layer (ofValue schema)) := by
  cases given with
  | list values => rw [ofValue, ofValues_eq, Value.layer]
  | object entries => rw [ofValue, ofEntries_eq, Value.layer]
  | _ => rw [ofValue, Value.layer] <;> simp

theorem ofValue_ne_nil (given : Value) (type : TypeRef) : ofValue schema given type ≠ .error [] := by
  rw [ofValue_eq]
  exact ofLayer_ne_nil schema given _ type

section Parts
variable {proper : Prop}

theorem items_agree {item : TypeRef} {literals : List Ast.Value} {givens : List Value}
    (spelled : List.Forall₂ (fun literal given => literal.external? = some given) literals givens)
    (parts : ∀ literal ∈ literals, ∀ given, literal.external? = some given →
      Agrees proper (LiteralValue.ofLiteral schema [] literal item) (ofValue schema given item)) :
    Agrees proper ((literals.mapM fun literal => LiteralValue.ofLiteral schema [] literal item).map .list)
      (ofItems (givens.map fun given => ofValue schema given item)) := by
  have telling : .error [] ∉ givens.map fun given => ofValue schema given item := by
    intro member
    obtain ⟨given, -, failed⟩ := List.mem_map.1 member
    exact ofValue_ne_nil given item failed
  have coerced (values : List Value) :
      (givens.map fun given => ofValue schema given item) = values.map .ok ↔
        List.Forall₂ (fun given value => ofValue schema given item = .ok value) givens values := by
    rw [← List.forall₂_eq_eq_eq, List.forall₂_map_left_iff, List.forall₂_map_right_iff]
  have agree := related_agree spelled fun literal inside given spelled value =>
    parts literal inside given spelled value
  intro value
  rw [ofItems_eq_ok_iff telling, Option.map_eq_some_iff]
  constructor
  · rintro ⟨values, each, rfl⟩
    exact ⟨values, (coerced values).2 ((agree values).1 (LiteralValue.mapM_eq_some_iff.1 each)), rfl⟩
  · rintro holds ⟨values, each, rfl⟩
    exact ⟨values, LiteralValue.mapM_eq_some_iff.2 ((agree values).2 holds ((coerced values).1 each)), rfl⟩

section Fields
variable {fields : List Ast.ObjectField} {entries : List (String × Value)}
  (spelled : List.Forall₂ (fun field entry => entry.1 = field.name.text ∧
    field.value.external? = some entry.2) fields entries)
include spelled

/-- Fields are found under the names under which their values are. -/
theorem find?_spelled (name : String) :
    Option.Rel (fun field entry => field.value.external? = some entry.2)
      (fields.find? fun field => field.name.text == name) (entries.find? fun entry => entry.1 == name) := by
  induction spelled with
  | nil => exact .none
  | @cons field entry _ _ link _ ih =>
    rw [List.find?_cons, List.find?_cons, link.1]
    cases field.name.text == name with
    | true => exact .some link.2
    | false => exact ih

theorem names_spelled : entries.map Prod.fst = fields.map fun field => field.name.text := by
  induction spelled with
  | nil => rfl
  | cons link _ ih => rw [List.map_cons, List.map_cons, ih, link.1]

theorem ofField_agrees {declared : InputValue}
    (parts : ∀ field ∈ fields, field.name.text = declared.name → ∀ given,
      field.value.external? = some given → Agrees proper
        (LiteralValue.ofLiteral schema [] field.value declared.type) (ofValue schema given declared.type)) :
    Agrees proper
      (LiteralValue.ofField (fields.map fun field =>
        (field.name.text, LiteralValue.ofLiteral schema [] field.value)) declared)
      (ofField (entries.map fun entry => (entry.1, ofValue schema entry.2)) declared) := by
  have given : Layer.field? (entries.map fun entry => (entry.1, ofValue schema entry.2)) declared.name =
      (entries.find? fun entry => entry.1 == declared.name).map fun entry => ofValue schema entry.2 := by
    rw [Layer.field?, List.find?_map, Option.map_map]
    rfl
  rw [LiteralValue.ofField, ofField, Ast.Value.field?_map, given]
  have related := find?_spelled spelled declared.name
  cases here : fields.find? fun field => field.name.text == declared.name with
  | none =>
    rw [here] at related
    cases there : entries.find? fun entry => entry.1 == declared.name with
    | some entry =>
      rw [there] at related
      cases related
    | none =>
      cases declared.default with
      | some value => exact .found
      | none =>
        cases declared.type.isNonNull with
        | true => exact .failed
        | false => exact .found
  | some field =>
    rw [here] at related
    cases there : entries.find? fun entry => entry.1 == declared.name with
    | none =>
      rw [there] at related
      cases related
    | some entry =>
      rw [there] at related
      cases related with
      | some link =>
        have named : field.name.text = declared.name := beq_iff_eq.1 (List.find?_some here :)
        exact (parts field (List.mem_of_find?_eq_some here) named _ link).map some

theorem fields_agree {input : InputObjectType}
    (parts : ∀ declared ∈ input.fields.items, ∀ field ∈ fields, field.name.text = declared.name →
      ∀ given, field.value.external? = some given → Agrees proper
        (LiteralValue.ofLiteral schema [] field.value declared.type) (ofValue schema given declared.type)) :
    Agrees proper
      (if (fields.map fun field => (field.name.text, LiteralValue.ofLiteral schema [] field.value)).all
          fun field => input.fields.contains field.1 then
        (LiteralValue.ofDeclared (fields.map fun field =>
          (field.name.text, LiteralValue.ofLiteral schema [] field.value)) input.fields.items).map .object
      else none)
      (ofFields (entries.map fun entry => (entry.1, ofValue schema entry.2)) input) := by
  have telling (declared : InputValue) :
      ofField (entries.map fun entry => (entry.1, ofValue schema entry.2)) declared ≠ .error [] :=
    ofField_ne_nil (List.forall_mem_map.2 fun entry _ => ofValue_ne_nil entry.2) declared
  have names : ((entries.map fun entry => (entry.1, ofValue schema entry.2)).all
        fun field => input.fields.contains field.1) =
      (fields.map fun field => (field.name.text, LiteralValue.ofLiteral schema [] field.value)).all
        fun field => input.fields.contains field.1 := by
    have same := congrArg (List.all · input.fields.contains) (names_spelled spelled)
    simp only [List.all_map] at same ⊢
    exact same
  have agree (declared : InputValue) (inside : declared ∈ input.fields.items) :=
    ofField_agrees spelled (parts declared inside)
  intro value
  rw [ofFields_eq_ok_iff telling, names]
  constructor
  · intro read
    split at read
    · rename_i known
      obtain ⟨values, each, rfl⟩ := Option.map_eq_some_iff.1 read
      obtain ⟨all, rfl⟩ := LiteralValue.ofDeclared_eq_some_iff.1 each
      refine ⟨known, fun declared inside => ?_, ?_⟩
      · obtain ⟨found, here⟩ := all declared inside
        exact ⟨found, (agree declared inside found).1 here⟩
      · refine congrArg Value.object (List.filterMap_congr fun declared inside => ?_)
        obtain ⟨found, here⟩ := all declared inside
        rw [here, (agree declared inside found).1 here]
        rfl
    · cases read
  · rintro holds ⟨known, all, rfl⟩
    rw [if_pos known, Option.map_eq_some_iff]
    refine ⟨_, LiteralValue.ofDeclared_eq_some_iff.2 ⟨fun declared inside => ?_, rfl⟩, ?_⟩
    · obtain ⟨found, here⟩ := all declared inside
      exact ⟨found, (agree declared inside found).2 holds here⟩
    · refine congrArg Value.object (List.filterMap_congr fun declared inside => ?_)
      obtain ⟨found, here⟩ := all declared inside
      rw [here, (agree declared inside found).2 holds here]
      rfl

end Fields

section Leaves
variable {literal : Ast.Value} {given : Value} (spelled : literal.external? = some given)
  {type : TypeRef} (suits : proper → Suits schema type literal) {problems : Problems}
include spelled suits

/-- Scalars read literals as they read their values, but for the names of enum values, which are
strings among the values. -/
theorem scalar_agrees {scalar : ScalarType} (known : schema.named? type = some (.scalar scalar))
    (portable : scalar ∈ [ScalarType.int, ScalarType.string, ScalarType.boolean, ScalarType.id]) :
    Agrees proper (scalar.parseLiteral literal) ((scalar.parseValue given).elim (.error problems) .ok) := by
  have alike : (∃ name span, literal = .enum name span) ∨
      scalar.parseLiteral literal = scalar.parseValue given := by
    simp only [List.mem_cons, List.not_mem_nil, or_false] at portable
    cases literal with
    | enum name span => exact .inl ⟨name, span, rfl⟩
    | int text span =>
      obtain ⟨i, here, canonical, rfl⟩ := Ast.Value.external?_int spelled
      refine .inr ?_
      rcases portable with rfl | rfl | rfl | rfl
      · show Decimal.int64? text >>= _ = _
        rw [here]
        rfl
      · rfl
      · rfl
      · rw [← canonical]
        rfl
    | var _ | float _ _ => cases spelled
    | string _ _ | boolean _ _ | null _ =>
      cases spelled
      rcases portable with rfl | rfl | rfl | rfl <;> exact .inr rfl
    | list literals span =>
      obtain ⟨values, rfl, -⟩ := Ast.Value.external?_list spelled
      rcases portable with rfl | rfl | rfl | rfl <;> exact .inr rfl
    | object fields span =>
      obtain ⟨entries, rfl, -⟩ := Ast.Value.external?_object spelled
      rcases portable with rfl | rfl | rfl | rfl <;> exact .inr rfl
  rcases alike with ⟨name, span, rfl⟩ | alike
  · have unread : scalar.parseLiteral (.enum name span) = none := by
      simp only [List.mem_cons, List.not_mem_nil, or_false] at portable
      rcases portable with rfl | rfl | rfl | rfl <;> rfl
    rw [unread]
    refine .same (fun holds => ?_) fun value read => by cases read
    obtain ⟨enum, other⟩ := suits holds
    rw [known] at other
    cases other
  · exact .same (fun _ => alike) fun value read => alike ▸ read

/-- Enums read names as they read their values, but among the values they read strings as well. -/
theorem enum_agrees {enum : EnumType} (known : schema.named? type = some (.enum enum)) :
    Agrees proper (enum.parseLiteral literal) ((enum.parseValue given).elim (.error problems) .ok) := by
  cases literal with
  | enum name span =>
    cases spelled
    exact .same (fun _ => rfl) fun _ read => read
  | string text span => exact .same (fun holds => absurd known (suits holds enum)) fun value read => by cases read
  | int text span =>
    obtain ⟨i, -, -, rfl⟩ := Ast.Value.external?_int spelled
    exact .failed
  | var _ | float _ _ => cases spelled
  | boolean _ _ | null _ =>
    cases spelled
    exact .failed
  | list literals span =>
    obtain ⟨values, rfl, -⟩ := Ast.Value.external?_list spelled
    exact .failed
  | object fields span =>
    obtain ⟨entries, rfl, -⟩ := Ast.Value.external?_object spelled
    exact .failed

end Leaves

/-- Both fail alike where an object is expected and something else is there. -/
theorem notObject_agrees {literal : Ast.Value} {given : Value}
    (spelled : literal.external? = some given) (other : ∀ fields span, literal ≠ .object fields span)
    {input : InputObjectType} {problems : Problems} :
    Agrees proper
      (match literal.layer (LiteralValue.ofLiteral schema []) with
        | .object fields =>
            if fields.all fun field => input.fields.contains field.1 then
              (LiteralValue.ofDeclared fields input.fields.items).map Value.object
            else none
        | _ => none)
      (match given.layer (ofValue schema) with
        | .object fields => ofFields fields input
        | _ => .error problems) := by
  cases literal with
  | object fields span => exact absurd rfl (other fields span)
  | int text span =>
    obtain ⟨i, -, -, rfl⟩ := Ast.Value.external?_int spelled
    exact .failed
  | list literals span =>
    obtain ⟨values, rfl, -⟩ := Ast.Value.external?_list spelled
    exact .failed
  | _ =>
    cases spelled <;> exact .failed

/-- Null is coerced to null, where it may stand. -/
theorem ofLayer_null {layer : Layer Input} (type : TypeRef) : ofLayer schema .null layer type =
    if type.isNonNull then .error [foundNull type] else .ok .null := by
  cases type <;> rw [ofLayer.eq_def] <;> rfl

/-- What is read of a literal other than null is what is coerced of its value, if that is so for its
parts. -/
theorem ofLayer_agrees {literal : Ast.Value} {given : Value} (spelled : literal.external? = some given)
    (solid : isNull literal = false) {type : TypeRef} (portable : schema.Portable type)
    (suits : proper → Suits schema type literal)
    (parts : ∀ inner part, Part schema type literal inner part → ∀ given, part.external? = some given →
      Agrees proper (LiteralValue.ofLiteral schema [] part inner) (ofValue schema given inner)) :
    Agrees proper
      (LiteralValue.ofLayer schema literal (literal.layer (LiteralValue.ofLiteral schema [])) type)
      (ofLayer schema given (given.layer (ofValue schema)) type) := by
  have full : ¬isNull literal = true := Bool.eq_false_iff.1 solid
  have given_full : ¬given.isNull = true := by rwa [Ast.Value.external?_isNull spelled]
  induction type with
  | nonNull type ih =>
    rw [LiteralValue.ofLayer, ofLayer, if_neg full, if_neg given_full]
    exact ih portable suits fun inner part stands => parts inner part stands.nonNull
  | list item ih =>
    rw [LiteralValue.ofLayer.eq_def, ofLayer.eq_def]
    dsimp only
    rw [if_neg full, if_neg given_full]
    by_cases several : ∃ literals span, literal = .list literals span
    · obtain ⟨literals, span, rfl⟩ := several
      obtain ⟨values, rfl, each⟩ := Ast.Value.external?_list spelled
      have agree := items_agree each fun part inside => parts item part (.item rfl inside)
      simpa only [Ast.Value.layer, Value.layer, List.mapM_map, List.map_map, Function.comp_def] using agree
    · have single : ∀ literals span, literal ≠ .list literals span :=
        fun literals span same => several ⟨literals, span, same⟩
      have agree := (ih portable suits fun inner part stands =>
        parts inner part (stands.single single)).map fun only => Value.list [only]
      split
      · rename_i here
        cases literal with
        | list literals span => exact absurd rfl (single literals span)
        | _ => cases here
      · split
        · rename_i here
          cases given with
          | list values => exact absurd spelled (Ast.Value.external?_ne_list single)
          | _ => cases here
        · exact agree
  | named name =>
    rw [LiteralValue.ofLayer, ofLayer, if_neg full, if_neg given_full]
    dsimp only
    obtain ⟨found, known, kind⟩ := portable name .refl
    rw [known]
    cases found with
    | scalar scalar => exact scalar_agrees spelled suits known kind
    | enum enum => exact enum_agrees spelled suits known
    | inputObject input =>
      cases literal with
      | object fields span =>
        obtain ⟨entries, rfl, each⟩ := Ast.Value.external?_object spelled
        exact fields_agree each fun declared inside field member named =>
          parts declared.type field.value (.field known inside member named)
      | _ => exact notObject_agrees spelled (by simp)
    | _ => cases kind

/-- What is read of a literal is what is coerced of its value. -/
theorem ofLiteral_agrees (literal : Ast.Value) : ∀ type given, schema.Portable type →
    literal.external? = some given → Agrees (Proper schema type literal)
      (LiteralValue.ofLiteral schema [] literal type) (ofValue schema given type) := by
  refine literal.byParts (motive := fun literal => ∀ type given, schema.Portable type →
    literal.external? = some given → Agrees (Proper schema type literal)
      (LiteralValue.ofLiteral schema [] literal type) (ofValue schema given type)) ?_
  intro literal ih type given portable spelled
  have written : ∀ target, literal ≠ .var target := by
    rintro target rfl
    cases spelled
  rw [LiteralValue.ofLiteral_eq schema [] written, ofValue_eq]
  cases null : isNull literal with
  | true =>
    have nothing : given = .null := eq_null_of_isNull (by rwa [Ast.Value.external?_isNull spelled])
    rw [LiteralValue.ofLayer_null null, nothing, ofLayer_null]
    cases type.isNonNull with
    | true => exact .failed
    | false => exact .found
  | false =>
    refine ofLayer_agrees spelled null portable (fun proper => proper type literal .whole) ?_
    intro inner part stands given spelled
    exact (ih part stands.mem inner given (stands.portable portable) spelled).mono
      fun proper => proper.part stands

end Parts

end Coercion

/-- A value that is written as a literal is read as it is coerced when it is given for a variable;
the other way around, if strings and the names of enum values do not take each other's places. -/
theorem literalValue_coerce {type : TypeRef} (portable : schema.Portable type) {literal : Ast.Value}
    {given : Value} (spelled : literal.external? = some given) (value : Value) :
    (schema.literalValue [] literal type = some value → schema.coerce given type = .ok value) ∧
    (LiteralValue.Proper schema type literal → schema.coerce given type = .ok value →
      schema.literalValue [] literal type = some value) :=
  Coercion.ofLiteral_agrees literal type given portable spelled value

section Filters

/-- Red things of one identity, which stands for a list of identities. -/
def spelledFilter : Ast.Value :=
  .object [⟨⟨"ids", none⟩, .int "7" none, none⟩, ⟨⟨"color", none⟩, .enum "RED" none, none⟩] none

/-- The names that filters lead to. -/
theorem filterSchema_path {name : String} (path : filterSchema.InputPath "Filter" name) :
    name ∈ ["Filter", "ID", "Color", "Int"] := by
  induction path with
  | refl => exact List.mem_cons_self
  | tail _ step _ =>
    obtain ⟨input, known, declared, inside, rfl⟩ := step
    have named := filterSchema_input (Schema.mem_of_type? known)
    rw [named] at inside
    have each : ∀ declared ∈ filterType.fields.items,
        declared.type.innermost ∈ ["Filter", "ID", "Color", "Int"] := by decide
    exact each declared inside

theorem filterSchema_portable : filterSchema.Portable (.named "Filter") := by
  intro name path
  have among := filterSchema_path path
  simp only [List.mem_cons, List.not_mem_nil, or_false] at among
  rcases among with rfl | rfl | rfl | rfl
  · exact ⟨.inputObject filterType, rfl, trivial⟩
  · exact ⟨.scalar .id, rfl, by simp [TypeDef.IsPortable]⟩
  · exact ⟨.enum colorType, rfl, trivial⟩
  · exact ⟨.scalar .int, rfl, by simp [TypeDef.IsPortable]⟩

theorem spelledFilter_proper : LiteralValue.Proper filterSchema (.named "Filter") spelledFilter := by
  intro expected found placed
  cases placed with
  | whole => trivial
  | inside stands rest =>
    cases stands with
    | @field input declared _ _ field known inside member named =>
      have same : filterType = input := TypeDef.inputObject.inj (Option.some.inj known)
      subst same
      rcases List.mem_cons.1 member with rfl | member
      · cases rest with
        | whole => trivial
        | inside stands _ => cases stands
      · obtain rfl := List.mem_singleton.1 member
        cases rest with
        | whole =>
          simp only [filterType, List.mem_cons, List.not_mem_nil, or_false] at inside
          rcases inside with rfl | rfl | rfl | rfl
          · exact absurd named (by decide)
          · exact ⟨colorType, rfl⟩
          · exact absurd named (by decide)
          · exact absurd named (by decide)
        | inside stands _ => cases stands

theorem spelledFilter_coerced :
    filterSchema.Portable (.named "Filter") ∧
    spelledFilter.external? = some (.object [("ids", .int 7), ("color", .string "RED")]) ∧
    LiteralValue.Proper filterSchema (.named "Filter") spelledFilter ∧
    filterSchema.coerce (.object [("ids", .int 7), ("color", .string "RED")]) (.named "Filter") =
      .ok (.object [("ids", .list [.string "7"]), ("color", .int 1), ("limit", .int 10)]) ∧
    filterSchema.literalValue [] spelledFilter (.named "Filter") =
      some (.object [("ids", .list [.string "7"]), ("color", .int 1), ("limit", .int 10)]) := by
  have spelled : spelledFilter.external? =
      some (.object [("ids", .int 7), ("color", .string "RED")]) := by rfl
  have read : filterSchema.literalValue [] spelledFilter (.named "Filter") =
      some (.object [("ids", .list [.string "7"]), ("color", .int 1), ("limit", .int 10)]) := by rfl
  obtain ⟨coerced, back⟩ := literalValue_coerce filterSchema_portable spelled
    (.object [("ids", .list [.string "7"]), ("color", .int 1), ("limit", .int 10)])
  exact ⟨filterSchema_portable, spelled, spelledFilter_proper, coerced read,
    back spelledFilter_proper (coerced read)⟩

end Filters

end GraphQL
