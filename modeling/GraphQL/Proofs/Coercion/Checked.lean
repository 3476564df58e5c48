import GraphQL.Proofs.Coercion.Admitted

/-! The static check of literals and their conversion. A literal with which nothing is wrong is one
that has a value, if its variables have values where null may not stand. -/
namespace GraphQL

variable {schema : Schema} {bindings : Entries Value}

/-- A type reference names a type of inputs. -/
def Schema.AcceptsInput (schema : Schema) (type : TypeRef) : Prop :=
  ∃ found, schema.named? type = some found ∧ found.isInput = true

namespace LiteralValue

/-- Where null may not stand, the variables in a literal have values other than null. -/
def Bound (schema : Schema) (bindings : Entries Value) (type : TypeRef) (literal : Ast.Value) : Prop :=
  ∀ expected target, Placed schema type literal expected (.var target) → expected.isNonNull = true →
    ∃ value, bindings.get? target.name.text = some value ∧ value.isNull = false

theorem Bound.part {type inner : TypeRef} {literal part : Ast.Value}
    (bound : Bound schema bindings type literal) (stands : Part schema type literal inner part) :
    Bound schema bindings inner part :=
  fun expected target placed => bound expected target (.inside stands placed)

/-- The parts of a literal that is read as an input are read as inputs. -/
theorem Part.acceptsInput (built : schema.Built) {type inner : TypeRef} {literal part : Ast.Value}
    (stands : Part schema type literal inner part) (accepts : schema.AcceptsInput type) :
    schema.AcceptsInput inner := by
  cases stands with
  | item element _ =>
    obtain ⟨found, known, input⟩ := accepts
    exact ⟨found, by rwa [Schema.named?, TypeRef.element_innermost element], input⟩
  | field known inside _ _ => exact built.inputField_input (Schema.mem_of_type? known) inside

section Parts

theorem isSome_ofVariable {name : String} {type : TypeRef} :
    (ofVariable bindings name type).isSome = true ↔
      (type.isNonNull = true → ∃ value, bindings.get? name = some value ∧ value.isNull = false) := by
  rw [ofVariable]
  cases bindings.get? name with
  | none => cases nonNull : type.isNonNull <;> simp [Value.isNull]
  | some value => cases nonNull : type.isNonNull <;> cases null : value.isNull <;> simp [null]

theorem isSome_mapM {α β : Type} {f : α → Option β} {items : List α} :
    (items.mapM f).isSome = true ↔ ∀ item ∈ items, (f item).isSome = true := by
  induction items with
  | nil => simp
  | cons item rest ih =>
    rw [List.forall_mem_cons, ← ih, List.mapM_cons]
    cases f item with
    | none => simp
    | some _ => cases rest.mapM f <;> simp

/-- The declared fields of an object have values together if each of them has one. -/
theorem isSome_ofDeclared {fields : List (String × Reading)} {declared : List InputValue} :
    (ofDeclared fields declared).isSome = true ↔
      ∀ field ∈ declared, (ofField fields field).isSome = true := by
  induction declared with
  | nil => simp [ofDeclared]
  | cons field rest ih =>
    rw [List.forall_mem_cons, ← ih, ofDeclared]
    cases ofField fields field with
    | none => simp
    | some _ => cases ofDeclared fields rest <;> simp

end Parts

end LiteralValue

namespace Conformance
open LiteralValue (Part Placed Bound isNull)
open Coercion (inElement)

/-- Nothing is wrong with a literal exactly if it has a value. -/
def Agrees (schema : Schema) (bindings : Entries Value) (type : TypeRef) (literal : Ast.Value) : Prop :=
  ofLiteral schema literal type = [] ↔
    (LiteralValue.ofLiteral schema bindings literal type).isSome = true

section Parts

theorem items_eq_nil_iff {checks : List Check} {item : TypeRef} :
    (checks.zipIdx.flatMap fun (check, index) => (check item).map (inElement index)) = [] ↔
      ∀ check ∈ checks, check item = [] := by
  simp only [List.flatMap_eq_nil_iff, List.map_eq_nil_iff, Prod.forall]
  constructor
  · intro silent check member
    obtain ⟨index, inside, rfl⟩ := List.mem_iff_getElem.1 member
    exact silent _ index (List.mk_mem_zipIdx_iff_getElem?.2 (List.getElem?_eq_getElem inside))
  · intro silent check index member
    exact silent check (List.mem_of_getElem? (List.mk_mem_zipIdx_iff_getElem?.1 member))

/-- Nothing is wrong with the fields of an object that are declared and have nothing wrong each. -/
theorem ofFields_eq_nil_iff {fields : List (String × Check)} {input : InputObjectType} :
    ofFields fields input = [] ↔ (fields.all fun field => input.fields.contains field.1) = true ∧
      ∀ declared ∈ input.fields.items, ofField fields declared = [] := by
  rw [ofFields, List.append_eq_nil_iff, List.map_eq_nil_iff, List.flatMap_eq_nil_iff]
  simp [List.filter_eq_nil_iff, List.all_eq_true]

/-- The check of a declared field agrees with its reading, if it does for what is written there. -/
theorem ofField_agrees {declared : InputValue} {fields : List Ast.ObjectField}
    (parts : ∀ field ∈ fields, field.name.text = declared.name →
      Agrees schema bindings declared.type field.value) :
    ofField (fields.map fun field => (field.name.text, ofLiteral schema field.value)) declared = [] ↔
      (LiteralValue.ofField (fields.map fun field =>
        (field.name.text, LiteralValue.ofLiteral schema bindings field.value)) declared).isSome = true := by
  rw [ofField, LiteralValue.ofField, Ast.Value.field?_map, Ast.Value.field?_map]
  cases found : fields.find? fun field => field.name.text == declared.name with
  | none =>
    cases declared.default <;> cases declared.type.isNonNull <;> simp
  | some field =>
    have named : field.name.text = declared.name := beq_iff_eq.1 (List.find?_some found :)
    rw [Option.map_some, Option.map_some, Option.isSome_map]
    exact parts field (List.mem_of_find?_eq_some found) named

end Parts

/-- Null is accepted where it may stand, and read as null there. -/
theorem ofLayer_null_agrees {literal : Ast.Value} (null : isNull literal = true) (checks : Layer Check)
    (readings : Layer LiteralValue.Reading) (type : TypeRef) :
    ofLayer schema literal checks type = [] ↔
      (LiteralValue.ofLayer schema literal readings type).isSome = true := by
  rw [LiteralValue.ofLayer_null null]
  cases type <;> rw [ofLayer.eq_def] <;> simp [null, TypeRef.isNonNull]

/-- The check of a literal other than null agrees with its reading, if it does for its parts. -/
theorem ofLayer_agrees {literal : Ast.Value} (solid : isNull literal = false) {type : TypeRef}
    (accepts : schema.AcceptsInput type)
    (parts : ∀ inner part, Part schema type literal inner part → Agrees schema bindings inner part) :
    ofLayer schema literal (literal.layer (ofLiteral schema)) type = [] ↔
      (LiteralValue.ofLayer schema literal
        (literal.layer (LiteralValue.ofLiteral schema bindings)) type).isSome = true := by
  have full : ¬isNull literal = true := Bool.eq_false_iff.1 solid
  induction type with
  | nonNull type ih =>
    rw [ofLayer, LiteralValue.ofLayer, if_neg full, if_neg full]
    exact ih accepts fun inner part stands => parts inner part stands.nonNull
  | list item ih =>
    rw [ofLayer.eq_def, LiteralValue.ofLayer.eq_def]
    dsimp only
    rw [if_neg full, if_neg full]
    cases literal with
    | list literals span =>
      rw [Ast.Value.layer, Ast.Value.layer]
      dsimp only
      rw [items_eq_nil_iff, Option.isSome_map, LiteralValue.isSome_mapM, List.forall_mem_map,
        List.forall_mem_map]
      exact forall₂_congr fun part inside => parts item part (.item rfl inside)
    | _ =>
      have single := ih accepts fun inner part stands => parts inner part (stands.single (by simp))
      simpa only [Ast.Value.layer, Option.isSome_map] using single
  | named name =>
    obtain ⟨found, known, input⟩ := accepts
    rw [ofLayer, LiteralValue.ofLayer, if_neg full, if_neg full]
    have known : schema.type? name = some found := known
    rw [known]
    cases found with
    | scalar scalar => simp [Option.isSome_iff_ne_none]
    | enum enum => simp [Option.isSome_iff_ne_none]
    | inputObject input =>
      cases literal with
      | object fields span =>
        dsimp only [Ast.Value.layer]
        rw [ofFields_eq_nil_iff]
        simp only [List.all_map, Function.comp_def]
        split
        · rename_i declared
          rw [Option.isSome_map, LiteralValue.isSome_ofDeclared, and_iff_right declared]
          refine forall₂_congr fun field inside => ofField_agrees fun part among named => ?_
          exact parts field.type part.value (.field known inside among named)
        · rename_i undeclared
          exact iff_of_false (fun silent => undeclared silent.1) Bool.false_ne_true
      | _ => simp [Ast.Value.layer]
    | _ => cases input

/-- The check of a literal agrees with its reading. -/
theorem ofLiteral_agrees (built : schema.Built) (literal : Ast.Value) :
    ∀ type, schema.AcceptsInput type → Bound schema bindings type literal →
      Agrees schema bindings type literal := by
  refine literal.byParts (motive := fun literal => ∀ type, schema.AcceptsInput type →
    Bound schema bindings type literal → Agrees schema bindings type literal) ?_
  intro literal ih type accepts bound
  by_cases written : ∃ target, literal = .var target
  · obtain ⟨target, rfl⟩ := written
    rw [Agrees, ofLiteral, LiteralValue.ofLiteral, LiteralValue.isSome_ofVariable]
    exact ⟨fun _ => bound type target .whole, fun _ => rfl⟩
  · have written : ∀ target, literal ≠ .var target := fun target same => written ⟨target, same⟩
    rw [Agrees, ofLiteral_eq schema written, LiteralValue.ofLiteral_eq schema bindings written]
    cases null : isNull literal with
    | true => exact ofLayer_null_agrees null _ _ type
    | false =>
      exact ofLayer_agrees null accepts fun inner part stands =>
        ih part stands.mem inner (stands.acceptsInput built accepts) (bound.part stands)

end Conformance

open LiteralValue (Bound Backed Part Placed)

/-- Nothing is wrong with a literal at a type exactly if it has a value there, and the type admits the
value. A variable in the place of a literal stands at the type of the place, be it a scalar's; inside
a literal that a scalar reads, it stands nowhere. -/
theorem literalProblems_eq_nil_iff (built : schema.Built) {type : TypeRef}
    (accepts : schema.AcceptsInput type) {literal : Ast.Value}
    (bound : Bound schema bindings type literal) :
    (schema.literalProblems type literal = [] ↔
      ∃ value, schema.literalValue bindings literal type = some value) ∧
    ∀ takes, schema.ReadsAdmitted takes → Backed schema takes bindings type literal →
      ∀ value, schema.literalValue bindings literal type = some value →
        Admits schema takes type value := by
  constructor
  · rw [← Option.isSome_iff_exists]
    exact Conformance.ofLiteral_agrees built literal type accepts bound
  · exact fun takes provides backed => LiteralValue.ofLiteral_admits provides literal type backed

section Filters

/-- Red things, of identities that are given by a variable. -/
def redFilter : Ast.Value :=
  .object [⟨⟨"ids", none⟩, .var ⟨⟨"these", none⟩, none⟩, none⟩,
    ⟨⟨"color", none⟩, .enum "RED" none, none⟩] none

theorem redFilter_variables {expected : TypeRef} {target : Ast.Variable}
    (placed : Placed filterSchema (.nonNull (.named "Filter")) redFilter expected (.var target)) :
    expected = .nonNull (.list (.nonNull (.named "ID"))) ∧ target.name.text = "these" := by
  have ofVariable {type : TypeRef} {target' : Ast.Variable}
      (placed : Placed filterSchema type (.var target') expected (.var target)) :
      type = expected ∧ target' = target := by
    cases placed with
    | whole => exact ⟨rfl, rfl⟩
    | inside stands _ => cases stands
  cases placed with
  | inside stands rest =>
    cases stands with
    | @field input declared _ _ field known inside member named =>
      have same : filterType = input := TypeDef.inputObject.inj (Option.some.inj known)
      subst same
      rcases List.mem_cons.1 member with rfl | member
      · obtain ⟨rfl, rfl⟩ := ofVariable rest
        refine ⟨?_, rfl⟩
        simp only [filterType, List.mem_cons, List.not_mem_nil, or_false] at inside
        rcases inside with rfl | rfl | rfl | rfl
        · rfl
        all_goals exact absurd named (by decide)
      · obtain rfl := List.mem_singleton.1 member
        cases rest with
        | inside stands _ => cases stands

theorem redFilter_checked :
    filterSchema.Built ∧ filterSchema.AcceptsInput (.nonNull (.named "Filter")) ∧
    Bound filterSchema [("these", .list [.string "a"])] (.nonNull (.named "Filter")) redFilter ∧
    filterSchema.ReadsAdmitted TypeDef.Reads ∧
    ∃ value, filterSchema.literalValue [("these", .list [.string "a"])] redFilter
        (.nonNull (.named "Filter")) = some value ∧
      Admits filterSchema TypeDef.Reads (.nonNull (.named "Filter")) value := by
  have accepts : filterSchema.AcceptsInput (.nonNull (.named "Filter")) :=
    ⟨.inputObject filterType, rfl, rfl⟩
  have bound : Bound filterSchema [("these", .list [.string "a"])] (.nonNull (.named "Filter"))
      redFilter := by
    intro expected target placed _
    obtain ⟨-, same⟩ := redFilter_variables placed
    exact ⟨.list [.string "a"], by rw [same]; rfl, rfl⟩
  have backed : Backed filterSchema TypeDef.Reads [("these", .list [.string "a"])]
      (.nonNull (.named "Filter")) redFilter := by
    intro expected target placed value found
    obtain ⟨rfl, same⟩ := redFilter_variables placed
    rw [same] at found
    cases found
    have known : filterSchema.type? "ID" = some (.scalar .id) := rfl
    refine .inr (.nonNull rfl (.list fun value member => ?_))
    rw [List.mem_singleton.1 member]
    exact .nonNull rfl (.leaf known rfl (Or.inl ⟨.string "a", rfl⟩))
  obtain ⟨checked, admits⟩ := literalProblems_eq_nil_iff filterSchema_built accepts bound
  obtain ⟨value, read⟩ := checked.1 rfl
  exact ⟨filterSchema_built, accepts, bound, filterSchema_admitted, value, read,
    admits TypeDef.Reads filterSchema_admitted backed value read⟩

end Filters

end GraphQL
