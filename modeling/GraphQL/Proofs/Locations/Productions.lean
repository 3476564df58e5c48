import GraphQL.Proofs.Grammar.Completeness
import GraphQL.Proofs.Locations.Rereading

/-! Each production reads the same nodes again, up to locations. -/
namespace GraphQL.Parser
open Ast

variable {r : Rereading}

/-! Names, value literals, arguments, directives and types -/

theorem name_alike : Alike r name Name.unlocated name := by
  refine current_alike.bind fun token => ?_
  obtain ⟨lexeme, start, stop⟩ := token
  cases lexeme with
  | name text => exact advance_alike.bind fun _ => .node fun _ => rfl
  | _ => exact fault_alike _

theorem variableName_alike : Alike r variableName Variable.unlocated variableName :=
  start_alike.bind fun _ => (expectMark_alike .dollar).bind fun _ => name_alike.bind fun _ =>
    .node fun _ => rfl

theorem namedLiteral_unlocated (text : String) (span : Option Span) :
    (namedLiteral text span).unlocated = namedLiteral text none := by
  unfold namedLiteral
  split <;> rfl

section Literals
variable {p q : Parser Value}

theorem objectField_alike (value : Alike r p Value.unlocated q) (seen : List String) :
    Alike r (objectField p seen) ObjectField.unlocated (objectField q seen) := by
  refine start_alike.bind fun start => name_alike.bind fun name => ?_
  have rest : Alike r
      (do expectMark .colon
          let of ← p
          return (⟨name, of, ← spanFrom start⟩ : ObjectField))
      ObjectField.unlocated
      (do expectMark .colon
          let of ← q
          return (⟨name.unlocated, of, ← spanFrom (r.position start)⟩ : ObjectField)) :=
    (expectMark_alike .colon).bind fun _ => value.bind fun _ => .node fun _ => rfl
  -- the second reading meets the same name, so both refuse it or neither does
  by_cases known : seen.contains name.text = true
  · rw [if_pos known, if_pos (show seen.contains name.unlocated.text = true from known)]
    exact (Alike.throw (g := id) start _).bind fun _ => rest
  · rw [if_neg known, if_neg (show ¬seen.contains name.unlocated.text = true from known)]
    exact rest

theorem objectFields_alike (value : Alike r p Value.unlocated q) (fuel : Nat) (seen : List String) :
    Alike r (objectFields p fuel seen) (List.map ObjectField.unlocated)
      (objectFields q fuel seen) := by
  induction fuel generalizing seen with
  | zero => exact unexpected_alike
  | succ fuel ih =>
    rw [objectFields_succ, objectFields_succ]
    refine .ite (skipMark_alike .braceR) (.pure rfl) ?_
    refine (objectField_alike value seen).bind fun field => ?_
    obtain ⟨name, of, span⟩ := field
    exact (ih (name.text :: seen)).bind fun _ => .pure rfl

end Literals

theorem value_alike (isConst : Bool) (depth : Nat) :
    Alike r (value isConst depth) Value.unlocated (value isConst depth) := by
  induction depth using Nat.strong_induction_on with
  | _ depth inner =>
    rw [value]
    refine current_alike.bind fun token => ?_
    obtain ⟨lexeme, start, stop⟩ := token
    cases lexeme with
    | int text | float text | string text => exact advance_alike.bind fun _ => .node fun _ => rfl
    | name text =>
      exact advance_alike.bind fun _ => .node fun span => namedLiteral_unlocated text span
    | finish => exact unexpected_alike
    | punctuator mark =>
      cases mark with
      | bracketL =>
        cases depth with
        | zero => exact fault_alike _
        | succ depth =>
          refine (any_alike .bracketL .bracketR (inner depth depth.lt_succ_self)).bind fun _ => ?_
          exact .node fun _ => by simp [Value.unlocated]
      | braceL =>
        cases depth with
        | zero => exact fault_alike _
        | succ depth =>
          refine (expectMark_alike .braceL).bind fun _ => remaining_alike.bind fun fuel => ?_
          refine (objectFields_alike (inner depth depth.lt_succ_self) fuel []).bind fun _ => ?_
          exact .node fun _ => by simp [Value.unlocated]
      | dollar =>
        cases isConst with
        | true => exact unexpected_alike
        | false => exact variableName_alike.bind fun _ => .pure rfl
      | _ => exact unexpected_alike

theorem argument_alike (isConst : Bool) (depth : Nat) :
    Alike r (argument isConst depth) Argument.unlocated (argument isConst depth) :=
  start_alike.bind fun _ => name_alike.bind fun _ => (expectMark_alike .colon).bind fun _ =>
    (value_alike isConst depth).bind fun _ => .node fun _ => rfl

theorem arguments_alike (isConst : Bool) (depth : Nat) :
    Alike r (arguments isConst depth) (List.map Argument.unlocated) (arguments isConst depth) :=
  optionalMany_alike .parenL .parenR (argument_alike isConst depth)

theorem directive_alike (isConst : Bool) (depth : Nat) :
    Alike r (directive isConst depth) Directive.unlocated (directive isConst depth) :=
  start_alike.bind fun _ => (expectMark_alike .atSign).bind fun _ => name_alike.bind fun _ =>
    (arguments_alike isConst depth).bind fun _ => .node fun _ => rfl

theorem directives_alike (isConst : Bool) (depth : Nat) :
    Alike r (directives isConst depth) (List.map Directive.unlocated) (directives isConst depth) :=
  remaining_alike.bind fun _ =>
    whileSeen_alike (seesMark_alike .atSign) (directive_alike isConst depth) _

theorem namedType_alike : Alike r namedType NamedType.unlocated namedType :=
  start_alike.bind fun _ => name_alike.bind fun _ => .node fun _ => rfl

theorem withBang_alike (start : Nat) (type : TypeAnnotation) :
    Alike r (withBang start type) TypeAnnotation.unlocated
      (withBang (r.position start) type.unlocated) := by
  refine .ite (skipMark_alike .bang) ?_ (.pure rfl)
  refine (seesMark_alike .bang).bind fun seen => ?_
  have rest : Alike r (do return TypeAnnotation.nonNull type (← spanFrom start))
      TypeAnnotation.unlocated
      (do return TypeAnnotation.nonNull type.unlocated (← spanFrom (r.position start))) :=
    .node fun _ => rfl
  cases seen with
  | true => exact (fault_alike (g := id) _).bind fun _ => rest
  | false => exact rest

theorem typeAnnotation_alike (depth : Nat) :
    Alike r ( typeAnnotation depth) TypeAnnotation.unlocated ( typeAnnotation depth) := by
  induction depth using Nat.strong_induction_on with
  | _ depth inner =>
    rw [ typeAnnotation]
    refine start_alike.bind fun start => .ite (skipMark_alike .bracketL) ?_
      (namedType_alike.bind fun _ => withBang_alike start _)
    cases depth with
    | zero => exact fault_alike _
    | succ depth =>
      refine (inner depth depth.lt_succ_self).bind fun item => ?_
      refine (expectMark_alike .bracketR).bind fun _ => (spanFrom_alike _ _).bind fun span => ?_
      exact withBang_alike start (.list item span)

/-! Selections, operations and fragments -/

theorem fragmentName_alike : Alike r fragmentName Name.unlocated fragmentName :=
  .ite (seesKeyword_alike "on") unexpected_alike name_alike

theorem optionalName_alike : Alike r optionalName (Option.map Name.unlocated) optionalName :=
  .ite (sees_alike .name) (name_alike.bind fun _ => .pure rfl) (.pure rfl)

theorem fieldLabel_alike : Alike r fieldLabel
    (fun label => (label.1.map Name.unlocated, label.2.unlocated)) fieldLabel :=
  name_alike.bind fun _ =>
    .ite (skipMark_alike .colon) (name_alike.bind fun _ => .pure rfl) (.pure rfl)

theorem typeCondition_alike :
    Alike r typeCondition (Option.map NamedType.unlocated) typeCondition :=
  .ite (seesKeyword_alike "on")
    (advance_alike.bind fun _ => namedType_alike.bind fun _ => .pure rfl) (.pure rfl)

section Selections
variable {p q : Parser SelectionSet} (inner : Alike r p SelectionSet.unlocated q)
include inner

theorem optionalSelectionSet_alike : Alike r (optionalSelectionSet p)
    (Option.map SelectionSet.unlocated) (optionalSelectionSet q) :=
  .ite (seesMark_alike .braceL) (inner.bind fun _ => .pure rfl) (.pure rfl)

theorem field_alike (depth : Nat) :
    Alike r (field p depth) Field.unlocated (field q depth) := by
  refine start_alike.bind fun _ => fieldLabel_alike.bind fun _ => ?_
  refine (arguments_alike false depth).bind fun _ => (directives_alike false depth).bind fun _ => ?_
  exact (optionalSelectionSet_alike inner).bind fun _ => .node fun _ => by simp [Field.unlocated]

theorem fragmentSelection_alike (depth : Nat) : Alike r (fragmentSelection p depth)
    Selection.unlocated (fragmentSelection q depth) := by
  refine start_alike.bind fun _ => (expectMark_alike .spread).bind fun _ => ?_
  refine (sees_alike .name).bind fun named => (seesKeyword_alike "on").bind fun on => ?_
  have spread (start other : Nat) : Alike r
      (do let name ← fragmentName
          let directives ← directives false depth
          return Selection.spread ⟨name, directives, ← spanFrom start⟩)
      Selection.unlocated
      (do let name ← fragmentName
          let directives ← directives false depth
          return Selection.spread ⟨name, directives, ← spanFrom other⟩) :=
    fragmentName_alike.bind fun _ => (directives_alike false depth).bind fun _ =>
      .node fun _ => rfl
  have inline (start other : Nat) : Alike r
      (do let condition ← typeCondition
          let directives ← directives false depth
          let selections ← p
          return Selection.inline ⟨condition, directives, selections, ← spanFrom start⟩)
      Selection.unlocated
      (do let condition ← typeCondition
          let directives ← directives false depth
          let selections ← q
          return Selection.inline ⟨condition, directives, selections, ← spanFrom other⟩) :=
    typeCondition_alike.bind fun _ => (directives_alike false depth).bind fun _ =>
      inner.bind fun _ => .node fun _ => rfl
  cases named with
  | true =>
    cases on with
    | true => exact inline _ _
    | false => exact spread _ _
  | false => exact inline _ _

theorem selection_alike (depth : Nat) :
    Alike r (selection p depth) Selection.unlocated (selection q depth) :=
  .ite (seesMark_alike .spread) (fragmentSelection_alike inner depth)
    ((field_alike inner depth).bind fun _ => .pure rfl)

end Selections

theorem selectionSet_alike (depth : Nat) :
    Alike r (selectionSet depth) SelectionSet.unlocated (selectionSet depth) := by
  induction depth with
  | zero => exact fault_alike _
  | succ depth ih =>
    refine start_alike.bind fun _ => ?_
    refine (many_alike .braceL .braceR (selection_alike ih depth)).bind fun _ => ?_
    exact .node fun _ => by simp [SelectionSet.unlocated]

theorem operationType_alike : Alike r operationType id operationType := by
  refine current_alike.bind fun token => (expect_alike .name).bind fun _ => ?_
  simp only [Rereading.token]
  cases token.lexeme.value?.bind OperationType.ofText? with
  | none => exact .throw _ _
  | some operation => exact .pure rfl

theorem defaultValue_alike :
    Alike r defaultValue (Option.map Value.unlocated) defaultValue :=
  .ite (skipMark_alike .equals) ((value_alike true maxDepth).bind fun _ => .pure rfl) (.pure rfl)

theorem variableDefinition_alike :
    Alike r variableDefinition VariableDefinition.unlocated variableDefinition :=
  start_alike.bind fun _ => variableName_alike.bind fun _ => (expectMark_alike .colon).bind fun _ =>
    (typeAnnotation_alike maxDepth).bind fun _ => defaultValue_alike.bind fun _ =>
      .node fun _ => rfl

theorem operationDefinition_alike :
    Alike r operationDefinition OperationDefinition.unlocated operationDefinition := by
  refine start_alike.bind fun _ => .ite (seesMark_alike .braceL) ?_ ?_
  · exact (selectionSet_alike maxDepth).bind fun _ => .node fun _ => rfl
  · refine operationType_alike.bind fun _ => optionalName_alike.bind fun _ => ?_
    refine (optionalMany_alike .parenL .parenR variableDefinition_alike).bind fun _ => ?_
    exact (directives_alike false maxDepth).bind fun _ =>
      (selectionSet_alike maxDepth).bind fun _ => .node fun _ => rfl

theorem fragmentDefinition_alike :
    Alike r fragmentDefinition FragmentDefinition.unlocated fragmentDefinition := by
  refine start_alike.bind fun _ => (expectKeyword_alike "fragment").bind fun _ => ?_
  refine fragmentName_alike.bind fun _ => (expectKeyword_alike "on").bind fun _ => ?_
  exact namedType_alike.bind fun _ => (directives_alike false maxDepth).bind fun _ =>
    (selectionSet_alike maxDepth).bind fun _ => .node fun _ => rfl

/-! Definitions of the type system -/

theorem constDirectives_alike :
    Alike r constDirectives (List.map Directive.unlocated) constDirectives :=
  directives_alike true maxDepth

theorem operationTypeDefinition_alike :
    Alike r operationTypeDefinition OperationTypeDefinition.unlocated operationTypeDefinition :=
  start_alike.bind fun _ => operationType_alike.bind fun _ =>
    (expectMark_alike .colon).bind fun _ => namedType_alike.bind fun _ => .node fun _ => rfl

theorem schemaDefinition_alike :
    Alike r schemaDefinition SchemaDefinition.unlocated schemaDefinition :=
  start_alike.bind fun _ => (expectKeyword_alike "schema").bind fun _ =>
    constDirectives_alike.bind fun _ =>
      (many_alike .braceL .braceR operationTypeDefinition_alike).bind fun _ => .node fun _ => rfl

theorem inputValueDefinition_alike :
    Alike r inputValueDefinition InputValueDefinition.unlocated inputValueDefinition :=
  start_alike.bind fun _ => name_alike.bind fun _ => (expectMark_alike .colon).bind fun _ =>
    (typeAnnotation_alike maxDepth).bind fun _ => defaultValue_alike.bind fun _ =>
      constDirectives_alike.bind fun _ => .node fun _ => rfl

theorem argumentDefinitions_alike :
    Alike r argumentDefinitions (List.map InputValueDefinition.unlocated) argumentDefinitions :=
  optionalMany_alike .parenL .parenR inputValueDefinition_alike

theorem fieldDefinition_alike :
    Alike r fieldDefinition FieldDefinition.unlocated fieldDefinition :=
  start_alike.bind fun _ => name_alike.bind fun _ => argumentDefinitions_alike.bind fun _ =>
    (expectMark_alike .colon).bind fun _ => (typeAnnotation_alike maxDepth).bind fun _ =>
      constDirectives_alike.bind fun _ => .node fun _ => rfl

theorem fieldDefinitions_alike :
    Alike r fieldDefinitions (List.map FieldDefinition.unlocated) fieldDefinitions :=
  any_alike .braceL .braceR fieldDefinition_alike

theorem scalarTypeDefinition_alike :
    Alike r scalarTypeDefinition ScalarTypeDefinition.unlocated scalarTypeDefinition :=
  start_alike.bind fun _ => (expectKeyword_alike "scalar").bind fun _ => name_alike.bind fun _ =>
    constDirectives_alike.bind fun _ => .node fun _ => rfl

theorem implementedInterfaces_alike :
    Alike r implementedInterfaces (List.map NamedType.unlocated) implementedInterfaces :=
  .ite (seesKeyword_alike "implements")
    (advance_alike.bind fun _ => namedType_alike.bind fun _ => remaining_alike.bind fun _ =>
      (whileSeen_alike (sees_alike .name) namedType_alike _).bind fun _ => .pure rfl)
    (.pure rfl)

theorem objectTypeDefinition_alike :
    Alike r objectTypeDefinition ObjectTypeDefinition.unlocated objectTypeDefinition :=
  start_alike.bind fun _ => (expectKeyword_alike "type").bind fun _ => name_alike.bind fun _ =>
    implementedInterfaces_alike.bind fun _ => constDirectives_alike.bind fun _ =>
      fieldDefinitions_alike.bind fun _ => .node fun _ => rfl

theorem interfaceTypeDefinition_alike :
    Alike r interfaceTypeDefinition InterfaceTypeDefinition.unlocated interfaceTypeDefinition :=
  start_alike.bind fun _ => (expectKeyword_alike "interface").bind fun _ => name_alike.bind fun _ =>
    constDirectives_alike.bind fun _ => fieldDefinitions_alike.bind fun _ => .node fun _ => rfl

theorem unionTypeDefinition_alike :
    Alike r unionTypeDefinition UnionTypeDefinition.unlocated unionTypeDefinition :=
  start_alike.bind fun _ => (expectKeyword_alike "union").bind fun _ => name_alike.bind fun _ =>
    constDirectives_alike.bind fun _ => (expectMark_alike .equals).bind fun _ =>
      (separatedByBars_alike namedType_alike).bind fun _ => .node fun _ => rfl

theorem enumValueDefinition_alike :
    Alike r enumValueDefinition EnumValueDefinition.unlocated enumValueDefinition :=
  start_alike.bind fun _ => name_alike.bind fun _ => constDirectives_alike.bind fun _ =>
    .node fun _ => rfl

theorem enumTypeDefinition_alike :
    Alike r enumTypeDefinition EnumTypeDefinition.unlocated enumTypeDefinition :=
  start_alike.bind fun _ => (expectKeyword_alike "enum").bind fun _ => name_alike.bind fun _ =>
    constDirectives_alike.bind fun _ =>
      (many_alike .braceL .braceR enumValueDefinition_alike).bind fun _ => .node fun _ => rfl

theorem inputObjectTypeDefinition_alike : Alike r inputObjectTypeDefinition
    InputObjectTypeDefinition.unlocated inputObjectTypeDefinition :=
  start_alike.bind fun _ => (expectKeyword_alike "input").bind fun _ => name_alike.bind fun _ =>
    constDirectives_alike.bind fun _ =>
      (any_alike .braceL .braceR inputValueDefinition_alike).bind fun _ => .node fun _ => rfl

theorem typeExtension_alike : Alike r typeExtension TypeExtension.unlocated typeExtension :=
  start_alike.bind fun _ => (expectKeyword_alike "extend").bind fun _ =>
    objectTypeDefinition_alike.bind fun _ => .node fun _ => rfl

theorem directiveDefinition_alike :
    Alike r directiveDefinition DirectiveDefinition.unlocated directiveDefinition :=
  start_alike.bind fun _ => (expectKeyword_alike "directive").bind fun _ =>
    (expectMark_alike .atSign).bind fun _ => name_alike.bind fun _ =>
      argumentDefinitions_alike.bind fun _ => (expectKeyword_alike "on").bind fun _ =>
        (separatedByBars_alike name_alike).bind fun _ => .node fun _ => rfl

theorem definition_alike : Alike r definition Definition.unlocated definition := by
  refine lexeme_alike.bind fun lexeme => ?_
  simp only [id]
  split
  · exact operationDefinition_alike.bind fun _ => .pure rfl
  · exact operationDefinition_alike.bind fun _ => .pure rfl
  · exact operationDefinition_alike.bind fun _ => .pure rfl
  · exact operationDefinition_alike.bind fun _ => .pure rfl
  · exact fragmentDefinition_alike.bind fun _ => .pure rfl
  · exact schemaDefinition_alike.bind fun _ => .pure rfl
  · exact scalarTypeDefinition_alike.bind fun _ => .pure rfl
  · exact objectTypeDefinition_alike.bind fun _ => .pure rfl
  · exact interfaceTypeDefinition_alike.bind fun _ => .pure rfl
  · exact unionTypeDefinition_alike.bind fun _ => .pure rfl
  · exact enumTypeDefinition_alike.bind fun _ => .pure rfl
  · exact inputObjectTypeDefinition_alike.bind fun _ => .pure rfl
  · exact typeExtension_alike.bind fun _ => .pure rfl
  · exact directiveDefinition_alike.bind fun _ => .pure rfl
  · exact unexpected_alike

theorem definitions_alike (fuel : Nat) :
    Alike r (definitions fuel) (List.map Definition.unlocated) (definitions fuel) := by
  induction fuel with
  | zero => exact unexpected_alike
  | succ fuel ih =>
    exact definition_alike.bind fun _ => .ite (skip_alike .finish) (.pure rfl)
      (ih.bind fun _ => .pure rfl)

theorem document_alike : Alike r document Document.unlocated document :=
  start_alike.bind fun _ => remaining_alike.bind fun fuel => (definitions_alike fuel).bind fun _ =>
    .node fun _ => rfl

end GraphQL.Parser
