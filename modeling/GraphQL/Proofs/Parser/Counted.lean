import GraphQL.Proofs.Parser.Counting

/-! The productions, with levels counted and without fuel. Each of them does what the plain one does
with as many levels as are left. -/
namespace GraphQL.Parser
open Ast

variable {left bound n : Nat}

/-! Names, which have no levels -/

theorem name_straight : Straight (Room (n + 1)) (fun _ => Room n) name := by
  refine .bind (.look State.current) fun token => ?_
  obtain ⟨lexeme, start, stop⟩ := token
  cases lexeme with
  | name text =>
    exact .bind (advance_seen (by simp)) fun _ => .bind (spanFrom_straight _) fun _ => .pure
  | _ => exact .fault _

theorem variableName_straight : Straight (Room (n + 1)) (fun _ => Room n) variableName :=
  .bind (.sight _) fun _ => .bind (expectMark_straight _) fun _ => .bind name_straight.idle fun _ =>
    .bind (spanFrom_straight _) fun _ => .pure

theorem namedType_straight : Straight (Room (n + 1)) (fun _ => Room n) namedType :=
  .bind (.sight _) fun _ => .bind name_straight fun _ => .bind (spanFrom_straight _) fun _ => .pure

theorem fragmentName_straight : Straight (Room (n + 1)) (fun _ => Room n) fragmentName :=
  .bind (.sight _) fun _ => .ite .unexpected name_straight

theorem optionalName_straight : Straight (Room n) (fun _ => Room n) optionalName :=
  .bind (.sight _) fun _ => .ite (.bind name_straight.idle fun _ => .pure) .pure

theorem fieldLabel_straight : Straight (Room (n + 1)) (fun _ => Room n) fieldLabel :=
  .bind name_straight fun _ => .bind (skip_idle _) fun _ =>
    .ite (.bind name_straight.idle fun _ => .pure) .pure

theorem typeCondition_straight : Straight (Room n) (fun _ => Room n) typeCondition :=
  .bind (.sight _) fun _ =>
    .ite (.bind advance_idle fun _ => .bind namedType_straight.idle fun _ => .pure) .pure

theorem operationType_straight : Straight (Room (n + 1)) (fun _ => Room n) operationType := by
  refine .bind (.sight _) fun token => .bind (expect_straight (by simp)) fun _ => ?_
  split
  · exact .pure
  · exact .faultAt _ _

theorem operationTypeDefinition_straight :
    Straight (Room (n + 1)) (fun _ => Room n) operationTypeDefinition :=
  .bind (.sight _) fun _ => .bind operationType_straight fun _ =>
    .bind (expectMark_straight _).idle fun _ => .bind namedType_straight.idle fun _ =>
      .bind (spanFrom_straight _) fun _ => .pure

theorem withBang_straight (start : Nat) (type : TypeAnnotation) :
    Straight (Room n) (fun _ => Room n) (withBang start type) := by
  refine .bind (skip_idle _) fun _ => .ite (.bind (.sight _) fun _ => ?_) .pure
  split
  · exact .fault _
  · exact .bind (spanFrom_straight _) fun _ => .pure

/-! Value literals, arguments, directives and types -/

namespace Counted

def objectField (value : Counted Value) (seen : List String) : Counted ObjectField := do
  let start ← start
  let name ← name
  if seen.contains name.text then faultAt start (.duplicateObjectField name.text)
  expectMark .colon
  let of ← value
  return ⟨name, of, ← spanFrom start⟩

/-- Object fields up to the closing brace. The names met so far may not come again. -/
def objectFields (value : Counted Value) : Counted (List ObjectField) :=
  rounds (fun seen => do
    if ← skipMark .braceR then return none
    else
      let field ← objectField value seen
      return some (field, field.name.text :: seen)) []

/-- A value literal; a constant one holds no variables. -/
def value (isConst : Bool) : Counted Value := recursive fun value => do
  let token ← current
  match token.lexeme with
  | .punctuator .bracketL => nested do
      let values ← any .bracketL value .bracketR
      return .list values (← spanFrom token.start)
  | .punctuator .braceL => nested do
      expectMark .braceL
      let fields ← objectFields value
      return .object fields (← spanFrom token.start)
  | .int text => advance; return .int text (← spanFrom token.start)
  | .float text => advance; return .float text (← spanFrom token.start)
  | .string text => advance; return .string text (← spanFrom token.start)
  | .name text => advance; return namedLiteral text (← spanFrom token.start)
  | .punctuator .dollar => if isConst then unexpected else return .var (← variableName)
  | _ => unexpected

def argument (isConst : Bool) : Counted Argument := do
  let start ← start
  let name ← name
  expectMark .colon
  let value ← value isConst
  return ⟨name, value, ← spanFrom start⟩

def arguments (isConst : Bool) : Counted (List Argument) :=
  optionalMany .parenL (argument isConst) .parenR

def directive (isConst : Bool) : Counted Directive := do
  let start ← start
  expectMark .atSign
  let name ← name
  let arguments ← arguments isConst
  return ⟨name, arguments, ← spanFrom start⟩

def directives (isConst : Bool) : Counted (List Directive) :=
  whileSeen (seesMark .atSign) (directive isConst)

def typeAnnotation : Counted TypeAnnotation := recursive fun typeAnnotation => do
  let start ← start
  if ← skipMark .bracketL then
    let item ← nested typeAnnotation
    expectMark .bracketR
    withBang start (.list item (← spanFrom start))
  else withBang start (.named (← namedType))

end Counted

theorem objectFields_unrolls (value : Parser Value) : Unrolls (fun seen => do
    if ← skipMark .braceR then return none
    else
      let field ← objectField value seen
      return some (field, field.name.text :: seen)) (objectFields value) := by
  intro fuel seen
  rw [objectFields_succ]
  simp only [bind_assoc]
  congr! 2 with here
  cases here <;> simp

section Literals
variable {self : Counted Value} {plain : Parser Value}

theorem Takes.objectField (takes : Takes bound left self plain) (seen : List String) :
    Takes bound left (Counted.objectField self seen) (objectField plain seen) := by
  intro n less
  refine .bind (.lift (.sight _)) fun start => .bind (.lift name_straight) fun name => ?_
  have rest : Idles n left
      (do expectMark .colon
          let of ← self
          return (⟨name, of, ← spanFrom start⟩ : ObjectField))
      (do expectMark .colon
          let of ← plain
          return (⟨name, of, ← spanFrom start⟩ : ObjectField)) :=
    .bind (.lift (expectMark_straight .colon).idle) fun _ => (takes.below less).bind fun _ =>
      .bind (.lift (spanFrom_straight _)) fun _ => .pure
  split
  · exact .bind (.lift (.faultAt _ _)) fun _ => rest
  · exact rest

theorem Takes.objectFields (takes : Takes bound left self plain) :
    Idles bound left (Counted.objectFields self) (do objectFields plain (← remaining) []) := by
  refine .loop (objectFields_unrolls plain) (fun seen n less => ?_) []
  refine .bind (.lift (skip_idle _)) fun here => ?_
  cases here with
  | true => exact .answer fun _ room => room
  | false => exact (takes.objectField seen n less).bind fun _ => .answer fun _ room => room

end Literals

theorem value_takes (isConst : Bool) : Takes bound left (Counted.value isConst) (value isConst left) := by
  refine recursive_takes (fun bound self takes left => ?_) bound left
  rw [value]
  refine .bind (.lift (.look State.current)) fun token => ?_
  obtain ⟨lexeme, start, stop⟩ := token
  cases lexeme with
  | finish => exact .lift .unexpected
  | int text | float text | string text | name text =>
    exact .bind (.lift (advance_seen (by simp))) fun _ => .bind (.lift (spanFrom_straight _)) fun _ => .pure
  | punctuator mark =>
    cases mark with
    | bracketL =>
      have inner (left : Nat) := ((takes left).any .bracketL .bracketR).bind fun values =>
        .bind (.lift (spanFrom_straight start)) fun span =>
          .pure (b := Value.list values span)
      have levels : Counts _ _ left _ _ := .nested inner
      cases left <;> exact levels.forget
    | braceL =>
      have inner (left : Nat) : Counts (Room (bound + 1)) (fun _ => Room bound) left
          (do expectMark .braceL
              let fields ← Counted.objectFields self
              return Value.object fields (← spanFrom start))
          (do expectMark .braceL
              let fields ← objectFields (value isConst left) (← remaining) []
              return Value.object fields (← spanFrom start)) := by
        refine .bind (.lift (expectMark_straight _)) fun _ => ?_
        have rest := (takes left).objectFields.bind fun fields =>
          .bind (.lift (spanFrom_straight start)) fun span => .pure (b := Value.object fields span)
        rwa [bind_assoc] at rest
      have levels : Counts _ _ left _ _ := .nested inner
      cases left <;> exact levels.forget
    | dollar =>
      cases isConst with
      | true => exact .lift .unexpected
      | false =>
        exact .forget (.bind (.lift variableName_straight) fun _ => .pure)
    | bang | parenL | parenR | spread | colon | equals | atSign | bracketR | braceR | pipe =>
      exact .lift .unexpected

theorem argument_takes (isConst : Bool) :
    Takes bound left (Counted.argument isConst) (argument isConst left) :=
  fun _ _ => .bind (.lift (.sight _)) fun _ => .bind (.lift name_straight) fun _ =>
    .bind (.lift (expectMark_straight _).idle) fun _ => (value_takes isConst).idles.bind fun _ =>
      .bind (.lift (spanFrom_straight _)) fun _ => .pure

theorem arguments_idles (isConst : Bool) :
    Idles bound left (Counted.arguments isConst) (arguments isConst left) :=
  (argument_takes isConst).optionalMany _ _

theorem directive_takes (isConst : Bool) :
    Takes bound left (Counted.directive isConst) (directive isConst left) :=
  fun _ _ => .bind (.lift (.sight _)) fun _ => .bind (.lift (expectMark_straight _)) fun _ =>
    .bind (.lift name_straight.idle) fun _ => (arguments_idles isConst).bind fun _ =>
      .bind (.lift (spanFrom_straight _)) fun _ => .pure

theorem directives_idles (isConst : Bool) :
    Idles bound left (Counted.directives isConst) (directives isConst left) :=
  (directive_takes isConst).whileSeen fun _ => sees_straight _

theorem typeAnnotation_takes : Takes bound left Counted.typeAnnotation ( typeAnnotation left) := by
  refine recursive_takes (fun bound self takes left => ?_) bound left
  rw [ typeAnnotation]
  refine .bind (.lift (.sight _)) fun start => .bind (.lift (skip_straight (by simp))) fun here => ?_
  cases here with
  | true =>
    have inner : Counts _ _ left _ _ := .nested fun left => (takes left).idles
    have levels := inner.bind fun item => .bind (.lift (expectMark_straight .bracketR).idle) fun _ =>
      .bind (.lift (spanFrom_straight start)) fun span =>
        .lift (withBang_straight start (.list item span))
    cases left <;> exact levels
  | false => exact .bind (.lift namedType_straight) fun _ => .lift (withBang_straight _ _)

/-! Selections, operations and fragments -/

namespace Counted

def optionalSelectionSet (selectionSet : Counted SelectionSet) : Counted (Option SelectionSet) := do
  if ← seesMark .braceL then return some (← selectionSet) else return none

def field (selectionSet : Counted SelectionSet) : Counted Field := do
  let start ← start
  let (nickname, name) ← fieldLabel
  let arguments ← arguments false
  let directives ← directives false
  let selections ← optionalSelectionSet selectionSet
  return ⟨nickname, name, arguments, directives, selections, ← spanFrom start⟩

/-- A spread or an inline fragment. -/
def fragmentSelection (selectionSet : Counted SelectionSet) : Counted Selection := do
  let start ← start
  expectMark .spread
  if (← sees .name) && !(← seesKeyword "on") then
    let name ← fragmentName
    let directives ← directives false
    return .spread ⟨name, directives, ← spanFrom start⟩
  else
    let condition ← typeCondition
    let directives ← directives false
    let selections ← selectionSet
    return .inline ⟨condition, directives, selections, ← spanFrom start⟩

def selection (selectionSet : Counted SelectionSet) : Counted Selection := do
  if ← seesMark .spread then fragmentSelection selectionSet
  else return .field (← field selectionSet)

def selectionSet : Counted SelectionSet := recursive fun selectionSet => nested do
  let start ← start
  let selections ← many .braceL (selection selectionSet) .braceR
  return ⟨selections, ← spanFrom start⟩

/-- A constant value after an equals sign. -/
def defaultValue : Counted (Option Value) := do
  if ← skipMark .equals then return some (← value true) else return none

def variableDefinition : Counted VariableDefinition := do
  let start ← start
  let target ← variableName
  expectMark .colon
  let type ← typeAnnotation
  let value ← defaultValue
  return ⟨target, type, value, ← spanFrom start⟩

def operationDefinition : Counted OperationDefinition := do
  let start ← start
  if ← seesMark .braceL then
    let selections ← selectionSet
    return ⟨.query, none, [], [], selections, ← spanFrom start⟩
  else
    let operation ← operationType
    let name ← optionalName
    let definitions ← optionalMany .parenL variableDefinition .parenR
    let directives ← directives false
    let selections ← selectionSet
    return ⟨operation, name, definitions, directives, selections, ← spanFrom start⟩

def fragmentDefinition : Counted FragmentDefinition := do
  let start ← start
  expectKeyword "fragment"
  let name ← fragmentName
  expectKeyword "on"
  let condition ← namedType
  let directives ← directives false
  let selections ← selectionSet
  return ⟨name, condition, directives, selections, ← spanFrom start⟩

end Counted

section Selections
variable {self : Counted SelectionSet} {plain : Parser SelectionSet}

theorem Takes.optionalSelectionSet (takes : Takes bound left self plain) :
    Idles bound left (Counted.optionalSelectionSet self) (optionalSelectionSet plain) := by
  refine .bind (.lift (sees_straight _)) fun _ => ?_
  split
  · exact takes.idles.bind fun _ => .pure
  · exact .pure

theorem Takes.field (takes : Takes bound left self plain) :
    Takes bound left (Counted.field self) (field plain left) := by
  intro n less
  have below : Takes n left self plain := fun m fewer => takes m (fewer.trans less)
  exact .bind (.lift (.sight _)) fun _ => .bind (.lift fieldLabel_straight) fun _ =>
    (arguments_idles false).bind fun _ => (directives_idles false).bind fun _ =>
      below.optionalSelectionSet.bind fun _ => .bind (.lift (spanFrom_straight _)) fun _ => .pure

theorem Takes.fragmentSelection (takes : Takes bound left self plain) :
    Takes bound left (Counted.fragmentSelection self) (fragmentSelection plain left) := by
  intro n less
  refine .bind (.lift (.sight _)) fun _ => .bind (.lift (expectMark_straight _)) fun _ => ?_
  refine .bind (.lift (.sight _)) fun _ => .bind (.lift (.sight _)) fun _ => ?_
  split
  · exact .bind (.lift fragmentName_straight.idle) fun _ => (directives_idles false).bind fun _ =>
      .bind (.lift (spanFrom_straight _)) fun _ => .pure
  · exact .bind (.lift typeCondition_straight) fun _ => (directives_idles false).bind fun _ =>
      (takes.below less).bind fun _ => .bind (.lift (spanFrom_straight _)) fun _ => .pure

theorem Takes.selection (takes : Takes bound left self plain) :
    Takes bound left (Counted.selection self) (selection plain left) := by
  intro n less
  refine .bind (.lift (.sight _)) fun _ => ?_
  split
  · exact takes.fragmentSelection n less
  · exact (takes.field n less).bind fun _ => .pure

end Selections

theorem selectionSet_takes : Takes bound left Counted.selectionSet (selectionSet left) := by
  refine recursive_takes (fun bound self takes left => ?_) bound left
  have inner (left : Nat) : Counts (Room (bound + 1)) (fun _ => Room bound) left
      (do let start ← start
          let selections ← Counted.many .braceL (Counted.selection self) .braceR
          return (⟨selections, ← spanFrom start⟩ : SelectionSet))
      (do let start ← start
          let selections ← many .braceL (selection (selectionSet left) left) .braceR
          return (⟨selections, ← spanFrom start⟩ : SelectionSet)) :=
    .bind (.lift (.sight _)) fun _ => ((takes left).selection.many _ _).bind fun _ =>
      .bind (.lift (spanFrom_straight _)) fun _ => .pure
  have levels : Counts _ _ left _ _ := .nested inner
  cases left <;> exact levels

theorem defaultValue_idles : Idles bound maxDepth Counted.defaultValue defaultValue := by
  refine .bind (.lift (skip_idle _)) fun _ => ?_
  split
  · exact (value_takes true).idles.bind fun _ => .pure
  · exact .pure

theorem variableDefinition_takes :
    Takes bound maxDepth Counted.variableDefinition variableDefinition :=
  fun _ _ => .bind (.lift (.sight _)) fun _ => .bind (.lift variableName_straight) fun _ =>
    .bind (.lift (expectMark_straight _).idle) fun _ => typeAnnotation_takes.idles.bind fun _ =>
      defaultValue_idles.bind fun _ => .bind (.lift (spanFrom_straight _)) fun _ => .pure

theorem operationDefinition_takes :
    Takes bound maxDepth Counted.operationDefinition operationDefinition := by
  intro n less
  refine .bind (.lift (.sight _)) fun _ => .bind (.lift (.sight _)) fun _ => ?_
  split
  · exact (selectionSet_takes n less).bind fun _ => .bind (.lift (spanFrom_straight _)) fun _ => .pure
  · exact .bind (.lift operationType_straight) fun _ => .bind (.lift optionalName_straight) fun _ =>
      (variableDefinition_takes.optionalMany _ _).bind fun _ => (directives_idles false).bind fun _ =>
        selectionSet_takes.idles.bind fun _ => .bind (.lift (spanFrom_straight _)) fun _ => .pure

theorem fragmentDefinition_takes :
    Takes bound maxDepth Counted.fragmentDefinition fragmentDefinition :=
  fun _ _ => .bind (.lift (.sight _)) fun _ => .bind (.lift (expectKeyword_straight _)) fun _ =>
    .bind (.lift fragmentName_straight.idle) fun _ =>
      .bind (.lift (expectKeyword_straight _).idle) fun _ =>
        .bind (.lift namedType_straight.idle) fun _ => (directives_idles false).bind fun _ =>
          selectionSet_takes.idles.bind fun _ => .bind (.lift (spanFrom_straight _)) fun _ => .pure

/-! Definitions of the type system -/

namespace Counted

def constDirectives : Counted (List Directive) := directives true

def schemaDefinition : Counted SchemaDefinition := do
  let start ← start
  expectKeyword "schema"
  let directives ← constDirectives
  let operationTypes ← many .braceL operationTypeDefinition .braceR
  return ⟨directives, operationTypes, ← spanFrom start⟩

def inputValueDefinition : Counted InputValueDefinition := do
  let start ← start
  let name ← name
  expectMark .colon
  let type ← typeAnnotation
  let value ← defaultValue
  let directives ← constDirectives
  return ⟨name, type, value, directives, ← spanFrom start⟩

def argumentDefinitions : Counted (List InputValueDefinition) :=
  optionalMany .parenL inputValueDefinition .parenR

def fieldDefinition : Counted FieldDefinition := do
  let start ← start
  let name ← name
  let arguments ← argumentDefinitions
  expectMark .colon
  let type ← typeAnnotation
  let directives ← constDirectives
  return ⟨name, arguments, type, directives, ← spanFrom start⟩

def fieldDefinitions : Counted (List FieldDefinition) := any .braceL fieldDefinition .braceR

def scalarTypeDefinition : Counted ScalarTypeDefinition := do
  let start ← start
  expectKeyword "scalar"
  let name ← name
  let directives ← constDirectives
  return ⟨name, directives, ← spanFrom start⟩

/-- The names after `implements`, as many as follow. -/
def implementedInterfaces : Counted (List NamedType) := do
  if ← seesKeyword "implements" then
    advance
    let first ← namedType
    return first :: (← whileSeen (sees .name) namedType)
  else return []

def objectTypeDefinition : Counted ObjectTypeDefinition := do
  let start ← start
  expectKeyword "type"
  let name ← name
  let interfaces ← implementedInterfaces
  let directives ← constDirectives
  let fields ← fieldDefinitions
  return ⟨name, interfaces, directives, fields, ← spanFrom start⟩

def interfaceTypeDefinition : Counted InterfaceTypeDefinition := do
  let start ← start
  expectKeyword "interface"
  let name ← name
  let directives ← constDirectives
  let fields ← fieldDefinitions
  return ⟨name, directives, fields, ← spanFrom start⟩

def unionTypeDefinition : Counted UnionTypeDefinition := do
  let start ← start
  expectKeyword "union"
  let name ← name
  let directives ← constDirectives
  expectMark .equals
  let types ← separatedByBars namedType
  return ⟨name, directives, types, ← spanFrom start⟩

def enumValueDefinition : Counted EnumValueDefinition := do
  let start ← start
  let name ← name
  let directives ← constDirectives
  return ⟨name, directives, ← spanFrom start⟩

def enumTypeDefinition : Counted EnumTypeDefinition := do
  let start ← start
  expectKeyword "enum"
  let name ← name
  let directives ← constDirectives
  let values ← many .braceL enumValueDefinition .braceR
  return ⟨name, directives, values, ← spanFrom start⟩

def inputObjectTypeDefinition : Counted InputObjectTypeDefinition := do
  let start ← start
  expectKeyword "input"
  let name ← name
  let directives ← constDirectives
  let fields ← any .braceL inputValueDefinition .braceR
  return ⟨name, directives, fields, ← spanFrom start⟩

def typeExtension : Counted TypeExtension := do
  let start ← start
  expectKeyword "extend"
  let definition ← objectTypeDefinition
  return ⟨definition, ← spanFrom start⟩

def directiveDefinition : Counted DirectiveDefinition := do
  let start ← start
  expectKeyword "directive"
  expectMark .atSign
  let name ← name
  let arguments ← argumentDefinitions
  expectKeyword "on"
  let locations ← separatedByBars Parser.name
  return ⟨name, arguments, locations, ← spanFrom start⟩

/-- A definition, by the keyword or brace that it starts with. -/
def definition : Counted Definition := do
  match ← lexeme with
  | .punctuator .braceL => return .operation (← operationDefinition)
  | .name "query" | .name "mutation" | .name "subscription" =>
      return .operation (← operationDefinition)
  | .name "fragment" => return .fragment (← fragmentDefinition)
  | .name "schema" => return .typeSystem (.schema (← schemaDefinition))
  | .name "scalar" => return .typeSystem (.type (.scalar (← scalarTypeDefinition)))
  | .name "type" => return .typeSystem (.type (.object (← objectTypeDefinition)))
  | .name "interface" => return .typeSystem (.type (.interface (← interfaceTypeDefinition)))
  | .name "union" => return .typeSystem (.type (.union (← unionTypeDefinition)))
  | .name "enum" => return .typeSystem (.type (.enum (← enumTypeDefinition)))
  | .name "input" => return .typeSystem (.type (.inputObject (← inputObjectTypeDefinition)))
  | .name "extend" => return .typeSystem (.extension (← typeExtension))
  | .name "directive" => return .typeSystem (.directive (← directiveDefinition))
  | _ => unexpected

/-- One definition or more, up to the end of the text. -/
def definitions : Counted (List Definition) := do
  let first ← definition
  return first :: (← rounds (fun (_ : Unit) => do
    if ← skip .finish then return none else return some (← definition, ())) ())

def document : Counted Document := do
  let start ← start
  let definitions ← definitions
  return ⟨definitions, ← spanFrom start⟩

/-- A parser that goes on to the end of the text. -/
def alone {α : Type} (p : Counted α) : Counted α := do
  let value ← p
  expect .finish
  return value

end Counted

theorem constDirectives_idles : Idles bound maxDepth Counted.constDirectives constDirectives :=
  directives_idles true

theorem schemaDefinition_takes : Takes bound maxDepth Counted.schemaDefinition schemaDefinition := by
  have each (n : Nat) : Takes n maxDepth (Counted.lift operationTypeDefinition) _ :=
    fun _ _ => .lift operationTypeDefinition_straight
  exact fun n _ => .bind (.lift (.sight _)) fun _ => .bind (.lift (expectKeyword_straight _)) fun _ =>
    constDirectives_idles.bind fun _ => ((each n).many _ _).idles.bind fun _ =>
      .bind (.lift (spanFrom_straight _)) fun _ => .pure

theorem inputValueDefinition_takes :
    Takes bound maxDepth Counted.inputValueDefinition inputValueDefinition :=
  fun _ _ => .bind (.lift (.sight _)) fun _ => .bind (.lift name_straight) fun _ =>
    .bind (.lift (expectMark_straight _).idle) fun _ => typeAnnotation_takes.idles.bind fun _ =>
      defaultValue_idles.bind fun _ => constDirectives_idles.bind fun _ =>
        .bind (.lift (spanFrom_straight _)) fun _ => .pure

theorem argumentDefinitions_idles :
    Idles bound maxDepth Counted.argumentDefinitions argumentDefinitions :=
  inputValueDefinition_takes.optionalMany _ _

theorem fieldDefinition_takes : Takes bound maxDepth Counted.fieldDefinition fieldDefinition :=
  fun _ _ => .bind (.lift (.sight _)) fun _ => .bind (.lift name_straight) fun _ =>
    argumentDefinitions_idles.bind fun _ => .bind (.lift (expectMark_straight _).idle) fun _ =>
      typeAnnotation_takes.idles.bind fun _ => constDirectives_idles.bind fun _ =>
        .bind (.lift (spanFrom_straight _)) fun _ => .pure

theorem fieldDefinitions_idles : Idles bound maxDepth Counted.fieldDefinitions fieldDefinitions :=
  (fieldDefinition_takes.any _ _).idles

theorem scalarTypeDefinition_takes :
    Takes bound maxDepth Counted.scalarTypeDefinition scalarTypeDefinition :=
  fun _ _ => .bind (.lift (.sight _)) fun _ => .bind (.lift (expectKeyword_straight _)) fun _ =>
    .bind (.lift name_straight.idle) fun _ => constDirectives_idles.bind fun _ =>
      .bind (.lift (spanFrom_straight _)) fun _ => .pure

theorem namedType_takes : Takes bound left (Counted.lift namedType) namedType :=
  fun _ _ => .lift namedType_straight

theorem implementedInterfaces_idles :
    Idles bound maxDepth Counted.implementedInterfaces implementedInterfaces := by
  refine .bind (.lift (.sight _)) fun _ => ?_
  split
  · refine .bind (.lift advance_idle) fun _ => .bind (.lift namedType_straight.idle) fun first => ?_
    have rest : Idles bound maxDepth _ _ :=
      (namedType_takes.whileSeen fun _ => sees_straight .name).bind fun others =>
        .pure (b := first :: others)
    rwa [bind_assoc] at rest
  · exact .pure

theorem objectTypeDefinition_takes :
    Takes bound maxDepth Counted.objectTypeDefinition objectTypeDefinition :=
  fun _ _ => .bind (.lift (.sight _)) fun _ => .bind (.lift (expectKeyword_straight _)) fun _ =>
    .bind (.lift name_straight.idle) fun _ => implementedInterfaces_idles.bind fun _ =>
      constDirectives_idles.bind fun _ => fieldDefinitions_idles.bind fun _ =>
        .bind (.lift (spanFrom_straight _)) fun _ => .pure

theorem interfaceTypeDefinition_takes :
    Takes bound maxDepth Counted.interfaceTypeDefinition interfaceTypeDefinition :=
  fun _ _ => .bind (.lift (.sight _)) fun _ => .bind (.lift (expectKeyword_straight _)) fun _ =>
    .bind (.lift name_straight.idle) fun _ => constDirectives_idles.bind fun _ =>
      fieldDefinitions_idles.bind fun _ => .bind (.lift (spanFrom_straight _)) fun _ => .pure

theorem unionTypeDefinition_takes :
    Takes bound maxDepth Counted.unionTypeDefinition unionTypeDefinition :=
  fun _ _ => .bind (.lift (.sight _)) fun _ => .bind (.lift (expectKeyword_straight _)) fun _ =>
    .bind (.lift name_straight.idle) fun _ => constDirectives_idles.bind fun _ =>
      .bind (.lift (expectMark_straight _).idle) fun _ => namedType_takes.separatedByBars.bind fun _ =>
        .bind (.lift (spanFrom_straight _)) fun _ => .pure

theorem enumValueDefinition_takes :
    Takes bound maxDepth Counted.enumValueDefinition enumValueDefinition :=
  fun _ _ => .bind (.lift (.sight _)) fun _ => .bind (.lift name_straight) fun _ =>
    constDirectives_idles.bind fun _ => .bind (.lift (spanFrom_straight _)) fun _ => .pure

theorem enumTypeDefinition_takes :
    Takes bound maxDepth Counted.enumTypeDefinition enumTypeDefinition :=
  fun _ _ => .bind (.lift (.sight _)) fun _ => .bind (.lift (expectKeyword_straight _)) fun _ =>
    .bind (.lift name_straight.idle) fun _ => constDirectives_idles.bind fun _ =>
      (enumValueDefinition_takes.many _ _).idles.bind fun _ =>
        .bind (.lift (spanFrom_straight _)) fun _ => .pure

theorem inputObjectTypeDefinition_takes :
    Takes bound maxDepth Counted.inputObjectTypeDefinition inputObjectTypeDefinition :=
  fun _ _ => .bind (.lift (.sight _)) fun _ => .bind (.lift (expectKeyword_straight _)) fun _ =>
    .bind (.lift name_straight.idle) fun _ => constDirectives_idles.bind fun _ =>
      (inputValueDefinition_takes.any _ _).idles.bind fun _ =>
        .bind (.lift (spanFrom_straight _)) fun _ => .pure

theorem typeExtension_takes : Takes bound maxDepth Counted.typeExtension typeExtension :=
  fun _ _ => .bind (.lift (.sight _)) fun _ => .bind (.lift (expectKeyword_straight _)) fun _ =>
    objectTypeDefinition_takes.idles.bind fun _ => .bind (.lift (spanFrom_straight _)) fun _ => .pure

theorem directiveDefinition_takes :
    Takes bound maxDepth Counted.directiveDefinition directiveDefinition := by
  have each (n : Nat) : Takes n maxDepth (Counted.lift name) _ := fun _ _ => .lift name_straight
  exact fun n _ => .bind (.lift (.sight _)) fun _ => .bind (.lift (expectKeyword_straight _)) fun _ =>
    .bind (.lift (expectMark_straight _).idle) fun _ => .bind (.lift name_straight.idle) fun _ =>
      argumentDefinitions_idles.bind fun _ => .bind (.lift (expectKeyword_straight _).idle) fun _ =>
        (each n).separatedByBars.bind fun _ => .bind (.lift (spanFrom_straight _)) fun _ => .pure

theorem definition_takes : Takes bound maxDepth Counted.definition definition := by
  intro n less
  refine .bind (.lift (.sight _)) fun lexeme => ?_
  split
  · exact (operationDefinition_takes n less).bind fun _ => .pure
  · exact (operationDefinition_takes n less).bind fun _ => .pure
  · exact (operationDefinition_takes n less).bind fun _ => .pure
  · exact (operationDefinition_takes n less).bind fun _ => .pure
  · exact (fragmentDefinition_takes n less).bind fun _ => .pure
  · exact (schemaDefinition_takes n less).bind fun _ => .pure
  · exact (scalarTypeDefinition_takes n less).bind fun _ => .pure
  · exact (objectTypeDefinition_takes n less).bind fun _ => .pure
  · exact (interfaceTypeDefinition_takes n less).bind fun _ => .pure
  · exact (unionTypeDefinition_takes n less).bind fun _ => .pure
  · exact (enumTypeDefinition_takes n less).bind fun _ => .pure
  · exact (inputObjectTypeDefinition_takes n less).bind fun _ => .pure
  · exact (typeExtension_takes n less).bind fun _ => .pure
  · exact (directiveDefinition_takes n less).bind fun _ => .pure
  · repeat' split
    all_goals first | contradiction | exact .lift .unexpected

/-- The definitions behind a first one. -/
def furtherDefinitions (fuel : Nat) : Parser (List Definition) := do
  if ← skip .finish then return [] else definitions fuel

theorem definitions_succ (fuel : Nat) : definitions (fuel + 1) = do
    let first ← definition
    return first :: (← furtherDefinitions fuel) := by
  simp only [definitions, furtherDefinitions, bind_assoc]
  congr! 4 with first last
  cases last <;> simp

theorem furtherDefinitions_unrolls : Unrolls
    (fun (_ : Unit) => do if ← skip .finish then return none else return some (← definition, ()))
    (fun fuel _ => furtherDefinitions fuel) := by
  intro fuel seen
  simp only [furtherDefinitions, definitions_succ, bind_assoc]
  congr! 2 with last
  cases last <;> simp

theorem definitions_idles :
    Idles bound maxDepth Counted.definitions (do definitions (← remaining)) := by
  refine .remaining fun n within fuel enough => ?_
  cases n with
  | zero => exact fun gauge room => absurd room (Nat.not_succ_le_zero _)
  | succ n =>
    cases fuel with
    | zero => contradiction
    | succ fuel =>
      rw [definitions_succ]
      refine ((definition_takes n (Nat.lt_succ_self n)).bind fun first => ?_).mono (fun _ => id)
        fun _ _ => Nat.le_succ_of_le
      refine .bind (.rounds furtherDefinitions_unrolls (fun _ m less => ?_)
        (Nat.lt_of_succ_lt_succ enough) ()) fun _ => .pure
      refine .bind (.lift (skip_idle _)) fun last => ?_
      cases last with
      | true => exact .answer fun _ room => room
      | false => exact (definition_takes m less).bind fun _ => .answer fun _ room => room

theorem document_idles : Idles bound maxDepth Counted.document document := by
  refine .bind (.lift (.sight _)) fun start => ?_
  have rest : Idles bound maxDepth _ _ := definitions_idles.bind fun definitions =>
    .bind (.lift (spanFrom_straight start)) fun span => .pure (b := (⟨definitions, span⟩ : Document))
  rwa [bind_assoc] at rest

end GraphQL.Parser
