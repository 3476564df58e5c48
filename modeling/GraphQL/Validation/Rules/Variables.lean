import GraphQL.Ast.Fragments
import GraphQL.Ast.Walk
import GraphQL.Coercion.Conformance
import GraphQL.Validation.Rule
import GraphQL.Validation.Scope

/-! The variables that an operation uses, in itself and in the fragments that it reaches. -/
namespace GraphQL.Validation
open Ast (Node OperationDefinition)

/-- A variable in the place of a value, with the type expected there. -/
structure VariableUsage where
  target : Ast.Variable
  expected : Option TypeRef

/-- Collects the variables of the values that a walk enters. -/
def usageVisitor (schema : Schema) : Ast.Visitor (Scope × List VariableUsage) where
  enter node _ := do
    modify fun (scope, usages) =>
      let scope := scope.enter schema node
      match node with
      | .value (.var target) => (scope, usages ++ [⟨target, scope.input⟩])
      | _ => (scope, usages)
    return .proceed
  leave node _ := do
    modify fun (scope, usages) => (scope.leave node, usages)
    return .proceed

/-- The variables used inside a node, fragments that it spreads not included. -/
def usages (schema : Schema) (node : Node) : List VariableUsage :=
  ((node.walk (usageVisitor schema)).run ({}, [])).2.2

/-- The variables used by an operation and by the fragments that it spreads. -/
def allUsages (schema : Schema) (document : Ast.Document) (operation : OperationDefinition) :
    List VariableUsage :=
  usages schema (.operation operation)
    ++ (document.fragmentsOf operation).flatMap fun fragment => usages schema (.fragment fragment)

end GraphQL.Validation

/-! Rules about variables: their definitions, their defaults and their uses. -/
namespace GraphQL.Validation.Rule
open Ast (OperationDefinition VariableDefinition)

/-- A rule that looks at an operation when it is left. -/
def ofOperation (name : String) (check : Schema → Ast.Document → OperationDefinition → List Finding) :
    Rule Finding :=
  ofCheck name (fun _ => .proceed) fun site =>
    match site.node with
    | .operation operation => .report (check site.schema site.document operation)
    | _ => .proceed

def operationName (operation : OperationDefinition) : Option String :=
  operation.name.map Ast.Name.text

def definedNames (operation : OperationDefinition) : List String :=
  operation.variableDefinitions.map fun definition => definition.target.name.text

/-- The variables that an operation uses are defined by it. -/
def noUndefinedVariables : Rule Finding :=
  ofOperation "NoUndefinedVariables" fun schema document operation =>
    ((allUsages schema document operation).filter fun usage =>
      !(definedNames operation).contains usage.target.name.text).map fun usage =>
        .violation (.undefinedVariable usage.target.name.text (operationName operation))
          [usage.target.span, operation.span]

/-- The variables that an operation defines are used by it. -/
def noUnusedVariables : Rule Finding :=
  ofOperation "NoUnusedVariables" fun schema document operation =>
    let used := (allUsages schema document operation).map fun usage => usage.target.name.text
    (operation.variableDefinitions.filter fun definition =>
      !used.contains definition.target.name.text).map fun definition =>
        .violation (.unusedVariable definition.target.name.text (operationName operation))
          [definition.span]

/-- The type that a variable offers: with a default value it is never null. -/
def offeredType (definition : VariableDefinition) (type : TypeRef) : TypeRef :=
  if definition.defaultValue.isSome && !type.isNonNull then .nonNull type else type

/-- Of several definitions of a variable the last one counts. -/
def definitionOf? (operation : OperationDefinition) (name : String) : Option VariableDefinition :=
  operation.variableDefinitions.reverse.find? fun definition => definition.target.name.text == name

def misuse? (schema : Schema) (operation : OperationDefinition) (usage : VariableUsage) :
    Option Finding := do
  let definition ← definitionOf? operation usage.target.name.text
  let expected ← usage.expected
  let type ← schema.typeOf? definition.type
  if schema.isSubtype (offeredType definition type) expected then none
  else
    some (.violation (.misusedVariable usage.target.name.text type expected)
      [definition.span, usage.target.span])

/-- Variables are used where their type is allowed. -/
def variablesInAllowedPosition : Rule Finding :=
  ofOperation "VariablesInAllowedPosition" fun schema document operation =>
    (allUsages schema document operation).filterMap (misuse? schema operation)

def defaultFindings (schema : Schema) (name : String) (type : TypeRef) (value : Ast.Value) :
    List Finding :=
  let useless :=
    if type.isNonNull then [Finding.violation (.uselessDefault name type) [value.span]] else []
  let problems := schema.literalProblems type value
  let invalid :=
    if problems.isEmpty then []
    else [Finding.violation (.invalidDefault name type value problems) [value.span]]
  useless ++ invalid

/-- Defaults have the type of their variable, which must not be non-null. -/
def defaultValuesOfCorrectType : Rule Finding :=
  ofCheck "DefaultValuesOfCorrectType" fun site =>
    match site.node with
    | .variableDefinition definition =>
        match definition.defaultValue, site.scope.input with
        | some value, some type =>
            ⟨defaultFindings site.schema definition.target.name.text type value, .skip⟩
        | _, _ => .skip
    | .selectionSet _ | .fragment _ => .skip
    | _ => .proceed

end GraphQL.Validation.Rule
