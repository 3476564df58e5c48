import GraphQL.Ast.Node
import GraphQL.Schema.Fields

/-! The types in scope at the nodes of a walk. A scope is told of every node that the
walk enters and leaves, and keeps what the enclosing nodes have brought in. -/
namespace GraphQL.Validation
open Ast (Node)

/-- Innermost entries come first; an entry is `none` where the schema does not know. -/
structure Scope where
  types : List (Option TypeRef) := []
  parents : List (Option TypeDef) := []
  inputs : List (Option TypeRef) := []
  fields : List (Option Field) := []
  directive : Option DirectiveDef := none
  argument : Option InputValue := none

namespace Scope

/-- The output type of the innermost field, fragment or operation. -/
def type (scope : Scope) : Option TypeRef := scope.types.head?.join

/-- The composite type whose selections are walked. -/
def parent (scope : Scope) : Option TypeDef := scope.parents.head?.join

/-- The type expected of the current argument, list item, object field or default value. -/
def input (scope : Scope) : Option TypeRef := scope.inputs.head?.join

def field (scope : Scope) : Option Field := scope.fields.head?.join

/-- The type of a type condition. -/
def conditionType (schema : Schema) (condition : Ast.NamedType) : Option TypeRef :=
  ((schema.type? condition.name.text).filter TypeDef.isOutput).map fun type => .named type.name

/-- The declared argument of a name: of the directive that is being walked, else of the field. -/
def declaredArgument (scope : Scope) (name : String) : Option InputValue :=
  match scope.directive, scope.field with
  | some directive, _ => directive.argument? name
  | none, some field => field.arguments.find? name
  | none, none => none

/-- The type expected of the items of a list; an item stands for a list of one. -/
def itemType (type : TypeRef) : TypeRef := type.item?.getD type.nullable

def inputField? (schema : Schema) (type : TypeRef) (name : String) : Option InputValue :=
  match schema.named? type with
  | some (.inputObject input) => input.fields.find? name
  | _ => none

def pushType (scope : Scope) (type : Option TypeRef) : Scope :=
  { scope with types := type :: scope.types }

def pushInput (scope : Scope) (type : Option TypeRef) : Scope :=
  { scope with inputs := type :: scope.inputs }

def enter (schema : Schema) (scope : Scope) : Node → Scope
  | .selectionSet _ =>
      { scope with
        parents := (scope.type.bind schema.named?).filter TypeDef.isComposite :: scope.parents }
  | .field field =>
      let definition := scope.parent.bind fun parent => schema.field? parent field.name.text
      { scope.pushType (definition.map Field.type) with fields := definition :: scope.fields }
  | .directive directive => { scope with directive := schema.directive? directive.name.text }
  | .operation operation =>
      scope.pushType ((schema.rootType? operation.operation).map fun root => .named root.name)
  | .inline inline =>
      match inline.typeCondition with
      | some condition => scope.pushType (conditionType schema condition)
      | none => scope.pushType (scope.type.map fun type => .named type.innermost)
  | .fragment fragment => scope.pushType (conditionType schema fragment.typeCondition)
  | .variableDefinition definition =>
      scope.pushInput ((schema.typeOf? definition.type).filter fun type =>
        (schema.named? type).any TypeDef.isInput)
  | .argument argument =>
      let declared := scope.declaredArgument argument.name.text
      { scope.pushInput (declared.map InputValue.type) with argument := declared }
  | .value (.list _ _) => scope.pushInput (scope.input.map itemType)
  | .objectField field =>
      scope.pushInput ((scope.input.bind fun type =>
        inputField? schema type field.name.text).map InputValue.type)
  | _ => scope

def leave (scope : Scope) : Node → Scope
  | .selectionSet _ => { scope with parents := scope.parents.tail }
  | .field _ => { scope with types := scope.types.tail, fields := scope.fields.tail }
  | .directive _ => { scope with directive := none }
  | .operation _ | .inline _ | .fragment _ => { scope with types := scope.types.tail }
  | .variableDefinition _ | .value (.list _ _) | .objectField _ =>
      { scope with inputs := scope.inputs.tail }
  | .argument _ => { scope with argument := none, inputs := scope.inputs.tail }
  | _ => scope

end Scope
end GraphQL.Validation
