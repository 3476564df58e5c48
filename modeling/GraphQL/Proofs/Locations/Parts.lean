import Mathlib.Logic.Relation
import GraphQL.Ast.Node
import GraphQL.Proofs.Grammar.Phrases
import GraphQL.Proofs.Locations.Unlocated

/-! The parts of documents that have a span: the nodes that walks stop at, and what walks pass over.
The children of a node are some of its parts, in the same order. -/
namespace GraphQL
open Ast

/-- A part with a span: a node that walks stop at, or a name or a member of a definition, which they
pass over. -/
inductive Spanned where
  | node (of : Node)
  | name (of : Name)
  | rootOperation (of : OperationTypeDefinition)
  | input (of : InputValueDefinition)
  | fieldDefinition (of : FieldDefinition)
  | enumValue (of : EnumValueDefinition)

namespace Spanned

def span : Spanned → Option Span
  | node of => of.span
  | name of => of.span
  | rootOperation of => of.span
  | input of => of.span
  | fieldDefinition of => of.span
  | enumValue of => of.span

def value (of : Value) : Spanned := node (.value of)

def type (of : TypeAnnotation) : Spanned := node (.ofType of)

def directive (of : Directive) : Spanned := node (.directive of)

def selection : Selection → Spanned
  | .field of => node (.field of)
  | .spread of => node (.spread of)
  | .inline of => node (.inline of)

def definition : Definition → Spanned
  | .operation of => node (.operation of)
  | .fragment of => node (.fragment of)
  | .typeSystem of => node (.typeSystem of)

/-- The parts of a type system definition, which is a leaf for walks. -/
def ofTypeSystem : TypeSystemDefinition → List Spanned
  | .schema of => of.directives.map directive ++ of.operationTypes.map rootOperation
  | .type (.scalar of) => name of.name :: of.directives.map directive
  | .type (.object of) =>
      name of.name :: (of.interfaces.map (fun type => node (.namedType type)) ++
        (of.directives.map directive ++ of.fields.map fieldDefinition))
  | .type (.interface of) =>
      name of.name :: (of.directives.map directive ++ of.fields.map fieldDefinition)
  | .type (.union of) =>
      name of.name :: (of.directives.map directive ++
        of.types.map fun type => node (.namedType type))
  | .type (.enum of) => name of.name :: (of.directives.map directive ++ of.values.map enumValue)
  | .type (.inputObject of) => name of.name :: (of.directives.map directive ++ of.fields.map input)
  | .extension of => [node (.typeSystem (.type (.object of.definition)))]
  | .directive of => name of.name :: (of.arguments.map input ++ of.locations.map name)

/-- The parts of a part, in document order. -/
def inner : Spanned → List Spanned
  | name _ => []
  | rootOperation of => [node (.namedType of.type)]
  | input of =>
      name of.name :: type of.type ::
        (of.defaultValue.toList.map value ++ of.directives.map directive)
  | fieldDefinition of =>
      name of.name :: (of.arguments.map input ++ type of.type :: of.directives.map directive)
  | enumValue of => name of.name :: of.directives.map directive
  | node (.document of) => of.definitions.map definition
  | node (.operation of) =>
      of.name.toList.map name ++
        (of.variableDefinitions.map (fun definition => node (.variableDefinition definition)) ++
          (of.directives.map directive ++ [node (.selectionSet of.selectionSet)]))
  | node (.variableDefinition of) =>
      node (.var of.target) :: type of.type :: of.defaultValue.toList.map value
  | node (.var of) => [name of.name]
  | node (.selectionSet ⟨selections, _⟩) => selections.map selection
  | node (.field ⟨nickname, label, arguments, directives, selections, _⟩) =>
      nickname.toList.map name ++ name label :: (arguments.map (fun of => node (.argument of)) ++
        (directives.map directive ++ selections.toList.map fun of => node (.selectionSet of)))
  | node (.argument of) => [name of.name, value of.value]
  | node (.spread of) => name of.name :: of.directives.map directive
  | node (.inline ⟨condition, directives, selections, _⟩) =>
      condition.toList.map (fun type => node (.namedType type)) ++
        (directives.map directive ++ [node (.selectionSet selections)])
  | node (.fragment of) =>
      name of.name :: node (.namedType of.typeCondition) ::
        (of.directives.map directive ++ [node (.selectionSet of.selectionSet)])
  | node (.value (.var of)) => [name of.name]
  | node (.value (.list values _)) => values.map value
  | node (.value (.object fields _)) => fields.map fun field => node (.objectField field)
  | node (.value _) => []
  | node (.objectField ⟨label, of, _⟩) => [name label, value of]
  | node (.directive of) => name of.name :: of.arguments.map fun of => node (.argument of)
  | node (.namedType of) => [name of.name]
  | node (.listType item _) => [type item]
  | node (.nonNullType of _) => [type of]
  | node (.typeSystem of) => ofTypeSystem of

/-- The second part is the first, or a part of it at any depth. -/
def Within : Spanned → Spanned → Prop :=
  Relation.ReflTransGen fun outer part => part ∈ outer.inner

end Spanned

namespace Ast.Tree

theorem node_parts (root : Node) (parts : List Tree) : (node root parts).parts = parts := rfl

theorem ofValue_root (of : Value) : (ofValue of).root = .value of := by cases of <;> rfl

theorem ofObjectField_root (of : ObjectField) : (ofObjectField of).root = .objectField of := by
  cases of
  rfl

theorem ofType_root (of : TypeAnnotation) : (ofType of).root = .ofType of := by
  cases of <;> rfl

theorem ofSet_root (of : SelectionSet) : (ofSet of).root = .selectionSet of := by
  cases of
  rfl

theorem ofSelection_root (of : Selection) :
    Spanned.node (ofSelection of).root = .selection of := by
  rcases of with of | of | of
  · cases of
    rfl
  · rfl
  · cases of
    rfl

theorem ofDefinition_root (of : Definition) :
    Spanned.node (ofDefinition of).root = .definition of := by
  cases of <;> rfl

theorem ofValues_eq (values : List Value) : ofValues values = values.map ofValue := by
  induction values with
  | nil => rfl
  | cons value rest ih => rw [ofValues, ih, List.map_cons]

theorem ofObjectFields_eq (fields : List ObjectField) :
    ofObjectFields fields = fields.map ofObjectField := by
  induction fields with
  | nil => rfl
  | cons field rest ih => rw [ofObjectFields, ih, List.map_cons]

theorem ofSelections_eq (selections : List Selection) :
    ofSelections selections = selections.map ofSelection := by
  induction selections with
  | nil => rfl
  | cons selection rest ih => rw [ofSelections, ih, List.map_cons]

theorem ofOptionalSet_eq (selections : Option SelectionSet) :
    ofOptionalSet selections = selections.toList.map ofSet := by
  cases selections <;> rfl

/-- The parts at the roots of trees. -/
def partsAt (trees : List Tree) : List Spanned := trees.map fun tree => .node tree.root

variable {α : Type}

theorem partsAt_map {tree : α → Tree} {part : α → Spanned}
    (same : ∀ a, Spanned.node (tree a).root = part a) (values : List α) :
    partsAt (values.map tree) = values.map part := by
  rw [partsAt, List.map_map]
  exact List.map_congr_left fun a _ => same a

theorem partsAt_append (first second : List Tree) :
    partsAt (first ++ second) = partsAt first ++ partsAt second := List.map_append

theorem partsAt_cons (tree : Tree) (trees : List Tree) :
    partsAt (tree :: trees) = .node tree.root :: partsAt trees := rfl

theorem partsAt_directives (of : List Directive) :
    partsAt (of.map ofDirective) = of.map Spanned.directive := partsAt_map (fun _ => rfl) of

theorem partsAt_arguments (of : List Argument) :
    partsAt (of.map ofArgument) = of.map fun argument => .node (.argument argument) :=
  partsAt_map (fun _ => rfl) of

end Ast.Tree

namespace Spanned
open Ast.Tree

/-- The parts of a node that walks stop at are some of its parts, in the same order. -/
theorem children_sublist (node : Node) :
    (node.children.map Spanned.node).Sublist (Spanned.node node).inner := by
  have trees : node.children.map Spanned.node = partsAt node.tree.parts := by
    rw [Node.children, partsAt, List.map_map]
    rfl
  rw [trees]
  have value (of : Value) : Spanned.node (ofValue of).root = .value of :=
    congrArg Spanned.node (ofValue_root of)
  have type (of : TypeAnnotation) : Spanned.node (ofType of).root = .type of :=
    congrArg Spanned.node (ofType_root of)
  have set (of : SelectionSet) : Spanned.node (ofSet of).root = .node (.selectionSet of) :=
    congrArg Spanned.node (ofSet_root of)
  cases node with
  | document of =>
    rw [Node.tree, ofDocument, node_parts, partsAt_map ofDefinition_root]
    exact .refl _
  | operation of =>
    rw [Node.tree, ofOperation, node_parts, partsAt_append, partsAt_append, partsAt_directives,
      partsAt_map (fun _ => rfl), partsAt_cons, set, List.append_assoc]
    exact List.sublist_append_right ..
  | variableDefinition of =>
    rw [Node.tree, ofVariableDefinition, node_parts, partsAt_cons, partsAt_cons, type,
      partsAt_map value]
    exact .refl _
  | selectionSet of =>
    obtain ⟨selections, span⟩ := of
    rw [Node.tree, ofSet, node_parts, ofSelections_eq, partsAt_map ofSelection_root]
    exact .refl _
  | field of =>
    obtain ⟨nickname, label, arguments, directives, selections, span⟩ := of
    rw [Node.tree, ofField, node_parts, ofOptionalSet_eq, partsAt_append, partsAt_append,
      partsAt_arguments, partsAt_directives, partsAt_map set, List.append_assoc]
    exact (List.sublist_cons_self ..).trans (List.sublist_append_right ..)
  | argument of =>
    rw [Node.tree, ofArgument, node_parts, partsAt_cons, value]
    exact List.sublist_cons_self ..
  | spread of =>
    rw [Node.tree, ofSpread, node_parts, partsAt_directives]
    exact List.sublist_cons_self ..
  | inline of =>
    obtain ⟨condition, directives, selections, span⟩ := of
    rw [Node.tree, ofInline, node_parts, partsAt_append, partsAt_append, partsAt_directives,
      partsAt_map (fun _ => rfl), partsAt_cons, set, List.append_assoc]
    exact .refl _
  | fragment of =>
    rw [Node.tree, ofFragment, node_parts, partsAt_append, partsAt_cons, partsAt_directives,
      partsAt_cons, set]
    exact List.sublist_cons_self ..
  | value of =>
    cases of with
    | list values span =>
      rw [Node.tree, ofValue, node_parts, ofValues_eq, partsAt_map value]
      exact .refl _
    | object fields span =>
      rw [Node.tree, ofValue, node_parts, ofObjectFields_eq,
        partsAt_map fun of => congrArg Spanned.node (ofObjectField_root of)]
      exact .refl _
    | _ => exact List.nil_sublist _
  | objectField of =>
    obtain ⟨label, held, span⟩ := of
    rw [Node.tree, ofObjectField, node_parts, partsAt_cons, value]
    exact List.sublist_cons_self ..
  | directive of =>
    rw [Node.tree, ofDirective, node_parts, partsAt_arguments]
    exact List.sublist_cons_self ..
  | listType item span =>
    rw [Node.tree, Tree.ofType, node_parts, partsAt_cons, type]
    exact .refl _
  | nonNullType of span =>
    rw [Node.tree, Tree.ofType, node_parts, partsAt_cons, type]
    exact .refl _
  | var of | namedType of | typeSystem of => exact List.nil_sublist _

/-! Parts without locations -/

def unlocated : Spanned → Spanned
  | name of => name of.unlocated
  | rootOperation of => rootOperation of.unlocated
  | input of => input of.unlocated
  | fieldDefinition of => fieldDefinition of.unlocated
  | enumValue of => enumValue of.unlocated
  | node (.document of) => node (.document of.unlocated)
  | node (.operation of) => node (.operation of.unlocated)
  | node (.variableDefinition of) => node (.variableDefinition of.unlocated)
  | node (.var of) => node (.var of.unlocated)
  | node (.selectionSet of) => node (.selectionSet of.unlocated)
  | node (.field of) => node (.field of.unlocated)
  | node (.argument of) => node (.argument of.unlocated)
  | node (.spread of) => node (.spread of.unlocated)
  | node (.inline of) => node (.inline of.unlocated)
  | node (.fragment of) => node (.fragment of.unlocated)
  | node (.value of) => node (.value of.unlocated)
  | node (.objectField of) => node (.objectField of.unlocated)
  | node (.directive of) => node (.directive of.unlocated)
  | node (.namedType of) => node (.namedType of.unlocated)
  | node (.listType item _) => node (.listType item.unlocated none)
  | node (.nonNullType of _) => node (.nonNullType of.unlocated none)
  | node (.typeSystem of) => node (.typeSystem of.unlocated)

theorem span_unlocated (part : Spanned) : part.unlocated.span = none := by
  cases part with
  | node of =>
    cases of with
    | selectionSet of | field of | inline of | objectField of =>
      cases of
      rfl
    | value of => cases of <;> rfl
    | typeSystem of => rcases of with of | (of | of | of | of | of | of) | of | of <;> rfl
    | _ => rfl
  | _ => rfl

theorem type_unlocated (of : TypeAnnotation) : type of.unlocated = (type of).unlocated := by
  cases of <;> rfl

theorem selection_unlocated (of : Selection) :
    selection of.unlocated = (selection of).unlocated := by
  cases of <;> rfl

theorem definition_unlocated (of : Definition) :
    definition of.unlocated = (definition of).unlocated := by
  cases of <;> rfl

theorem typeSystem_unlocated (of : TypeSystemDefinition) :
    ofTypeSystem of.unlocated = (ofTypeSystem of).map unlocated := by
  rcases of with of | (of | of | of | of | of | of) | of | of <;>
  · simp only [ofTypeSystem, TypeSystemDefinition.unlocated, SchemaDefinition.unlocated,
      TypeDefinition.unlocated, ScalarTypeDefinition.unlocated, ObjectTypeDefinition.unlocated,
      InterfaceTypeDefinition.unlocated, UnionTypeDefinition.unlocated,
      EnumTypeDefinition.unlocated, InputObjectTypeDefinition.unlocated, TypeExtension.unlocated,
      DirectiveDefinition.unlocated, List.map_append, List.map_cons, List.map_map]
    rfl

/-- The parts of a part without locations are its parts, without locations. -/
theorem inner_unlocated (part : Spanned) : part.unlocated.inner = part.inner.map unlocated := by
  cases part with
  | name of | rootOperation of => rfl
  | input of =>
    show inner (input of.unlocated) = _
    simp only [inner, InputValueDefinition.unlocated, type_unlocated, Option.toList_map,
      List.map_append, List.map_cons, List.map_map]
    rfl
  | fieldDefinition of =>
    show inner (fieldDefinition of.unlocated) = _
    simp only [inner, FieldDefinition.unlocated, type_unlocated, List.map_append, List.map_cons,
      List.map_map]
    rfl
  | enumValue of =>
    show inner (enumValue of.unlocated) = _
    simp only [inner, EnumValueDefinition.unlocated, List.map_cons, List.map_map]
    rfl
  | node of =>
    cases of with
    | document of =>
      show inner (node (.document of.unlocated)) = _
      simp only [inner, Document.unlocated, List.map_map]
      exact List.map_congr_left fun of _ => definition_unlocated of
    | operation of =>
      show inner (node (.operation of.unlocated)) = _
      simp only [inner, OperationDefinition.unlocated, Option.toList_map, List.map_append,
        List.map_map]
      rfl
    | variableDefinition of =>
      show inner (node (.variableDefinition of.unlocated)) = _
      simp only [inner, VariableDefinition.unlocated, type_unlocated, Option.toList_map,
        List.map_cons, List.map_map]
      rfl
    | selectionSet of =>
      obtain ⟨selections, span⟩ := of
      show inner (node (.selectionSet ⟨unlocatedSelections selections, none⟩)) = _
      simp only [inner, unlocatedSelections_eq, List.map_map]
      exact List.map_congr_left fun of _ => selection_unlocated of
    | field of =>
      obtain ⟨nickname, label, arguments, directives, selections, span⟩ := of
      show inner (node (.field (Field.unlocated _))) = _
      simp only [inner, Field.unlocated, unlocatedSet?_eq, Option.toList_map, List.map_append,
        List.map_cons, List.map_map]
      rfl
    | inline of =>
      obtain ⟨condition, directives, selections, span⟩ := of
      show inner (node (.inline (InlineFragment.unlocated _))) = _
      simp only [inner, InlineFragment.unlocated, Option.toList_map, List.map_append, List.map_map]
      rfl
    | spread of =>
      show inner (node (.spread of.unlocated)) = _
      simp only [inner, FragmentSpread.unlocated, List.map_cons, List.map_map]
      rfl
    | fragment of =>
      show inner (node (.fragment of.unlocated)) = _
      simp only [inner, FragmentDefinition.unlocated, List.map_append, List.map_cons, List.map_map]
      rfl
    | value of =>
      cases of with
      | list values span =>
        show inner (node (.value (.list (unlocatedValues values) none))) = _
        simp only [inner, unlocatedValues_eq, List.map_map]
        rfl
      | object fields span =>
        show inner (node (.value (.object (unlocatedFields fields) none))) = _
        simp only [inner, unlocatedFields_eq, List.map_map]
        rfl
      | _ => rfl
    | objectField of =>
      cases of
      rfl
    | directive of =>
      show inner (node (.directive of.unlocated)) = _
      simp only [inner, Directive.unlocated, List.map_cons, List.map_map]
      rfl
    | typeSystem of => exact typeSystem_unlocated of
    | listType of | nonNullType of => exact congrArg (fun part => [part]) (type_unlocated of)
    | var of | namedType of | argument of => rfl

/-- Nothing is located within a part without locations. -/
theorem within_unlocated {root part : Spanned} (within : root.unlocated.Within part) :
    part.span = none := by
  have bare : ∃ of : Spanned, part = of.unlocated := by
    induction within with
    | refl => exact ⟨root, rfl⟩
    | tail _ member ih =>
      obtain ⟨outer, rfl⟩ := ih
      rw [inner_unlocated] at member
      obtain ⟨of, -, rfl⟩ := List.mem_map.mp member
      exact ⟨of, rfl⟩
  obtain ⟨of, rfl⟩ := bare
  exact span_unlocated of

end Spanned
end GraphQL
