import Mathlib.Logic.Relation
import GraphQL.Ast.Fragments
import GraphQL.Proofs.Ast.Fields

/-! Spreads as they are written, and the graph that they make of the fragments of a document. A
fragment leads to another one by any spread in it, also below fields and inline fragments. -/
namespace GraphQL.Ast

/-- A spread is written in a selection set, at any depth. -/
inductive SelectionSet.Holds (spread : FragmentSpread) : SelectionSet → Prop
  | here {set : SelectionSet} : .spread spread ∈ set.selections → SelectionSet.Holds spread set
  | field {set inner : SelectionSet} {field : Field} : .field field ∈ set.selections →
      field.selectionSet = some inner → SelectionSet.Holds spread inner →
      SelectionSet.Holds spread set
  | inline {set : SelectionSet} {inline : InlineFragment} : .inline inline ∈ set.selections →
      SelectionSet.Holds spread inline.selectionSet → SelectionSet.Holds spread set

/-- A spread is written in the first fragment of a name. -/
def Document.Leaves (document : Document) (name : String) (spread : FragmentSpread) : Prop :=
  ∃ fragment, document.fragment? name = some fragment ∧ fragment.selectionSet.Holds spread

/-- Spreads that lead from a name to a name, each of them written in the fragment that the one before
it names. -/
inductive Document.Walk (document : Document) : String → List FragmentSpread → String → Prop
  | stay (name : String) : Document.Walk document name [] name
  | step {name last : String} {spread : FragmentSpread} {rest : List FragmentSpread} :
      document.Leaves name spread → Document.Walk document spread.target rest last →
      Document.Walk document name (spread :: rest) last

/-- An operation leads to a fragment name: by a spread in it, or by a spread in the first fragment of
such a name. -/
inductive Document.Reaches (document : Document) (operation : OperationDefinition) : String → Prop
  | own {spread : FragmentSpread} : operation.selectionSet.Holds spread →
      Document.Reaches document operation spread.target
  | through {name : String} {spread : FragmentSpread} : Document.Reaches document operation name →
      document.Leaves name spread → Document.Reaches document operation spread.target

/-- Spreads that lead from a fragment back to it, and enter no fragment twice. -/
structure Document.Cycle (document : Document) (name : String) (spreads : List FragmentSpread) :
    Prop where
  moves : spreads ≠ []
  walk : document.Walk name spreads name
  simple : (spreads.map FragmentSpread.target).Nodup

section Holds
variable {spread : FragmentSpread}

theorem mem_spreadsBelow {selections : List Selection} :
    spread ∈ Selection.spreadsBelow selections ↔
      ∃ selection ∈ selections, spread ∈ selection.spreadsInside := by
  induction selections with
  | nil => simp [Selection.spreadsBelow]
  | cons first rest ih =>
    rw [Selection.spreadsBelow, List.mem_append, ih]
    simp [or_comm]

mutual

theorem holds_of_mem : (set : SelectionSet) → spread ∈ set.spreads → set.Holds spread
  | ⟨selections, span⟩ => by
    intro member
    rw [SelectionSet.spreads, List.mem_append] at member
    rcases member with member | member
    · obtain ⟨selection, inside, found⟩ := List.mem_filterMap.1 member
      cases selection with
      | spread other =>
        cases found
        exact .here inside
      | field _ => cases found
      | inline _ => cases found
    · rcases holds_of_below selections member with ⟨field, inner, inside, below, holds⟩ |
        ⟨inline, inside, holds⟩
      · exact .field inside below holds
      · exact .inline inside holds

theorem holds_of_below : (selections : List Selection) → spread ∈ Selection.spreadsBelow selections →
    (∃ field inner, .field field ∈ selections ∧ field.selectionSet = some inner ∧
      inner.Holds spread) ∨
    ∃ inline, .inline inline ∈ selections ∧ inline.selectionSet.Holds spread
  | [] => fun member => by
    rw [Selection.spreadsBelow] at member
    cases member
  | selection :: rest => fun member => by
    rw [Selection.spreadsBelow, List.mem_append] at member
    rcases member with member | member
    · rcases holds_of_below rest member with ⟨field, inner, inside, below⟩ | ⟨inline, inside, holds⟩
      · exact .inl ⟨field, inner, List.mem_cons_of_mem _ inside, below⟩
      · exact .inr ⟨inline, List.mem_cons_of_mem _ inside, holds⟩
    · match selection with
      | .field ⟨_, _, _, _, none, _⟩ =>
        rw [Selection.spreadsInside] at member
        · cases member
        all_goals nofun
      | .field ⟨_, _, _, _, some inner, _⟩ =>
        rw [Selection.spreadsInside] at member
        exact .inl ⟨_, inner, List.mem_cons_self, rfl, holds_of_mem inner member⟩
      | .spread _ =>
        rw [Selection.spreadsInside] at member
        · cases member
        all_goals nofun
      | .inline ⟨_, _, inner, _⟩ =>
        rw [Selection.spreadsInside] at member
        exact .inr ⟨_, List.mem_cons_self, holds_of_mem inner member⟩

end

/-- The spreads of a set are those that are written in it. -/
theorem mem_spreads {set : SelectionSet} : spread ∈ set.spreads ↔ set.Holds spread := by
  constructor
  · exact holds_of_mem set
  · intro holds
    induction holds with
    | @here set inside =>
      obtain ⟨selections, span⟩ := set
      rw [SelectionSet.spreads]
      exact List.mem_append_left _ (List.mem_filterMap.2 ⟨_, inside, rfl⟩)
    | @field set inner field inside below _ ih =>
      obtain ⟨selections, span⟩ := set
      obtain ⟨nickname, name, arguments, directives, found, span⟩ := field
      obtain rfl : found = some inner := below
      rw [SelectionSet.spreads]
      refine List.mem_append_right _ (mem_spreadsBelow.2 ⟨_, inside, ?_⟩)
      rwa [Selection.spreadsInside]
    | @inline set inline inside _ ih =>
      obtain ⟨selections, span⟩ := set
      obtain ⟨condition, directives, inner, span⟩ := inline
      rw [SelectionSet.spreads]
      refine List.mem_append_right _ (mem_spreadsBelow.2 ⟨_, inside, ?_⟩)
      rwa [Selection.spreadsInside]

theorem leaves_iff {document : Document} {name : String} : document.Leaves name spread ↔
    ∃ fragment, document.fragment? name = some fragment ∧ spread ∈ fragment.selectionSet.spreads := by
  simp only [Document.Leaves, mem_spreads]

end Holds

section Walk
variable {document : Document} {name last : String} {spread : FragmentSpread}
  {spreads : List FragmentSpread}

theorem Document.Walk.concat (walk : document.Walk name spreads last)
    (leaves : document.Leaves last spread) :
    document.Walk name (spreads ++ [spread]) spread.target := by
  induction walk with
  | stay => exact .step leaves (.stay _)
  | step first _ ih => exact .step first (ih leaves)

/-- A walk ends at the name that its last spread names. -/
theorem Document.Walk.last_eq (walk : document.Walk name spreads last) :
    (spreads.map FragmentSpread.target).getLastD name = last := by
  induction walk with
  | stay => rfl
  | step _ _ ih => rwa [List.map_cons, List.getLastD_cons]

end Walk
end GraphQL.Ast

/-! The variables that are used in a document, as they are written: in literals, below lists and
objects, which stand in the arguments of fields and directives and as defaults. A walk comes to each
once. -/
namespace GraphQL.Ast

section Written

mutual

/-- The variables in a literal. -/
def Value.uses : Value → List Variable
  | .var target => [target]
  | .list literals _ => Value.usesIn literals
  | .object fields _ => ObjectField.usesIn fields
  | _ => []

def Value.usesIn : List Value → List Variable
  | [] => []
  | literal :: rest => literal.uses ++ Value.usesIn rest

def ObjectField.usesIn : List ObjectField → List Variable
  | [] => []
  | ⟨_, literal, _⟩ :: rest => literal.uses ++ ObjectField.usesIn rest

end

def Argument.uses (argument : Argument) : List Variable := argument.value.uses

def Directive.uses (directive : Directive) : List Variable :=
  directive.arguments.flatMap Argument.uses

def FragmentSpread.uses (spread : FragmentSpread) : List Variable :=
  spread.directives.flatMap Directive.uses

mutual

/-- The variables in a selection set. Fragments that it spreads are not looked into. -/
def SelectionSet.uses : SelectionSet → List Variable
  | ⟨selections, _⟩ => Selection.usesIn selections

def Selection.usesIn : List Selection → List Variable
  | [] => []
  | selection :: rest => selection.uses ++ Selection.usesIn rest

def Selection.uses : Selection → List Variable
  | .field ⟨_, _, arguments, directives, none, _⟩ =>
      arguments.flatMap Argument.uses ++ directives.flatMap Directive.uses
  | .field ⟨_, _, arguments, directives, some set, _⟩ =>
      arguments.flatMap Argument.uses ++ directives.flatMap Directive.uses ++ set.uses
  | .spread spread => spread.uses
  | .inline ⟨_, directives, set, _⟩ => directives.flatMap Directive.uses ++ set.uses

end

/-- The variables in the default of a variable. -/
def VariableDefinition.uses (definition : VariableDefinition) : List Variable :=
  definition.defaultValue.toList.flatMap Value.uses

def OperationDefinition.uses (operation : OperationDefinition) : List Variable :=
  operation.variableDefinitions.flatMap VariableDefinition.uses ++
    operation.directives.flatMap Directive.uses ++ operation.selectionSet.uses

def FragmentDefinition.uses (fragment : FragmentDefinition) : List Variable :=
  fragment.directives.flatMap Directive.uses ++ fragment.selectionSet.uses

end Written

/-- The variable that stands in the place of a value. -/
def Node.variable? : Node → Option Variable
  | .value (.var target) => some target
  | _ => none

/-- The variables that the nodes of a tree use. -/
def Tree.uses (tree : Tree) : List Variable := tree.preorder.filterMap Node.variable?

def Tree.usesIn (trees : List Tree) : List Variable :=
  (Tree.preorderAll trees).filterMap Node.variable?

namespace Tree

section Trees

theorem uses_node {root : Node} (none : root.variable? = none) (parts : List Tree) :
    (Tree.node root parts).uses = usesIn parts := by
  rw [uses, preorder, List.filterMap_cons_none none, usesIn]

@[simp] theorem usesIn_nil : usesIn [] = [] := rfl

@[simp] theorem usesIn_cons (tree : Tree) (rest : List Tree) :
    usesIn (tree :: rest) = tree.uses ++ usesIn rest := by
  rw [usesIn, preorderAll, List.filterMap_append, uses, usesIn]

@[simp] theorem usesIn_append (first second : List Tree) :
    usesIn (first ++ second) = usesIn first ++ usesIn second := by
  rw [usesIn, preorderAll_append, List.filterMap_append, usesIn, usesIn]

theorem usesIn_map {α : Type} {f : α → Tree} {written : α → List Variable}
    (each : ∀ item, (f item).uses = written item) (items : List α) :
    usesIn (items.map f) = items.flatMap written := by
  induction items with
  | nil => rfl
  | cons item rest ih => rw [List.map_cons, usesIn_cons, each, ih, List.flatMap_cons]

end Trees

mutual

@[simp] theorem ofValue_uses : (literal : Value) → (ofValue literal).uses = literal.uses
  | .list literals _ => by
    rw [ofValue, uses_node rfl, ofValues_uses literals, Value.uses]
  | .object fields _ => by
    rw [ofValue, uses_node rfl, ofObjectFields_uses fields, Value.uses]
  | .var _ | .int _ _ | .float _ _ | .string _ _ | .boolean _ _ | .null _ | .enum _ _ => rfl

theorem ofValues_uses : (literals : List Value) →
    usesIn (ofValues literals) = Value.usesIn literals
  | [] => rfl
  | literal :: rest => by
    rw [ofValues, usesIn_cons, ofValue_uses literal, ofValues_uses rest,
      Value.usesIn]

theorem ofObjectFields_uses : (fields : List ObjectField) →
    usesIn (ofObjectFields fields) = ObjectField.usesIn fields
  | [] => rfl
  | ⟨name, literal, span⟩ :: rest => by
    rw [ofObjectFields, usesIn_cons, ofObjectField, uses_node rfl, usesIn_cons,
      ofValue_uses literal, ofObjectFields_uses rest, ObjectField.usesIn,
      usesIn_nil, List.append_nil]

end

@[simp] theorem ofType_uses (type : TypeAnnotation) : (ofType type).uses = [] := by
  induction type with
  | named type => rfl
  | list item span ih =>
    rw [ofType, uses_node rfl, usesIn_cons, ih, usesIn_nil]
    rfl
  | nonNull type span ih =>
    rw [ofType, uses_node rfl, usesIn_cons, ih, usesIn_nil]
    rfl

@[simp] theorem ofArgument_uses (argument : Argument) :
    (ofArgument argument).uses = argument.uses := by
  rw [ofArgument, uses_node rfl]
  simp [Argument.uses]

@[simp] theorem ofDirective_uses (directive : Directive) :
    (ofDirective directive).uses = directive.uses := by
  rw [ofDirective, uses_node rfl, usesIn_map ofArgument_uses, Directive.uses]

theorem ofDirectives_uses (directives : List Directive) :
    usesIn (directives.map ofDirective) = directives.flatMap Directive.uses :=
  usesIn_map ofDirective_uses directives

theorem ofVariableDefinition_uses (definition : VariableDefinition) :
    (ofVariableDefinition definition).uses = definition.uses := by
  rw [ofVariableDefinition, uses_node rfl, usesIn_cons, usesIn_cons, ofType_uses,
    usesIn_map ofValue_uses]
  rfl

mutual

theorem ofSet_uses : (set : SelectionSet) → (ofSet set).uses = set.uses
  | ⟨selections, _⟩ => by
    rw [ofSet, uses_node rfl, ofSelections_uses selections, SelectionSet.uses]

theorem ofSelections_uses : (selections : List Selection) →
    usesIn (ofSelections selections) = Selection.usesIn selections
  | [] => rfl
  | selection :: rest => by
    rw [ofSelections, usesIn_cons, ofSelection_uses selection, ofSelections_uses rest,
      Selection.usesIn]

theorem ofSelection_uses : (selection : Selection) →
    (ofSelection selection).uses = selection.uses
  | .field ⟨_, _, arguments, directives, none, _⟩ => by
    rw [ofSelection, ofField, uses_node rfl, usesIn_append, usesIn_append,
      usesIn_map ofArgument_uses, ofDirectives_uses, ofOptionalSet, usesIn_nil,
      List.append_nil, Selection.uses]
  | .field ⟨_, _, arguments, directives, some set, _⟩ => by
    rw [ofSelection, ofField, uses_node rfl, usesIn_append, usesIn_append,
      usesIn_map ofArgument_uses, ofDirectives_uses, ofOptionalSet, usesIn_cons,
      ofSet_uses set, usesIn_nil, List.append_nil, Selection.uses]
  | .spread spread => by
    rw [ofSelection, ofSpread, uses_node rfl, ofDirectives_uses, Selection.uses,
      FragmentSpread.uses]
  | .inline ⟨condition, directives, set, _⟩ => by
    rw [ofSelection, ofInline, uses_node rfl, usesIn_append, usesIn_append,
      ofDirectives_uses, usesIn_cons, ofSet_uses set, usesIn_nil, List.append_nil,
      Selection.uses]
    cases condition <;> rfl

end

/-- A walk of an operation comes to the variables that are written in it. -/
theorem ofOperation_uses (operation : OperationDefinition) :
    (ofOperation operation).uses = operation.uses := by
  rw [ofOperation, uses_node rfl, usesIn_append, usesIn_append,
    usesIn_map ofVariableDefinition_uses, ofDirectives_uses, usesIn_cons,
    ofSet_uses, usesIn_nil, List.append_nil, OperationDefinition.uses]

/-- A walk of a fragment comes to the variables that are written in it. -/
theorem ofFragment_uses (fragment : FragmentDefinition) :
    (ofFragment fragment).uses = fragment.uses := by
  rw [ofFragment, uses_node rfl, usesIn_append, usesIn_cons, ofDirectives_uses,
    usesIn_cons, ofSet_uses, usesIn_nil, List.append_nil, FragmentDefinition.uses]
  rfl

end Tree
end GraphQL.Ast
