import GraphQL.Proofs.Validation.Visits

/-! The nodes of a document around its selections, as the walk enters them, and what the walk has
in scope before. A walk leaves the scope of a node as it has found it. -/
namespace GraphQL.Validation
open Ast (Node Document Call Tree)

namespace Scope

/-- No directive and no argument is being walked. -/
structure Idle (scope : Scope) : Prop where
  directive : scope.directive = none
  argument : scope.argument = none

/-- The scope after a walk is the one before, where that was idle. -/
structure Restored (before after : Scope) : Prop where
  types : after.types = before.types
  parents : after.parents = before.parents
  inputs : after.inputs = before.inputs
  fields : after.fields = before.fields
  directive : before.directive = none → after.directive = none
  argument : before.argument = none → after.argument = none

variable {schema : Schema} {before middle after : Scope}

theorem Restored.refl (scope : Scope) : Restored scope scope := ⟨rfl, rfl, rfl, rfl, id, id⟩

theorem Restored.trans (first : Restored before middle) (second : Restored middle after) :
    Restored before after :=
  ⟨second.types.trans first.types, second.parents.trans first.parents,
    second.inputs.trans first.inputs, second.fields.trans first.fields,
    fun none => second.directive (first.directive none),
    fun none => second.argument (first.argument none)⟩

theorem Restored.eq_of_idle (restored : Restored before after) (idle : before.Idle) :
    after = before := by
  obtain ⟨types, parents, inputs, fields, directive, argument⟩ := restored
  cases before
  cases after
  cases types
  cases parents
  cases inputs
  cases fields
  cases directive idle.directive
  cases argument idle.argument
  cases idle.directive
  cases idle.argument
  rfl

/-- Leaving a node undoes entering it. -/
theorem restored_node (node : Node) (parts : Restored (before.enter schema node) after) :
    Restored before (after.leave node) := by
  obtain ⟨types, parents, inputs, fields, directive, argument⟩ := parts
  cases node with
  | value value =>
    cases value <;>
      exact ⟨by simp [leave, types, enter, pushInput], by simp [leave, parents, enter, pushInput],
        by simp [leave, inputs, enter, pushInput], by simp [leave, fields, enter, pushInput],
        directive, argument⟩
  | inline inline =>
    obtain ⟨condition, directives, set, span⟩ := inline
    cases condition <;>
      exact ⟨by simp [leave, types, enter, pushType], parents, inputs, fields, directive, argument⟩
  | directive _ => exact ⟨types, parents, inputs, fields, fun _ => rfl, argument⟩
  | argument _ =>
    exact ⟨types, parents, by simp [leave, inputs, enter, pushInput], fields, directive, fun _ => rfl⟩
  | _ =>
    exact ⟨by simp [leave, types, enter, pushType, pushInput],
      by simp [leave, parents, enter, pushType, pushInput],
      by simp [leave, inputs, enter, pushType, pushInput],
      by simp [leave, fields, enter, pushType, pushInput], directive, argument⟩

mutual

theorem restored_tree (schema : Schema) (scope : Scope) (ancestors : List Node) : (tree : Tree) →
    Restored scope ((tree.calls ancestors).foldl (move schema) scope)
  | .node root parts => by
    have inner := restored_trees schema (scope.enter schema root) (root :: ancestors) parts
    rw [Tree.calls, List.foldl_cons, List.foldl_append]
    exact restored_node root inner

theorem restored_trees (schema : Schema) (scope : Scope) (ancestors : List Node) :
    (trees : List Tree) → Restored scope ((Tree.callsAll ancestors trees).foldl (move schema) scope)
  | [] => .refl scope
  | tree :: rest => by
    rw [Tree.callsAll, List.foldl_append]
    exact (restored_tree schema scope ancestors tree).trans (restored_trees schema _ ancestors rest)

end

/-- Nodes that hold selections bring neither a directive nor an argument. -/
theorem Idle.enter (idle : before.Idle) {node : Node} (loud : node.isQuiet = false) :
    (before.enter schema node).Idle := by
  obtain ⟨directive, argument⟩ := idle
  cases node with
  | inline inline =>
    obtain ⟨condition, directives, set, span⟩ := inline
    cases condition <;> exact ⟨directive, argument⟩
  | document _ | operation _ | selectionSet _ | field _ | fragment _ => exact ⟨directive, argument⟩
  | _ => cases loud

end Scope

section Trees

theorem tree_root (node : Node) : node.tree.root = node := by
  cases node with
  | value value => cases value <;> rfl
  | selectionSet found | field found | inline found | objectField found =>
    cases found
    rfl
  | _ => rfl

theorem tree_eta (node : Node) : node.tree = .node node node.tree.parts := by
  have root := tree_root node
  cases whole : node.tree with
  | node found parts =>
    rw [whole] at root
    cases root
    rfl

theorem mem_ofValues {values : List Ast.Value} {tree : Tree} (member : tree ∈ Tree.ofValues values) :
    ∃ value, tree = Tree.ofValue value := by
  induction values with
  | nil => cases member
  | cons value rest ih =>
    rw [Tree.ofValues] at member
    rcases List.mem_cons.1 member with rfl | member
    · exact ⟨value, rfl⟩
    · exact ih member

theorem mem_ofObjectFields {fields : List Ast.ObjectField} {tree : Tree}
    (member : tree ∈ Tree.ofObjectFields fields) : ∃ field, tree = Tree.ofObjectField field := by
  induction fields with
  | nil => cases member
  | cons field rest ih =>
    rw [Tree.ofObjectFields] at member
    rcases List.mem_cons.1 member with rfl | member
    · exact ⟨field, rfl⟩
    · exact ih member

theorem mem_ofSelections {selections : List Ast.Selection} {tree : Tree} :
    tree ∈ Tree.ofSelections selections ↔ ∃ selection ∈ selections, tree = Tree.ofSelection selection := by
  induction selections with
  | nil => simp [Tree.ofSelections]
  | cons selection rest ih =>
    rw [Tree.ofSelections, List.mem_cons, ih]
    simp

/-- A tree that is made of a node. -/
def OfNode (tree : Tree) : Prop := ∃ node : Node, tree = node.tree

theorem ofNode_ofType (type : Ast.TypeAnnotation) : OfNode (Tree.ofType type) :=
  ⟨.ofType type, by cases type <;> rfl⟩

theorem ofNode_ofSelection (selection : Ast.Selection) : OfNode (Tree.ofSelection selection) := by
  cases selection with
  | field field => exact ⟨.field field, rfl⟩
  | spread spread => exact ⟨.spread spread, rfl⟩
  | inline inline => exact ⟨.inline inline, rfl⟩

theorem ofNode_ofDefinition (definition : Ast.Definition) : OfNode (Tree.ofDefinition definition) := by
  cases definition with
  | operation operation => exact ⟨.operation operation, rfl⟩
  | fragment fragment => exact ⟨.fragment fragment, rfl⟩
  | typeSystem definition => exact ⟨.typeSystem definition, rfl⟩

theorem ofNode_map {α : Type} {f : α → Tree} (each : ∀ item, OfNode (f item)) {items : List α}
    {tree : Tree} (member : tree ∈ items.map f) : OfNode tree := by
  obtain ⟨item, _, rfl⟩ := List.mem_map.1 member
  exact each item

/-- The parts of the tree of a node are trees of nodes. -/
theorem ofNode_part (node : Node) {tree : Tree} (member : tree ∈ node.tree.parts) : OfNode tree := by
  have arguments {items : List Ast.Argument} (inside : tree ∈ items.map Tree.ofArgument) : OfNode tree :=
    ofNode_map (fun argument => ⟨.argument argument, rfl⟩) inside
  have directives {items : List Ast.Directive} (inside : tree ∈ items.map Tree.ofDirective) :
      OfNode tree := ofNode_map (fun directive => ⟨.directive directive, rfl⟩) inside
  have set {found : Ast.SelectionSet} (inside : tree ∈ [Tree.ofSet found]) : OfNode tree :=
    ⟨.selectionSet found, List.mem_singleton.1 inside⟩
  cases node with
  | document document => exact ofNode_map ofNode_ofDefinition member
  | operation operation =>
    rcases List.mem_append.1 member with member | member
    · rcases List.mem_append.1 member with member | member
      · exact ofNode_map (fun definition => ⟨.variableDefinition definition, rfl⟩) member
      · exact directives member
    · exact set member
  | variableDefinition definition =>
    rcases List.mem_cons.1 member with rfl | member
    · exact ⟨.var definition.target, rfl⟩
    · rcases List.mem_cons.1 member with rfl | member
      · exact ofNode_ofType definition.type
      · exact ofNode_map (fun value => ⟨.value value, rfl⟩) member
  | selectionSet set =>
    obtain ⟨selections, span⟩ := set
    obtain ⟨selection, _, rfl⟩ := mem_ofSelections.1 member
    exact ofNode_ofSelection selection
  | field field =>
    obtain ⟨nickname, name, given, decorated, selections, span⟩ := field
    rcases List.mem_append.1 member with member | member
    · rcases List.mem_append.1 member with member | member
      · exact arguments member
      · exact directives member
    · cases selections with
      | none => cases member
      | some found => exact set member
  | argument argument => exact ⟨.value argument.value, List.mem_singleton.1 member⟩
  | spread spread => exact directives member
  | inline inline =>
    obtain ⟨condition, decorated, found, span⟩ := inline
    rcases List.mem_append.1 member with member | member
    · rcases List.mem_append.1 member with member | member
      · exact ofNode_map (fun type => ⟨.namedType type, rfl⟩) member
      · exact directives member
    · exact set member
  | fragment fragment =>
    rcases List.mem_append.1 member with member | member
    · rcases List.mem_cons.1 member with rfl | member
      · exact ⟨.namedType fragment.typeCondition, rfl⟩
      · exact directives member
    · exact set member
  | value value =>
    cases value with
    | list values span =>
      obtain ⟨value, rfl⟩ := mem_ofValues member
      exact ⟨.value value, rfl⟩
    | object fields span =>
      obtain ⟨field, rfl⟩ := mem_ofObjectFields member
      exact ⟨.objectField field, rfl⟩
    | _ => cases member
  | objectField field =>
    obtain ⟨name, value, span⟩ := field
    exact ⟨.value value, List.mem_singleton.1 member⟩
  | directive directive => exact arguments member
  | listType item span => exact List.mem_singleton.1 member ▸ ofNode_ofType item
  | nonNullType type span => exact List.mem_singleton.1 member ▸ ofNode_ofType type
  | var _ | namedType _ | typeSystem _ => cases member

/-- A child of a node is a part of its tree. -/
theorem part_of_child {node child : Node} (member : child ∈ node.children) :
    child.tree ∈ node.tree.parts := by
  obtain ⟨tree, inside, rfl⟩ := List.mem_map.1 member
  obtain ⟨found, rfl⟩ := ofNode_part node inside
  rwa [tree_root]

end Trees

/-- The walk of a root node, as of a document, comes to a node from a scope, through nodes that hold
selections. -/
inductive Entered (schema : Schema) (root : Node) : Scope → List Node → Node → Prop
  | root : Entered schema root {} [] root
  | part {scope : Scope} {ancestors : List Node} {node child : Node} :
      Entered schema root scope ancestors node → node.isQuiet = false → child ∈ node.children →
      Entered schema root (scope.enter schema node) (node :: ancestors) child

section Entered
variable {schema : Schema} {document : Document} {root : Node} {scope : Scope} {ancestors : List Node}
  {node : Node}

theorem Entered.idle (entered : Entered schema root scope ancestors node) : scope.Idle := by
  induction entered with
  | root => exact ⟨rfl, rfl⟩
  | part _ loud _ ih => exact ih.enter loud

theorem Entered.around (entered : Entered schema root scope ancestors node) :
    ∀ outer ∈ ancestors, outer.isQuiet = false := by
  induction entered with
  | root => exact fun _ member => absurd member List.not_mem_nil
  | part _ loud _ ih => exact List.forall_mem_cons.2 ⟨loud, ih⟩

/-- The turns of the parts of a node, one part after the other. -/
theorem turns_split (idle : scope.Idle) (first : List Tree) (tree : Tree) (rest : List Tree) :
    turns schema document scope (Tree.callsAll ancestors (first ++ tree :: rest)) =
      turns schema document scope (Tree.callsAll ancestors first) ++
        turns schema document scope (tree.calls ancestors) ++
          turns schema document scope (Tree.callsAll ancestors rest) := by
  have before := (Scope.restored_trees schema scope ancestors first).eq_of_idle idle
  have after := (Scope.restored_tree schema scope ancestors tree).eq_of_idle idle
  rw [callsAll_append, Tree.callsAll, turns_append, before, turns_append, after, List.append_assoc]

/-- The turns of an entered node stand together among those of the root. -/
theorem Entered.turns_within (entered : Entered schema root scope ancestors node) :
    turns schema document scope (node.tree.calls ancestors) <:+:
      turns schema document {} (root.tree.calls []) := by
  induction entered with
  | root => exact List.infix_rfl
  | @part scope ancestors node child outer loud member ih =>
    obtain ⟨first, rest, parts⟩ := List.append_of_mem (part_of_child member)
    have inner : turns schema document (scope.enter schema node) (child.tree.calls (node :: ancestors))
        <:+: turns schema document (scope.enter schema node)
          (Tree.callsAll (node :: ancestors) node.tree.parts) := by
      rw [parts, turns_split (outer.idle.enter loud)]
      exact List.infix_append _ _ _
    refine (inner.trans ?_).trans ih
    rw [tree_eta node, Tree.calls, turns, turns_append]
    exact ⟨[_], _, rfl⟩

theorem Entered.turn (entered : Entered schema (.document document) scope ancestors node) :
    (false, ⟨schema, document, scope.enter schema node, node, ancestors⟩) ∈
      documentTurns schema document := by
  refine entered.turns_within.subset ?_
  rw [tree_eta node, Tree.calls, turns]
  exact List.mem_cons_self

/-- Selection sets are stops of the walk. -/
theorem Entered.stop {set : Ast.SelectionSet}
    (entered : Entered schema (.document document) scope ancestors (.selectionSet set)) :
    .set (around? ancestors) (selectable schema scope.type) set ∈ documentStops schema document := by
  rw [← documentTurns_stops, List.mem_filterMap]
  exact ⟨_, entered.turn, rfl⟩

theorem quiet_tree {node : Node} (quiet : node.isQuiet = true) :
    node.tree.all Node.isQuiet = true := by
  cases node with
  | variableDefinition definition => exact Tree.ofVariableDefinition_quiet definition
  | argument argument => exact Tree.ofArgument_quiet argument
  | spread spread => exact Tree.ofSpread_quiet spread
  | value value => exact Tree.ofValue_quiet value
  | objectField field =>
    obtain ⟨name, value, span⟩ := field
    simp [Node.tree, Tree.ofObjectField, Tree.all, Tree.allIn, Node.isQuiet, Tree.ofValue_quiet]
  | directive directive => exact Tree.ofDirective_quiet directive
  | listType item span => exact Tree.ofType_quiet (.list item span)
  | nonNullType type span => exact Tree.ofType_quiet (.nonNull type span)
  | var _ | namedType _ | typeSystem _ => rfl
  | _ => cases quiet

mutual

/-- The walk comes to all nodes inside an entered one that hold selections. -/
theorem Entered.inside {found : Node} (loud : found.isQuiet = false) {scope : Scope}
    {ancestors : List Node} {node : Node} (entered : Entered schema root scope ancestors node) :
    (tree : Tree) → node.tree = tree → found ∈ tree.preorder →
      ∃ scope ancestors, Entered schema root scope ancestors found
  | .node top parts => by
    intro same member
    have whole := tree_eta node
    rw [same, Tree.node.injEq] at whole
    obtain ⟨rfl, -⟩ := whole
    rw [Tree.preorder] at member
    rcases List.mem_cons.1 member with rfl | member
    · exact ⟨scope, ancestors, entered⟩
    · cases holds : top.isQuiet with
      | true =>
        have quiet := Tree.preorder_all top.tree (quiet_tree holds) found
        rw [same, Tree.preorder] at quiet
        rw [quiet (List.mem_cons_of_mem _ member)] at loud
        cases loud
      | false =>
        refine Entered.insideAll loud parts (fun tree part => ?_) member
        have inner : tree ∈ top.tree.parts := by rwa [same]
        obtain ⟨child, rfl⟩ := ofNode_part top inner
        refine ⟨child, _, _, rfl, entered.part holds ?_⟩
        exact List.mem_map.2 ⟨child.tree, inner, tree_root child⟩

theorem Entered.insideAll {found : Node} (loud : found.isQuiet = false) : (trees : List Tree) →
    (∀ tree ∈ trees, ∃ child scope ancestors, child.tree = tree ∧
      Entered schema root scope ancestors child) → found ∈ Tree.preorderAll trees →
    ∃ scope ancestors, Entered schema root scope ancestors found
  | [] => fun _ member => absurd member List.not_mem_nil
  | tree :: rest => by
    intro each member
    obtain ⟨⟨child, scope, ancestors, same, entered⟩, others⟩ := List.forall_mem_cons.1 each
    rw [Tree.preorderAll] at member
    rcases List.mem_append.1 member with member | member
    · exact Entered.inside loud entered tree same member
    · exact Entered.insideAll loud rest others member

end

/-- The walk comes to all nodes of a document that hold selections. -/
theorem entered_of_mem (document : Document) {found : Node} (loud : found.isQuiet = false)
    (member : found ∈ (Node.document document).tree.preorder) :
    ∃ scope ancestors, Entered schema (.document document) scope ancestors found :=
  Entered.root.inside loud _ rfl member

end Entered
end GraphQL.Validation
