import GraphQL.Proofs.Coercion.Admitted
import GraphQL.Proofs.Locations.Parts
import GraphQL.Proofs.Validation.Alone
import GraphQL.Proofs.Validation.Usages

/-! What the nodes around a place say about the types there: each of them is read off the innermost node
that speaks of it. In walks, scopes agree with that, but for the arguments of unknown directives. -/
namespace GraphQL.Validation
open Ast (Node Document Call Tree)

namespace Surroundings
variable (schema : Schema)

mutual

/-- The type that the innermost selection set selects from, if its fields can be selected. -/
def parent : List Node → Option TypeDef
  | [] => none
  | .selectionSet _ :: outer => selectable schema (selected outer)
  | _ :: outer => parent outer

/-- The root type of the operation, the type of the field or the type condition that a selection
set stands under. -/
def selected : List Node → Option TypeRef
  | [] => none
  | .operation operation :: _ =>
      (schema.rootType? operation.operation).map fun root => .named root.name
  | .field field :: outer =>
      ((parent outer).bind fun type => schema.field? type field.name.text).map Field.type
  | .fragment fragment :: _ => Scope.conditionType schema fragment.typeCondition
  | .inline inline :: outer =>
      match inline.typeCondition with
      | some condition => Scope.conditionType schema condition
      | none => selected outer
  | _ :: outer => selected outer

end

/-- The definition of the innermost field, on the type that it is selected from. -/
def field : List Node → Option Field
  | [] => none
  | .field field :: outer => (parent schema outer).bind fun type => schema.field? type field.name.text
  | _ :: outer => field outer

/-- The definition of the innermost directive. -/
def directive : List Node → Option DirectiveDef
  | [] => none
  | .directive directive :: _ => schema.directive? directive.name.text
  | _ :: outer => directive outer

/-- The definition of the innermost argument, in the field or the directive that it is written on. -/
def argument : List Node → Option InputValue
  | .argument argument :: .field node :: outer =>
      (field schema (.field node :: outer)).bind fun definition =>
        definition.arguments.find? argument.name.text
  | .argument argument :: .directive node :: _ =>
      (schema.directive? node.name.text).bind fun definition =>
        definition.argument? argument.name.text
  | .argument _ :: _ => none
  | _ :: outer => argument outer
  | [] => none

/-- The argument of the innermost field that has the name of the innermost argument, where that one
is written on a directive that the schema does not have. -/
def borrowed : List Node → Option InputValue
  | .argument argument :: .directive node :: outer =>
      match schema.directive? node.name.text with
      | some _ => none
      | none => (field schema outer).bind fun definition =>
          definition.arguments.find? argument.name.text
  | .argument _ :: _ => none
  | _ :: outer => borrowed outer
  | [] => none

/-- The type expected of the innermost argument, list item, object field or default value, if the
innermost argument has a definition. -/
def input (definition : Option InputValue) : List Node → Option TypeRef
  | [] => none
  | .argument _ :: _ => definition.map InputValue.type
  | .value (.list _ _) :: outer => (input definition outer).map Scope.itemType
  | .objectField field :: outer =>
      ((input definition outer).bind fun type =>
        Scope.inputField? schema type field.name.text).map InputValue.type
  | .variableDefinition declared :: _ =>
      (schema.typeOf? declared.type).filter fun type => (schema.named? type).any TypeDef.isInput
  | _ :: outer => input definition outer

end Surroundings

section Around
variable (schema : Schema)

theorem around_parent (nodes : List Node) :
    (Scope.around schema nodes).parent = Surroundings.parent schema nodes ∧
      selectable schema (Scope.around schema nodes).type =
        selectable schema (Surroundings.selected schema nodes) := by
  induction nodes with
  | nil => exact ⟨rfl, rfl⟩
  | cons node outer ih =>
    obtain ⟨parent, selected⟩ := ih
    cases node with
    | selectionSet set => exact ⟨selected, selected⟩
    | field field =>
      refine ⟨parent, ?_⟩
      show selectable schema (((Scope.around schema outer).parent.bind _).map Field.type) = _
      rw [parent]
      rfl
    | inline inline =>
      obtain ⟨condition, directives, set, span⟩ := inline
      cases condition with
      | some condition => exact ⟨parent, rfl⟩
      | none =>
        refine ⟨parent, ?_⟩
        show selectable schema ((Scope.around schema outer).type.map fun type => .named type.innermost) =
          selectable schema (Surroundings.selected schema outer)
        rw [← selected]
        cases (Scope.around schema outer).type <;> rfl
    | operation _ | fragment _ => exact ⟨parent, rfl⟩
    | value value => cases value <;> exact ⟨parent, selected⟩
    | _ => exact ⟨parent, selected⟩

theorem around_field (nodes : List Node) :
    (Scope.around schema nodes).field = Surroundings.field schema nodes := by
  induction nodes with
  | nil => rfl
  | cons node outer ih =>
    cases node with
    | field field =>
      show (Scope.around schema outer).parent.bind _ = _
      rw [(around_parent schema outer).1]
      rfl
    | inline inline =>
      obtain ⟨condition, directives, set, span⟩ := inline
      cases condition <;> exact ih
    | value value => cases value <;> exact ih
    | _ => exact ih

theorem around_directive (nodes : List Node) :
    (Scope.around schema nodes).directive = Surroundings.directive schema nodes := by
  induction nodes with
  | nil => rfl
  | cons node outer ih =>
    cases other : notDirective node with
    | true =>
      rw [Scope.around, (kept_directive _ other).1, ih]
      cases node <;> first | rfl | cases other
    | false => cases node <;> first | rfl | cases other

end Around

/-- Nodes one inside the other up to the root of a walk, the innermost one first. -/
inductive Linked (root : Node) : List Node → Prop
  | root : Linked root [root]
  | part {node child : Node} {outer : List Node} : Linked root (node :: outer) →
      child ∈ node.children → Linked root (child :: node :: outer)

section Linked
variable {root node child : Node} {outer : List Node}

theorem quiet_child (quiet : node.isQuiet = true) (member : child ∈ node.children) :
    child.isQuiet = true := by
  have inside := part_all (quiet_tree quiet) (part_of_child member)
  rw [tree_eta, Tree.all, Bool.and_eq_true] at inside
  exact inside.1

/-- Nodes that hold selections stand in such nodes only. -/
theorem Linked.loud (linked : Linked root (node :: outer)) (loud : node.isQuiet = false) :
    ∀ around ∈ outer, around.isQuiet = false := by
  induction outer generalizing node with
  | nil => exact fun _ member => absurd member List.not_mem_nil
  | cons parent outer ih =>
    cases linked with
    | part linked member =>
      have above : parent.isQuiet = false := by
        by_contra quiet
        rw [quiet_child (by simpa using quiet) member] at loud
        cases loud
      exact List.forall_mem_cons.2 ⟨above, ih linked above⟩

mutual

/-- The nodes around each call of a walk stand one inside the other. -/
theorem calls_linked (ancestors : List Node) : (tree : Tree) → (node : Node) → node.tree = tree →
    Linked root (node :: ancestors) →
    ∀ call ∈ tree.calls ancestors, Linked root (call.node :: call.ancestors)
  | .node top parts => by
    intro node same linked
    have whole := tree_eta node
    rw [same, Tree.node.injEq] at whole
    obtain ⟨rfl, split⟩ := whole
    have inner : ∀ tree ∈ parts, ∃ child : Node, child.tree = tree ∧
        Linked root (child :: top :: ancestors) := by
      intro tree member
      have part : tree ∈ top.tree.parts := by rwa [same]
      obtain ⟨child, rfl⟩ := ofNode_part top part
      exact ⟨child, rfl, linked.part (List.mem_map.2 ⟨child.tree, part, tree_root child⟩)⟩
    intro call member
    simp only [Tree.calls, List.mem_cons, List.mem_append, List.not_mem_nil, or_false] at member
    rcases member with rfl | member | rfl
    · exact linked
    · exact callsAll_linked (top :: ancestors) parts inner call member
    · exact linked

theorem callsAll_linked (ancestors : List Node) : (trees : List Tree) →
    (∀ tree ∈ trees, ∃ child : Node, child.tree = tree ∧ Linked root (child :: ancestors)) →
    ∀ call ∈ Tree.callsAll ancestors trees, Linked root (call.node :: call.ancestors)
  | [] => fun _ _ member => absurd member List.not_mem_nil
  | tree :: rest => by
    intro each
    obtain ⟨⟨child, same, linked⟩, others⟩ := List.forall_mem_cons.1 each
    rw [Tree.callsAll, List.forall_mem_append]
    exact ⟨calls_linked ancestors tree child same linked, callsAll_linked ancestors rest others⟩

end

/-- Arguments are written on fields and directives. -/
theorem owner_of_argument {argument : Ast.Argument} (member : .argument argument ∈ node.children) :
    (∃ field, node = .field field) ∨ ∃ directive, node = .directive directive := by
  have part := (Spanned.children_sublist node).subset (List.mem_map_of_mem member)
  have values (of : Ast.Value) : Spanned.value of ≠ .node (.argument argument) := nofun
  have types (of : Ast.TypeAnnotation) : Spanned.type of ≠ .node (.argument argument) := by
    cases of <;> nofun
  have directives (of : Ast.Directive) : Spanned.directive of ≠ .node (.argument argument) := nofun
  have selections (of : Ast.Selection) : Spanned.selection of ≠ .node (.argument argument) := by
    cases of <;> nofun
  have definitions (of : Ast.Definition) : Spanned.definition of ≠ .node (.argument argument) := by
    cases of <;> nofun
  cases node with
  | field field => exact .inl ⟨field, rfl⟩
  | directive directive => exact .inr ⟨directive, rfl⟩
  | typeSystem _ => cases member
  | value of => cases of <;> simp [Spanned.inner, values] at part
  | inline of | objectField of | selectionSet of =>
    cases of
    simp [Spanned.inner, (values _).symm, directives, selections] at part
  | _ => simp [Spanned.inner, values, (values _).symm, (types _).symm, directives, definitions] at part

theorem directive_of_loud (schema : Schema) {nodes : List Node}
    (loud : ∀ node ∈ nodes, node.isQuiet = false) : Surroundings.directive schema nodes = none := by
  induction nodes with
  | nil => rfl
  | cons node outer ih =>
    obtain ⟨here, others⟩ := List.forall_mem_cons.1 loud
    cases node with
    | directive _ => cases here
    | _ => exact ih others

end Linked

section Arguments
variable {schema : Schema} {root : Node}

theorem Scope.declaredArgument_eq (scope : Scope) (name : String) : scope.declaredArgument name =
    match scope.directive with
    | some directive => directive.argument? name
    | none => scope.field.bind fun field => field.arguments.find? name := by
  rw [Scope.declaredArgument]
  cases scope.directive <;> cases scope.field <;> rfl

theorem around_argument {nodes : List Node} (linked : Linked root nodes) :
    (Scope.around schema nodes).argument =
      (Surroundings.argument schema nodes).or (Surroundings.borrowed schema nodes) := by
  induction nodes with
  | nil => rfl
  | cons node outer ih =>
    have recurse (other : notArgument node = true)
        (same : Surroundings.argument schema (node :: outer) = Surroundings.argument schema outer ∧
          Surroundings.borrowed schema (node :: outer) = Surroundings.borrowed schema outer) :
        (Scope.around schema (node :: outer)).argument =
          (Surroundings.argument schema (node :: outer)).or
            (Surroundings.borrowed schema (node :: outer)) := by
      rw [same.1, same.2, Scope.around, (kept_argument _ other).1]
      cases linked with
      | root => rfl
      | part linked member => exact ih linked
    cases node with
    | argument argument =>
      show (Scope.around schema outer).declaredArgument argument.name.text = _
      rw [Scope.declaredArgument_eq, around_directive, around_field]
      cases linked with
      | root => rfl
      | @part owner _ around linked member =>
        rcases owner_of_argument member with ⟨field, rfl⟩ | ⟨directive, rfl⟩
        · rw [directive_of_loud schema (List.forall_mem_cons.2 ⟨rfl, linked.loud rfl⟩)]
          exact (Option.or_none).symm
        · rw [Surroundings.directive, Surroundings.argument, Surroundings.borrowed]
          cases schema.directive? directive.name.text with
          | some definition => exact (Option.or_none).symm
          | none => exact (Option.none_or).symm
    | _ => exact recurse rfl ⟨rfl, rfl⟩

theorem around_input (nodes : List Node) :
    (Scope.around schema nodes).input =
      Surroundings.input schema (Scope.around schema nodes).argument nodes := by
  induction nodes with
  | nil => rfl
  | cons node outer ih =>
    cases other : notArgument node with
    | false => cases node <;> first | rfl | cases other
    | true =>
      rw [Scope.around, (kept_argument _ other).1]
      cases node with
      | value value =>
        cases value with
        | list values span =>
          show (Scope.around schema outer).input.map _ = _
          rw [ih]
          rfl
        | _ => exact ih
      | objectField field =>
        show ((Scope.around schema outer).input.bind _).map _ = _
        rw [ih]
        rfl
      | inline inline =>
        obtain ⟨condition, directives, set, span⟩ := inline
        cases condition <;> exact ih
      | variableDefinition _ => rfl
      | argument _ => cases other
      | _ => exact ih

/-- A borrowed argument stands where there should be none. -/
theorem argument_of_borrowed {nodes : List Node} {input : InputValue}
    (borrowed : Surroundings.borrowed schema nodes = some input) :
    Surroundings.argument schema nodes = none := by
  fun_induction Surroundings.borrowed schema nodes with
  | case1 => cases borrowed
  | case2 argument directive outer unknown =>
    rw [Surroundings.argument, unknown]
    rfl
  | case3 => cases borrowed
  | case4 node outer _ other ih =>
    rw [Surroundings.argument]
    · exact ih borrowed
    all_goals simp_all
  | case5 => cases borrowed

end Arguments

section Dictated
variable {ε : Type} {schema : Schema} {document : Document} {root : Node}

/-- What a scope knows is what nodes say that stand one inside the other, the innermost one first. -/
structure Scope.Dictated (schema : Schema) (nodes : List Node) (scope : Scope) : Prop where
  parent : scope.parent = Surroundings.parent schema nodes
  field : scope.field = Surroundings.field schema nodes
  directive : scope.directive = Surroundings.directive schema nodes
  argument : scope.argument =
    (Surroundings.argument schema nodes).or (Surroundings.borrowed schema nodes)
  input : scope.input = Surroundings.input schema scope.argument nodes
  /-- The argument is wrong where one is borrowed, and nowhere else. -/
  unborrowed : scope.argument = Surroundings.argument schema nodes ↔
    Surroundings.borrowed schema nodes = none

theorem Linked.dictated {nodes : List Node} (linked : Linked root nodes) :
    (Scope.around schema nodes).Dictated schema nodes where
  parent := (around_parent schema nodes).1
  field := around_field schema nodes
  directive := around_directive schema nodes
  argument := around_argument linked
  input := around_input nodes
  unborrowed := by
    rw [around_argument linked]
    cases borrowed : Surroundings.borrowed schema nodes with
    | none => simp
    | some input => simp [argument_of_borrowed borrowed]

/-- Trees are orderly wherever they stand. -/
theorem Linked.orderly {node : Node} {outer : List Node} (linked : Linked root (node :: outer)) :
    Orderly (.around schema outer) node.tree := by
  induction outer generalizing node with
  | nil => exact ⟨.inl rfl, .inl rfl⟩
  | cons parent outer ih =>
    cases linked with
    | part linked member => exact (ih linked).part (part_of_child member)

/-- A rule that reports all its calls. -/
def Rule.observer : Rule Turn :=
  .ofCheck "Observer" (fun site => .report [(false, site)]) fun site => .report [(true, site)]

theorem findings_observer (schema : Schema) (document : Document) :
    findings schema [.observer] document = documentTurns schema document := by
  rw [findings_singleton, Rule.reports]
  show @Watch.reports _ Rule.observer ((), .watching) _ = _
  induction documentTurns schema document with
  | nil => rfl
  | cons turn rest ih =>
    obtain ⟨leaving, site⟩ := turn
    cases leaving <;> exact congrArg (List.cons _) ih

theorem progress_scope (rules : List (Rule ε)) (calls : List Call) (progress : Progress rules) :
    (calls.foldl (visitor schema document rules).step progress).scope =
      calls.foldl (Scope.move schema) progress.scope := by
  induction calls generalizing progress with
  | nil => rfl
  | cons call calls ih =>
    obtain ⟨leaving, node, ancestors⟩ := call
    rw [List.foldl_cons, List.foldl_cons, ih]
    cases leaving <;> rfl

/-- The walk of a node leaves the scope as it has found it. -/
theorem Linked.restored {node : Node} {outer : List Node} (linked : Linked root (node :: outer))
    (rules : List (Rule ε)) (progress : Progress rules) (scope : progress.scope = .around schema outer) :
    ((node.tree.walk (visitor schema document rules) outer).run progress).2.scope = progress.scope := by
  have thorough : (visitor schema document rules).Thorough := fun _ _ _ => ⟨rfl, rfl⟩
  have walked := Tree.walk_calls thorough outer progress node.tree
  have orderly : Orderly progress.scope node.tree := scope ▸ linked.orderly
  calc ((node.tree.walk (visitor schema document rules) outer).run progress).2.scope
      = ((node.tree.calls outer).foldl (visitor schema document rules).step progress).scope :=
        congrArg (fun result => result.2.scope) walked
    _ = (node.tree.calls outer).foldl (Scope.move schema) progress.scope := progress_scope rules _ progress
    _ = progress.scope := orderly.restored outer

theorem usage_dictated {usage : VariableUsage} (member : usage ∈ usages schema root) :
    ∃ outer, Linked root (.value (.var usage.target) :: outer) ∧
      ∃ scope : Scope, scope.Dictated schema (.value (.var usage.target) :: outer) ∧
        usage.expected = scope.input := by
  have told : turns schema ⟨[], none⟩ {} (root.tree.calls []) =
      (root.tree.calls []).map (turnOf schema ⟨[], none⟩) :=
    turns_tree [] _ root rfl ⟨.inl rfl, .inl rfl⟩
  rw [usages_eq_turns schema ⟨[], none⟩, told, List.flatMap_map] at member
  obtain ⟨call, inside, used⟩ := List.mem_flatMap.1 member
  have linked := calls_linked [] _ root rfl .root call inside
  obtain ⟨leaving, node, ancestors⟩ := call
  unfold turnOf turnUses at used
  split at used
  · rename_i same
    cases same
    rw [List.mem_singleton.1 used]
    exact ⟨ancestors, linked, _, linked.dictated, rfl⟩
  · cases used

/-- What is in scope at a node is what the nodes around it say, up to arguments of unknown directives,
for which the scope takes those of the field around. A rule is called for all nodes, each with this
scope, and the variables that a node uses are expected to have the types that it gives; and at the end of
each node the scope is again what it was in front of it. -/
theorem scopes_dictated (schema : Schema) (document : Document) :
    (findings schema [.observer] document).map (fun turn => ⟨turn.1, turn.2.node, turn.2.ancestors⟩) =
      (Node.document document).tree.calls [] ∧
    (∀ turn ∈ findings schema [.observer] document,
      Linked (.document document) (turn.2.node :: turn.2.ancestors) ∧
        turn.2.scope.Dictated schema (turn.2.node :: turn.2.ancestors)) ∧
    (∀ root, ∀ usage ∈ usages schema root, ∃ outer,
      Linked root (.value (.var usage.target) :: outer) ∧
        ∃ scope : Scope, scope.Dictated schema (.value (.var usage.target) :: outer) ∧
          usage.expected = scope.input) ∧
    (∀ node outer, Linked (.document document) (node :: outer) →
      ∀ (ε : Type) (rules : List (Rule ε)) (progress : Progress rules),
        progress.scope = .around schema outer →
          ((node.tree.walk (visitor schema document rules) outer).run progress).2.scope =
            progress.scope) ∧
    ∀ (ε : Type) (rules : List (Rule ε)),
      (((Node.document document).walk (visitor schema document rules)).run
        ⟨{}, .start rules, []⟩).2.scope = {} := by
  rw [findings_observer, documentTurns_eq]
  refine ⟨?_, ?_, fun root usage => usage_dictated, fun node outer linked ε => linked.restored,
    fun ε rules => (.root : Linked (.document document) [_]).restored rules _ rfl⟩
  · rw [List.map_map]
    exact List.map_id' _
  · refine List.forall_mem_map.2 fun call member => ?_
    have linked := calls_linked [] _ _ rfl .root call member
    exact ⟨linked, linked.dictated⟩

/-- A limit, to be counted with. -/
def limitArgument : Ast.Argument :=
  ⟨⟨"filter", none⟩, .object [⟨⟨"limit", none⟩, .int "1" none, none⟩] none, none⟩

/-- The limit with what is around it. -/
def limitPlaces (outer : List Node) : List Node :=
  .value (.int "1" none) :: .objectField ⟨⟨"limit", none⟩, .int "1" none, none⟩ ::
    .value limitArgument.value :: .argument limitArgument :: outer

section Counts
variable (arguments : List Ast.Argument) (directives : List Ast.Directive)

def countField : Ast.Field := ⟨none, ⟨"count", none⟩, arguments, directives, none, none⟩

def countOperation : Ast.OperationDefinition :=
  ⟨.query, none, [], [], ⟨[.field (countField arguments directives)], none⟩, none⟩

def countDocument : Document := ⟨[.operation (countOperation arguments directives)], none⟩

/-- The count with what is around it. -/
def countPlaces : List Node :=
  [.field (countField arguments directives),
    .selectionSet ⟨[.field (countField arguments directives)], none⟩,
    .operation (countOperation arguments directives), .document (countDocument arguments directives)]

end Counts

/-- The limit is expected to be a number, as the type of the argument says. -/
theorem scopes_dictated_limit :
    ∃ turn ∈ findings filterSchema [.observer] (countDocument [limitArgument] []),
      turn.2.node :: turn.2.ancestors = limitPlaces (countPlaces [limitArgument] []) ∧
      turn.2.scope.argument =
        Surroundings.argument filterSchema (limitPlaces (countPlaces [limitArgument] [])) ∧
      turn.2.scope.input = some (.nonNull (.named "Int")) := by
  obtain ⟨-, told, -⟩ := scopes_dictated filterSchema (countDocument [limitArgument] [])
  have entered : ∃ turn, (findings filterSchema [.observer]
      (countDocument [limitArgument] []))[7]? = some turn ∧
      turn.2.node :: turn.2.ancestors = limitPlaces (countPlaces [limitArgument] []) :=
    ⟨_, rfl, rfl⟩
  obtain ⟨turn, here, places⟩ := entered
  have member := List.mem_of_getElem? here
  obtain ⟨-, dictated⟩ := told turn member
  rw [places] at dictated
  have argument := dictated.unborrowed.2 rfl
  refine ⟨turn, member, places, argument, ?_⟩
  rw [dictated.input, argument]
  rfl

/-- A directive that the schema does not have. -/
def limitDirective : Ast.Directive := ⟨⟨"limited", none⟩, [limitArgument], none⟩

/-- An argument of an unknown directive is taken for the one of the field. -/
theorem scope_borrows :
    filterSchema.Built ∧
    ∃ turn ∈ findings filterSchema [.observer] (countDocument [] [limitDirective]),
      turn.2.node :: turn.2.ancestors =
        limitPlaces (.directive limitDirective :: countPlaces [] [limitDirective]) ∧
      Surroundings.argument filterSchema
        (limitPlaces (.directive limitDirective :: countPlaces [] [limitDirective])) = none ∧
      turn.2.scope.argument = some { name := "filter", type := .named "Filter" } ∧
      turn.2.scope.input = some (.nonNull (.named "Int")) := by
  have entered : ∃ turn, (findings filterSchema [.observer]
      (countDocument [] [limitDirective]))[8]? = some turn ∧
      turn.2.node :: turn.2.ancestors =
        limitPlaces (.directive limitDirective :: countPlaces [] [limitDirective]) ∧
      turn.2.scope.argument = some { name := "filter", type := .named "Filter" } ∧
      turn.2.scope.input = some (.nonNull (.named "Int")) := ⟨_, rfl, rfl, rfl, rfl⟩
  obtain ⟨turn, here, places, argument, input⟩ := entered
  exact ⟨filterSchema_built, turn, List.mem_of_getElem? here, places, rfl, argument, input⟩

end Dictated

end GraphQL.Validation
