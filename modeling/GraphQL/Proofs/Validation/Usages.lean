import GraphQL.Proofs.Validation.Typing
import GraphQL.Validation.Rules.Variables

/-! The variables that accepted documents use. Each is collected with the type expected in its
place, and offers a type that fits there. -/
namespace GraphQL.Validation
open Ast (Node Document Call Tree OperationDefinition)

variable {schema : Schema} {document : Document} {root : Node}

section Literals

mutual

/-- The variables in a literal, each with the type expected in its place. -/
def literalUses (schema : Schema) (expected : Option TypeRef) : Ast.Value → List VariableUsage
  | .var target => [⟨target, expected⟩]
  | .list literals _ => itemUses schema (expected.map Scope.itemType) literals
  | .object fields _ => fieldUses schema expected fields
  | _ => []

def itemUses (schema : Schema) (expected : Option TypeRef) : List Ast.Value → List VariableUsage
  | [] => []
  | literal :: rest => literalUses schema expected literal ++ itemUses schema expected rest

def fieldUses (schema : Schema) (expected : Option TypeRef) :
    List Ast.ObjectField → List VariableUsage
  | [] => []
  | ⟨name, literal, _⟩ :: rest =>
      literalUses schema ((expected.bind fun type =>
        Scope.inputField? schema type name.text).map InputValue.type) literal ++
        fieldUses schema expected rest

end

theorem mem_itemUses {expected : Option TypeRef} {literals : List Ast.Value} {literal : Ast.Value}
    (member : literal ∈ literals) :
    literalUses schema expected literal ⊆ itemUses schema expected literals := by
  induction literals with
  | nil => cases member
  | cons first rest ih =>
    rw [itemUses]
    rcases List.mem_cons.1 member with rfl | member
    · exact List.subset_append_left _ _
    · exact List.Subset.trans (ih member) (List.subset_append_right _ _)

theorem mem_fieldUses {expected : Option TypeRef} {fields : List Ast.ObjectField}
    {field : Ast.ObjectField} (member : field ∈ fields) :
    literalUses schema ((expected.bind fun type =>
      Scope.inputField? schema type field.name.text).map InputValue.type) field.value ⊆
        fieldUses schema expected fields := by
  induction fields with
  | nil => cases member
  | cons first rest ih =>
    obtain ⟨name, literal, span⟩ := first
    rw [fieldUses]
    rcases List.mem_cons.1 member with rfl | member
    · exact List.subset_append_left _ _
    · exact List.Subset.trans (ih member) (List.subset_append_right _ _)

end Literals

section Turns

theorem Scope.Restored.input {before after : Scope} (restored : Scope.Restored before after) :
    after.input = before.input := by
  rw [Scope.input, Scope.input, restored.inputs]

variable {scope : Scope} {ancestors : List Node}

/-- The variable that a walk comes to at a turn. -/
def turnUses : Turn → List VariableUsage
  | (false, ⟨_, _, scope, .value (.var target), _⟩) => [⟨target, scope.input⟩]
  | _ => []

theorem usageVisitor_enter (document : Document) (scope : Scope) (found : List VariableUsage)
    (node : Node) (ancestors : List Node) :
    (usageVisitor schema).step (scope, found) ⟨false, node, ancestors⟩ = (scope.enter schema node,
      found ++ turnUses (false, ⟨schema, document, scope.enter schema node, node, ancestors⟩)) := by
  cases node with
  | value value =>
    cases value with
    | var _ => rfl
    | _ => exact congrArg (Prod.mk _) (List.append_nil _).symm
  | _ => exact congrArg (Prod.mk _) (List.append_nil _).symm

theorem usageVisitor_fold (document : Document) (calls : List Call) (scope : Scope)
    (found : List VariableUsage) :
    (calls.foldl (usageVisitor schema).step (scope, found)).2 =
      found ++ (turns schema document scope calls).flatMap turnUses := by
  induction calls generalizing scope found with
  | nil => exact (List.append_nil _).symm
  | cons call calls ih =>
    obtain ⟨leaving, node, ancestors⟩ := call
    cases leaving with
    | false =>
      rw [List.foldl_cons, usageVisitor_enter document, ih, turns, List.flatMap_cons,
        List.append_assoc]
    | true => exact ih (scope.leave node) found

/-- The variables used in a node are those that its walk comes to. -/
theorem usages_eq_turns (schema : Schema) (document : Document) (node : Node) :
    usages schema node = (turns schema document {} (node.tree.calls [])).flatMap turnUses := by
  have thorough : (usageVisitor schema).Thorough := fun _ _ _ => ⟨rfl, rfl⟩
  have walked := Tree.walk_calls thorough [] ({}, []) node.tree
  rw [← List.nil_append (List.flatMap _ _), ← usageVisitor_fold document]
  exact congrArg (fun result => result.2.2) walked

/-- Between entering and leaving a node that is no variable, a walk comes to the variables inside. -/
theorem around_uses {node : Node} (other : ∀ target, node ≠ .value (.var target)) (parts : List Tree) :
    (turns schema document scope ((Ast.Tree.node node parts).calls ancestors)).flatMap turnUses =
      (turns schema document (scope.enter schema node)
        (Tree.callsAll (node :: ancestors) parts)).flatMap turnUses := by
  have none (turn : Bool) (scope : Scope) :
      turnUses (turn, ⟨schema, document, scope, node, ancestors⟩) = [] := by
    unfold turnUses
    split
    · rename_i same
      cases same
      exact absurd rfl (other _)
    · rfl
  rw [Tree.calls, turns, List.flatMap_cons, none, List.nil_append, turns_append, List.flatMap_append,
    turns, turns, List.flatMap_cons, none]
  exact List.append_nil _

mutual

/-- The walk of a literal comes to its variables, and expects the types of their places there. -/
theorem value_uses (ancestors : List Node) : (literal : Ast.Value) → (scope : Scope) →
    (turns schema document scope ((Tree.ofValue literal).calls ancestors)).flatMap turnUses =
      literalUses schema scope.input literal
  | .var target => fun scope => rfl
  | .list literals span => fun scope => by
    rw [Tree.ofValue, around_uses (fun _ same => by cases same), items_uses, literalUses]
    rfl
  | .object fields span => fun scope => by
    rw [Tree.ofValue, around_uses (fun _ same => by cases same), fields_uses, literalUses]
    rfl
  | .int _ _ | .float _ _ | .string _ _ | .boolean _ _ | .null _ | .enum _ _ => fun scope => rfl

theorem items_uses (ancestors : List Node) : (literals : List Ast.Value) → (scope : Scope) →
    (turns schema document scope (Tree.callsAll ancestors (Tree.ofValues literals))).flatMap turnUses =
      itemUses schema scope.input literals
  | [] => fun scope => rfl
  | literal :: rest => fun scope => by
    have restored := Scope.restored_tree schema scope ancestors (Tree.ofValue literal)
    rw [Tree.ofValues, Tree.callsAll, turns_append, List.flatMap_append, value_uses ancestors literal,
      items_uses ancestors rest, itemUses, restored.input]

theorem fields_uses (ancestors : List Node) : (fields : List Ast.ObjectField) → (scope : Scope) →
    (turns schema document scope
      (Tree.callsAll ancestors (Tree.ofObjectFields fields))).flatMap turnUses =
      fieldUses schema scope.input fields
  | [] => fun scope => rfl
  | ⟨name, literal, span⟩ :: rest => fun scope => by
    have restored := Scope.restored_tree schema scope ancestors
      (Tree.ofObjectField ⟨name, literal, span⟩)
    rw [Tree.ofObjectFields, Tree.callsAll, turns_append, List.flatMap_append,
      fields_uses ancestors rest, fieldUses, Tree.ofObjectField, around_uses (fun _ same => by cases same),
      Tree.callsAll, Tree.callsAll, List.append_nil, value_uses _ literal]
    rw [Tree.ofObjectField] at restored
    rw [restored.input]
    rfl

end

end Turns

section Arguments
variable {scope : Scope} {ancestors : List Node} {field : Ast.Field} {argument : Ast.Argument}

theorem child_of_argument (member : argument ∈ field.arguments) :
    .argument argument ∈ (Node.field field).children := by
  obtain ⟨nickname, name, arguments, directives, set, span⟩ := field
  exact List.mem_map.2 ⟨Tree.ofArgument argument, List.mem_append_left _
    (List.mem_append_left _ (List.mem_map_of_mem member)), rfl⟩

theorem knownArgumentNames_steady : Rule.knownArgumentNames.Steady := by
  refine ofCheck_steady (fun site => ?_) fun _ => rfl
  repeat' split
  all_goals rfl

variable {outer : TypeDef} {declared : Field}

/-- What the walk has in scope at an argument of a field is declared on the field. -/
theorem argument_scope (idle : scope.Idle) (around : scope.parent = some outer)
    (found : schema.field? outer field.name.text = some declared) :
    (scope.enter schema (.field field)).declaredArgument argument.name.text =
      declared.arguments.find? argument.name.text := by
  have still : (scope.enter schema (.field field)).directive = none := (idle.enter rfl).directive
  have field : (scope.enter schema (.field field)).field = some declared := by
    show scope.parent.bind (fun parent => schema.field? parent field.name.text) = _
    rw [around, Option.bind_some, found]
  rw [Scope.declaredArgument, still, field]

/-- The variables in the arguments of a field are used where the field stands. -/
theorem Entered.argument_uses (entered : Entered schema root scope ancestors (.field field))
    (around : scope.parent = some outer) (found : schema.field? outer field.name.text = some declared)
    (given : argument ∈ field.arguments) :
    literalUses schema ((declared.arguments.find? argument.name.text).map InputValue.type)
      argument.value ⊆ usages schema root := by
  have empty : Document := ⟨[], none⟩
  have turned : turns schema empty (scope.enter schema (.field field))
      ((Node.argument argument).tree.calls (.field field :: ancestors)) <:+:
        turns schema empty {} (root.tree.calls []) :=
    (entered.part rfl (child_of_argument given)).turns_within
  have uses : (turns schema empty (scope.enter schema (.field field))
      ((Node.argument argument).tree.calls (.field field :: ancestors))).flatMap turnUses =
      literalUses schema ((declared.arguments.find? argument.name.text).map InputValue.type)
        argument.value := by
    rw [Node.tree, Tree.ofArgument, around_uses (fun _ same => by cases same), Tree.callsAll, Tree.callsAll,
      List.append_nil, value_uses, ← argument_scope entered.idle around found]
    rfl
  rw [← uses, usages_eq_turns schema empty]
  obtain ⟨before, after, same⟩ := turned
  rw [← same, List.flatMap_append, List.flatMap_append, List.append_assoc]
  exact List.Subset.trans (List.subset_append_left _ _) (List.subset_append_right _ _)

/-- The arguments of a field of an accepted document are declared. -/
theorem argument_declared (accepted : schema.validate document = some [])
    (entered : Entered schema (.document document) scope ancestors (.field field))
    (around : scope.parent = some outer) (found : schema.field? outer field.name.text = some declared)
    (given : argument ∈ field.arguments) :
    ∃ input, declared.arguments.find? argument.name.text = some input := by
  have known := (entered.part rfl (child_of_argument given)).checked accepted
    (by simp [Rule.standard, Rule.knownArgumentNames]) knownArgumentNames_steady
  have here : ((scope.enter schema (.field field)).enter schema (.argument argument)).argument =
      declared.arguments.find? argument.name.text := argument_scope entered.idle around found
  have on : ((scope.enter schema (.field field)).enter schema (.argument argument)).field =
      some declared := by
    show scope.parent.bind (fun parent => schema.field? parent field.name.text) = _
    rw [around, Option.bind_some, found]
  have within : ((scope.enter schema (.field field)).enter schema (.argument argument)).parent =
      some outer := around
  cases absent : declared.arguments.find? argument.name.text with
  | some input => exact ⟨input, rfl⟩
  | none =>
    rw [absent] at here
    simp only [here, on, within, List.head?_cons] at known
    cases known

end Arguments

section Operations
variable {operation : OperationDefinition}

theorem ofOperation_steady {name : String}
    {check : Schema → Document → OperationDefinition → List Finding} :
    (Rule.ofOperation name check).Steady := by
  refine ofCheck_steady (fun _ => rfl) fun site => ?_
  split <;> rfl

/-- A rule that looks at operations finds nothing in those of an accepted document. -/
theorem operation_checked (accepted : schema.validate document = some []) {name : String}
    {check : Schema → Document → OperationDefinition → List Finding}
    (member : Rule.ofOperation name check ∈ Rule.standard)
    (inside : operation ∈ document.operations) : check schema document operation = [] := by
  have entered : Entered schema (.document document) _ _ (.operation operation) :=
    Entered.root.part rfl (operation_child inside)
  obtain ⟨state, last, passes⟩ := entered.steady accepted member ofOperation_steady
  obtain ⟨_, _, silent, _⟩ := passes.parts ofOperation_steady.toTireless rfl
  exact silent

theorem usages_among (used : UsedBy document operation root) :
    usages schema root ⊆ allUsages schema document operation := by
  intro usage member
  rcases used.found with rfl | ⟨fragment, inside, rfl⟩
  · exact List.mem_append_left _ member
  · exact List.mem_append_right _ (List.mem_flatMap.2 ⟨fragment, inside, member⟩)

/-- The variables that an accepted operation uses are allowed where they stand. -/
theorem usage_allowed (accepted : schema.validate document = some [])
    (inside : operation ∈ document.operations) (used : UsedBy document operation root)
    {usage : VariableUsage} (member : usage ∈ usages schema root) {expected type : TypeRef}
    (expects : usage.expected = some expected) {definition : Ast.VariableDefinition}
    (defined : Rule.definitionOf? operation usage.target.name.text = some definition)
    (known : schema.typeOf? definition.type = some type) :
    schema.isSubtype (Rule.offeredType definition type) expected = true := by
  have standard : Rule.variablesInAllowedPosition ∈ Rule.standard := by simp [Rule.standard]
  have none := List.filterMap_eq_nil_iff.1 (operation_checked accepted standard inside) usage
    (usages_among used member)
  simp only [Rule.misuse?, defined, expects, known, Option.bind_eq_bind, Option.bind_some] at none
  by_contra misused
  rw [if_neg misused] at none
  cases none

end Operations

section Names
variable {scope : Scope} {ancestors : List Node}

theorem uniqueVariableNames_steady : Rule.uniqueVariableNames.Steady where
  enter site state := by
    unfold Rule.uniqueVariableNames Rule.ofSeen
    dsimp only
    split <;> nofun
  leave _ _ := nofun
  opens node loud site state same := by
    subst same
    unfold Rule.uniqueVariableNames Rule.ofSeen
    dsimp only
    split <;> rfl

/-- Nodes that can stand inside the definition of a variable. -/
def definesNothing : Node → Bool
  | .operation _ | .variableDefinition _ => false
  | _ => true

theorem uniqueVariableNames_keeps {node : Node} (plain : definesNothing node = true) :
    Rule.uniqueVariableNames.Keeps node := by
  intro site state same
  subst same
  refine ⟨?_, rfl⟩
  unfold Rule.uniqueVariableNames Rule.ofSeen
  dsimp only
  split
  · rename_i here
    rw [here] at plain
    cases plain
  · rename_i here
    rw [here] at plain
    cases plain
  · rfl

theorem variable_parts (definition : Ast.VariableDefinition) :
    Tree.allIn definesNothing (Tree.ofVariableDefinition definition).parts = true := by
  have type : (Tree.ofType definition.type).all definesNothing = true :=
    Tree.ofType_all (fun _ => rfl) (fun _ _ => rfl) (fun _ _ => rfl) _
  have default : Tree.allIn definesNothing (definition.defaultValue.toList.map Tree.ofValue) = true :=
    Tree.allIn_map fun value _ => Tree.ofValue_all (fun _ => rfl) (fun _ => rfl) value
  rw [Tree.ofVariableDefinition, Tree.parts, Tree.allIn, Tree.allIn, type, default]
  rfl

theorem variable_meets {definition : Ast.VariableDefinition} {seen next : Seen}
    (passes : Rule.uniqueVariableNames.Passes seen
      (turns schema document scope ((Node.variableDefinition definition).tree.calls ancestors)) next) :
    seen.meet definition.target.name.text definition.target.span .repeatedVariable = ([], next) := by
  refine Prod.ext passes.enter ?_
  obtain ⟨mid, inner, _, last⟩ := passes.parts uniqueVariableNames_steady.toTireless rfl
  have kept := inner.unchanged fun call member => uniqueVariableNames_keeps
    (Tree.callsAll_all _ _ (variable_parts definition) call member)
  exact (last.trans kept).symm

/-- The variables of an operation have names of their own. -/
theorem variables_distinct (accepted : schema.validate document = some [])
    {operation : OperationDefinition} (inside : operation ∈ document.operations) :
    (Rule.definedNames operation).Nodup := by
  have entered : Entered schema (.document document) _ _ (.operation operation) :=
    Entered.root.part rfl (operation_child inside)
  obtain ⟨state, last, passes⟩ := entered.steady accepted (by simp [Rule.standard])
    uniqueVariableNames_steady
  obtain ⟨mid, inner, -⟩ := passes.parts uniqueVariableNames_steady.toTireless rfl
  rw [show (Node.operation operation).tree.parts =
    operation.variableDefinitions.map Tree.ofVariableDefinition ++
      (operation.directives.map Tree.ofDirective ++ [Tree.ofSet operation.selectionSet]) from
    List.append_assoc _ _ _] at inner
  exact (names_pass uniqueVariableNames_steady.toTireless (entered.idle.enter rfl)
    (fun definition seen next passes => variable_meets passes) inner).2

/-- The definition that counts for a variable is the one of its name. -/
theorem definitionOf_eq {operation : OperationDefinition}
    (distinct : (Rule.definedNames operation).Nodup) {definition : Ast.VariableDefinition}
    (member : definition ∈ operation.variableDefinitions) :
    Rule.definitionOf? operation definition.target.name.text = some definition := by
  have turned : (operation.variableDefinitions.reverse.map fun definition =>
      definition.target.name.text).Nodup := by
    rw [List.map_reverse, List.nodup_reverse]
    exact distinct
  exact find?_of_distinct turned (List.mem_reverse.2 member)

end Names
end GraphQL.Validation
