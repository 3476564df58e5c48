import GraphQL.Proofs.Ast.Written
import GraphQL.Proofs.Validation.Usages
import GraphQL.Proofs.Validation.Wholes

/-! What an operation comes to: the fragments that its spreads lead to, each once, and the variables
that are written in it and in those fragments. The rules about unknown and unused names report
exactly what is missing there. -/
namespace GraphQL.Validation
open Ast (Document Node Tree Call Definition FragmentDefinition FragmentSpread OperationDefinition
  SelectionSet Variable)
open Ast.FragmentDefinition (takeAll reach)
open Overlap (named? Remains take?_eq_some name_of_named? named?_of_taken remains_of_take?)

variable {document : Document} {operation : OperationDefinition}

section Fragments
variable {fragments : List FragmentDefinition} {fragment : FragmentDefinition} {names : List String}

theorem takeAll_remains (names : List String) (fragments : List FragmentDefinition) :
    Remains fragments (takeAll fragments names).2 := by
  induction names generalizing fragments with
  | nil => exact fun _ _ here => here
  | cons name rest ih =>
    rw [takeAll]
    split
    · exact ih fragments
    · rename_i fragment others taken
      exact fun other found here => remains_of_take? taken other found (ih others other found here)

/-- What is taken are first fragments of the names, and none of these names is left. -/
theorem takeAll_taken (member : fragment ∈ (takeAll fragments names).1) :
    fragment.name.text ∈ names ∧ named? fragments fragment.name.text = some fragment ∧
      named? (takeAll fragments names).2 fragment.name.text = none := by
  induction names generalizing fragments with
  | nil => cases member
  | cons name rest ih =>
    rw [takeAll] at member ⊢
    split at member
    · obtain ⟨among, here, gone⟩ := ih member
      exact ⟨List.mem_cons_of_mem _ among, here, gone⟩
    · rename_i first others taken
      rcases List.mem_cons.1 member with rfl | member
      · have here := (take?_eq_some taken).1
        rw [name_of_named? here]
        refine ⟨List.mem_cons_self, here, Option.eq_none_iff_forall_ne_some.2 fun other left => ?_⟩
        exact (named?_of_taken taken (takeAll_remains rest others _ _ left)).1 rfl
      · obtain ⟨among, here, gone⟩ := ih member
        exact ⟨List.mem_cons_of_mem _ among, remains_of_take? taken _ _ here, gone⟩

theorem takeAll_distinct (names : List String) (fragments : List FragmentDefinition) :
    ((takeAll fragments names).1.map fun fragment => fragment.name.text).Nodup := by
  induction names generalizing fragments with
  | nil => exact List.nodup_nil
  | cons name rest ih =>
    rw [takeAll]
    split
    · exact ih fragments
    · rename_i first others taken
      refine List.nodup_cons.2 ⟨fun repeated => ?_, ih others⟩
      obtain ⟨other, member, same⟩ := List.mem_map.1 repeated
      have apart := (named?_of_taken taken (takeAll_taken member).2.1).1
      exact apart (same.trans (name_of_named? (take?_eq_some taken).1))

/-- What is reached are first fragments of their name. -/
theorem reach_named (fragments : List FragmentDefinition) (pending : List SelectionSet)
    (member : fragment ∈ reach fragments pending) :
    named? fragments fragment.name.text = some fragment := by
  fun_induction reach fragments pending with
  | case1 fragments => cases member
  | case2 fragments set pending step ih =>
    rcases List.mem_append.1 member with member | member
    · exact (takeAll_taken member).2.1
    · exact takeAll_remains _ fragments _ _ (ih member)

theorem reach_distinct (fragments : List FragmentDefinition) (pending : List SelectionSet) :
    ((reach fragments pending).map fun fragment => fragment.name.text).Nodup := by
  fun_induction reach fragments pending with
  | case1 fragments => exact List.nodup_nil
  | case2 fragments set pending step ih =>
    rw [List.map_append, List.nodup_append]
    refine ⟨takeAll_distinct _ fragments, ih, fun name first name' second same => ?_⟩
    obtain ⟨taken, member, rfl⟩ := List.mem_map.1 first
    obtain ⟨later, found, rfl⟩ := List.mem_map.1 second
    have gone := (takeAll_taken member).2.2
    rw [same, reach_named _ _ found] at gone
    cases gone

/-- What is reached from sets that an operation leads from, the operation leads to. -/
theorem reach_sound (remains : Remains document.fragments fragments) (pending : List SelectionSet)
    (leads : ∀ set ∈ pending, ∀ spread ∈ set.spreads, document.Reaches operation spread.target) :
    ∀ fragment ∈ reach fragments pending, document.Reaches operation fragment.name.text := by
  fun_induction reach fragments pending with
  | case1 fragments => exact List.forall_mem_nil _
  | case2 fragments set pending step ih =>
    obtain ⟨own, others⟩ := List.forall_mem_cons.1 leads
    have taken : ∀ fragment ∈ step.1, document.Reaches operation fragment.name.text := by
      intro fragment member
      obtain ⟨spread, inside, same⟩ := List.mem_map.1 (takeAll_taken member).1
      exact same ▸ own spread inside
    refine List.forall_mem_append.2 ⟨taken, ih (fun name fragment here =>
      remains name fragment (takeAll_remains _ fragments name fragment here)) ?_⟩
    refine List.forall_mem_append.2 ⟨fun inner member spread inside => ?_, others⟩
    obtain ⟨fragment, found, rfl⟩ := List.mem_map.1 member
    have found := List.mem_reverse.1 found
    have known := remains _ _ (takeAll_taken found).2.1
    exact .through (taken fragment found) (Ast.leaves_iff.2 ⟨fragment, known, inside⟩)

theorem reaches_used {name : String} (reaches : document.Reaches operation name)
    (known : document.fragment? name = some fragment) :
    UsedBy document operation (.fragment fragment) := by
  induction reaches generalizing fragment with
  | own holds => exact .fragment .operation (Ast.mem_spreads.2 holds) known
  | through _ leaves ih =>
    obtain ⟨outer, found, inside⟩ := Ast.leaves_iff.1 leaves
    exact .fragment (ih found) inside known

/-- The fragments of an operation are the first ones of the names that it leads to. -/
theorem mem_fragmentsOf : fragment ∈ document.fragmentsOf operation ↔
    ∃ name, document.Reaches operation name ∧ document.fragment? name = some fragment := by
  constructor
  · intro member
    refine ⟨fragment.name.text, reach_sound (fun _ _ here => here) _ ?_ fragment member,
      reach_named _ _ member⟩
    exact List.forall_mem_singleton.2 fun spread inside => .own (Ast.mem_spreads.1 inside)
  · rintro ⟨name, reaches, known⟩
    rcases (reaches_used reaches known).found with same | ⟨found, member, same⟩
    · cases same
    · cases same
      exact member

theorem fragmentsOf_distinct (document : Document) (operation : OperationDefinition) :
    ((document.fragmentsOf operation).map fun fragment => fragment.name.text).Nodup :=
  reach_distinct _ _

/-- The name of a fragment is found exactly if an operation leads to it. -/
theorem mem_fragmentsOf_names (member : fragment ∈ document.fragments) :
    fragment.name.text ∈ (document.fragmentsOf operation).map (fun fragment => fragment.name.text) ↔
      document.Reaches operation fragment.name.text := by
  rw [List.mem_map]
  constructor
  · rintro ⟨found, inside, same⟩
    obtain ⟨name, reaches, known⟩ := mem_fragmentsOf.1 inside
    rwa [← same, name_of_named? known]
  · intro reaches
    have named : (document.fragment? fragment.name.text).isSome := by
      rw [Document.fragment?, List.find?_isSome]
      exact ⟨fragment, member, by simp⟩
    obtain ⟨first, known⟩ := Option.isSome_iff_exists.1 named
    exact ⟨first, mem_fragmentsOf.2 ⟨_, reaches, known⟩, name_of_named? known⟩

end Fragments

section Variables

/-- The variable that a walk comes to at a call. -/
def callVariable? (call : Call) : Option Variable :=
  if call.leaving then none else call.node.variable?

theorem turnUses_targets (schema : Schema) (document : Document) (scope : Scope) (calls : List Call) :
    ((turns schema document scope calls).flatMap turnUses).map VariableUsage.target =
      calls.filterMap callVariable? := by
  induction calls generalizing scope with
  | nil => rfl
  | cons call calls ih =>
    obtain ⟨leaving, node, ancestors⟩ := call
    cases leaving with
    | true => exact ih _
    | false =>
      rw [turns, List.flatMap_cons, List.map_append, ih]
      cases node with
      | value value => cases value <;> rfl
      | _ => rfl

mutual

theorem calls_uses (ancestors : List Node) : (tree : Tree) →
    (tree.calls ancestors).filterMap callVariable? = tree.uses
  | .node root parts => by
    have inner := callsAll_uses (root :: ancestors) parts
    rw [Tree.calls, List.filterMap_cons, List.filterMap_append, inner, Tree.uses, Tree.preorder,
      Tree.usesIn, List.filterMap_cons]
    simp only [callVariable?, Bool.false_eq_true, if_true, if_false, List.filterMap_cons,
      List.filterMap_nil, List.append_nil]

theorem callsAll_uses (ancestors : List Node) : (trees : List Tree) →
    (Tree.callsAll ancestors trees).filterMap callVariable? = Tree.usesIn trees
  | [] => rfl
  | tree :: rest => by
    rw [Tree.callsAll, List.filterMap_append, calls_uses ancestors tree,
      callsAll_uses ancestors rest, Tree.usesIn_cons]

end

/-- The variables used in a node are those of its tree. -/
theorem usages_targets (schema : Schema) (node : Node) :
    (usages schema node).map VariableUsage.target = node.tree.uses := by
  rw [usages_eq_turns schema ⟨[], none⟩, turnUses_targets, calls_uses]

/-- The variables that are written in an operation, and in the fragments that it leads to. -/
def reachedVariables (document : Document) (operation : OperationDefinition) : List Variable :=
  operation.uses ++ (document.fragmentsOf operation).flatMap FragmentDefinition.uses

/-- The variables that an operation uses are those that are written in it and its fragments. -/
theorem allUsages_targets (schema : Schema) (document : Document) (operation : OperationDefinition) :
    (allUsages schema document operation).map VariableUsage.target =
      reachedVariables document operation := by
  rw [allUsages, List.map_append, usages_targets, Node.tree, Tree.ofOperation_uses,
    List.map_flatMap, reachedVariables]
  simp only [usages_targets, Node.tree, Tree.ofFragment_uses]

end Variables

section Reports
variable {schema : Schema} {name : String}
  {check : Schema → Document → OperationDefinition → List Finding}

theorem ofOperation_passes {node : Node} (inner : node.isInner = true) :
    (Rule.ofOperation name check).PassesOver node := by
  intro site state same
  subst same
  refine ⟨rfl, ?_⟩
  unfold Rule.ofOperation Rule.ofCheck
  dsimp only
  split
  · rename_i here
    rw [here] at inner
    cases inner
  · rfl

/-- What a rule that looks at operations makes of a definition. -/
def checkDefinition (check : OperationDefinition → List Finding) : Definition → List Finding
  | .operation operation => check operation
  | _ => []

theorem ofOperation_whole : (Rule.ofOperation name check).Whole schema document
    fun state definition => (checkDefinition (check schema document) definition, state) := by
  intro state definition
  have parts {trees : List Tree} (inner : Tree.allIn Node.isInner trees = true) (scope : Scope)
      (ancestors : List Node) : (Rule.ofOperation name check).Tells state
        (turns schema document scope (Tree.callsAll ancestors trees)) [] state :=
    tells_nothing (fun call member =>
      ofOperation_passes (Tree.callsAll_all ancestors trees inner call member)) scope state
  cases definition with
  | operation operation =>
    show Rule.Tells _ state (turns _ _ {} ((Node.operation operation).tree.calls _)) _ _
    exact tells_end rfl (parts (Tree.ofOperation_inner operation) _ _) rfl
  | fragment fragment =>
    show Rule.Tells _ state (turns _ _ {} ((Node.fragment fragment).tree.calls _)) _ _
    exact tells_end rfl (parts (Tree.ofFragment_inner fragment) _ _) rfl
  | typeSystem definition =>
    show Rule.Tells _ state (turns _ _ {} ((Node.typeSystem definition).tree.calls _)) _ _
    exact tells_end rfl ⟨rfl, rfl⟩ rfl

/-- A rule that looks at operations reports what it finds in one after the other. -/
theorem ofOperation_reports (name : String)
    (check : Schema → Document → OperationDefinition → List Finding) (schema : Schema)
    (document : Document) : (Rule.ofOperation name check).reports (documentTurns schema document) =
      document.operations.flatMap (check schema document) := by
  have whole : (Rule.ofOperation name check).Whole schema document
      fun state definition => (checkDefinition (check schema document) definition, state) :=
    ofOperation_whole
  rw [whole.reports_each rfl rfl, List.nil_append, List.append_nil, Document.operations]
  induction document.definitions with
  | nil => rfl
  | cons definition rest ih =>
    cases definition with
    | operation operation =>
      rw [List.flatMap_cons, ih]
      rfl
    | fragment _ => exact ih
    | typeSystem _ => exact ih

theorem noUnusedFragments_whole : Rule.noUnusedFragments.Whole schema document
    fun state _ => ([], state) := by
  intro state definition
  cases definition with
  | operation operation =>
    show Rule.Tells _ state (turns _ _ {} ((Node.operation operation).tree.calls _)) _ _
    exact tells_skip rfl
  | fragment fragment =>
    show Rule.Tells _ state (turns _ _ {} ((Node.fragment fragment).tree.calls _)) _ _
    exact tells_skip rfl
  | typeSystem definition =>
    show Rule.Tells _ state (turns _ _ {} ((Node.typeSystem definition).tree.calls _)) _ _
    exact tells_end rfl ⟨rfl, rfl⟩ rfl

theorem noUnusedFragments_reports (schema : Schema) (document : Document) :
    Rule.noUnusedFragments.reports (documentTurns schema document) =
      (Rule.unusedFragments document).map fun fragment =>
        .violation (.unusedFragment fragment.name.text) [fragment.span] := by
  have whole : Rule.noUnusedFragments.Whole schema document fun state _ => ([], state) :=
    noUnusedFragments_whole
  rw [whole.reports_each rfl rfl]
  simp

end Reports

section Problems
open Rule (operationName definedNames)

/-- The problem of a variable that an operation does not define. -/
def undefinedProblem (operation : OperationDefinition) (used : Variable) : Problem :=
  .about (.undefinedVariable used.name.text (operationName operation)) [used.span, operation.span]

/-- The problem of a variable that an operation defines in vain. -/
def unusedProblem (operation : OperationDefinition) (definition : Ast.VariableDefinition) : Problem :=
  .about (.unusedVariable definition.target.name.text (operationName operation)) [definition.span]

/-- The problem of a fragment that no operation leads to. -/
def unusedFragmentProblem (fragment : FragmentDefinition) : Problem :=
  .about (.unusedFragment fragment.name.text) [fragment.span]

/-- Every use of a variable that the operation does not define is reported. -/
theorem undefined_reported (schema : Schema) (document : Document) :
    schema.validateWith [Rule.noUndefinedVariables] document =
      some (document.operations.flatMap fun operation =>
        ((reachedVariables document operation).filter fun used =>
          used.name.text ∉ definedNames operation).map (undefinedProblem operation)) := by
  apply validateWith_of_reports
  rw [Rule.noUndefinedVariables, ofOperation_reports, List.map_flatMap]
  apply congrArg (List.flatMap · document.operations)
  funext operation
  rw [← allUsages_targets schema, List.filter_map, List.map_map, List.map_map]
  have same (usage : VariableUsage) : (!(definedNames operation).contains usage.target.name.text) =
      decide (usage.target.name.text ∉ definedNames operation) := by
    simp
  simp only [same]
  rfl

/-- Every definition of a variable that is not used is reported. -/
theorem unused_reported (schema : Schema) (document : Document) :
    schema.validateWith [Rule.noUnusedVariables] document =
      some (document.operations.flatMap fun operation =>
        (operation.variableDefinitions.filter fun definition =>
          definition.target.name.text ∉ (reachedVariables document operation).map fun used =>
            used.name.text).map (unusedProblem operation)) := by
  apply validateWith_of_reports
  rw [Rule.noUnusedVariables, ofOperation_reports, List.map_flatMap]
  apply congrArg (List.flatMap · document.operations)
  funext operation
  rw [List.map_map, ← allUsages_targets schema]
  refine congrArg (List.map _) (List.filter_congr fun definition _ => ?_)
  rw [Bool.eq_iff_iff, Bool.not_eq_true', List.contains_eq_mem, decide_eq_false_iff_not,
    decide_eq_true_iff]
  rw [List.map_map]
  rfl

open scoped Classical in
/-- Every fragment whose name no operation leads to is reported. -/
theorem unusedFragments_reported (schema : Schema) (document : Document) :
    schema.validateWith [Rule.noUnusedFragments] document =
      some ((document.fragments.filter fun fragment =>
        ∀ operation ∈ document.operations,
          ¬ document.Reaches operation fragment.name.text).map unusedFragmentProblem) := by
  apply validateWith_of_reports
  rw [noUnusedFragments_reports, List.map_map, Rule.unusedFragments]
  refine congrArg (List.map _) (List.filter_congr fun fragment member => ?_)
  rw [Bool.eq_iff_iff, Bool.not_eq_true', List.contains_eq_mem, decide_eq_false_iff_not,
    decide_eq_true_iff]
  simp only [List.map_flatMap, List.mem_flatMap, mem_fragmentsOf_names member]
  exact not_exists.trans (forall_congr' fun _ => not_and)

open scoped Classical in
/-- An operation is taken to use the first fragments of the names that it leads to, each once, and the
variables that are written in it and in these fragments. So the rules report each use of a variable
without a definition, each definition of a variable without a use, and each fragment that no
operation leads to. -/
theorem reached_exactly (schema : Schema) (document : Document) :
    (∀ operation : OperationDefinition,
      (∀ fragment, fragment ∈ document.fragmentsOf operation ↔
        ∃ name, document.Reaches operation name ∧ document.fragment? name = some fragment) ∧
      ((document.fragmentsOf operation).map fun fragment => fragment.name.text).Nodup ∧
      (allUsages schema document operation).map VariableUsage.target =
        reachedVariables document operation) ∧
    schema.validateWith [Rule.noUndefinedVariables] document =
      some (document.operations.flatMap fun operation =>
        ((reachedVariables document operation).filter fun used =>
          used.name.text ∉ definedNames operation).map (undefinedProblem operation)) ∧
    schema.validateWith [Rule.noUnusedVariables] document =
      some (document.operations.flatMap fun operation =>
        (operation.variableDefinitions.filter fun definition =>
          definition.target.name.text ∉ (reachedVariables document operation).map fun used =>
            used.name.text).map (unusedProblem operation)) ∧
    schema.validateWith [Rule.noUnusedFragments] document =
      some ((document.fragments.filter fun fragment =>
        ∀ operation ∈ document.operations,
          ¬ document.Reaches operation fragment.name.text).map unusedFragmentProblem) := by
  exact ⟨fun operation => ⟨fun fragment => mem_fragmentsOf, fragmentsOf_distinct document operation,
    allUsages_targets schema document operation⟩, undefined_reported schema document,
    unused_reported schema document, unusedFragments_reported schema document⟩

end Problems
end GraphQL.Validation
