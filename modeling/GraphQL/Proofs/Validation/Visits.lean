import GraphQL.Proofs.Validation.Trace
import GraphQL.Validation.Rules.Merging

/-! The selection sets of a document with the types that they select from. The walk enters
just these, in document order, with these types in scope. -/
namespace GraphQL.Validation
open Ast (Node Document Call Tree Selection SelectionSet Definition)

/-- The type of a reference, if it has selections. -/
def selectable (schema : Schema) (type : Option TypeRef) : Option TypeDef :=
  (type.bind schema.named?).filter TypeDef.isComposite

/-- What the search for conflicts acts upon: a fragment, or a selection set with the fragment
that stands directly around it. -/
inductive Stop where
  | fragment (name : String)
  | set (around : Option String) (parent : Option TypeDef) (set : SelectionSet)

mutual

/-- The sets of a selection set, itself first. -/
def setStops (schema : Schema) (around : Option String) (type : Option TypeRef) :
    SelectionSet → List Stop
  | ⟨selections, span⟩ => .set around (selectable schema type) ⟨selections, span⟩ ::
      selectionsStops schema type (selectable schema type) selections

def selectionsStops (schema : Schema) (type : Option TypeRef) (parent : Option TypeDef) :
    List Selection → List Stop
  | [] => []
  | selection :: rest =>
      selectionStops schema type parent selection ++ selectionsStops schema type parent rest

def selectionStops (schema : Schema) (type : Option TypeRef) (parent : Option TypeDef) :
    Selection → List Stop
  | .field ⟨_, name, _, _, some set, _⟩ =>
      setStops schema none ((parent.bind fun parent => schema.field? parent name.text).map Field.type)
        set
  | .field ⟨_, _, _, _, none, _⟩ => []
  | .spread _ => []
  | .inline ⟨some condition, _, set, _⟩ =>
      setStops schema none (Scope.conditionType schema condition) set
  | .inline ⟨none, _, set, _⟩ =>
      setStops schema none (type.map fun type => .named type.innermost) set

end

def definitionStops (schema : Schema) : Definition → List Stop
  | .operation operation =>
      setStops schema none ((schema.rootType? operation.operation).map fun root => .named root.name)
        operation.selectionSet
  | .fragment fragment => .fragment fragment.name.text ::
      setStops schema (some fragment.name.text) (Scope.conditionType schema fragment.typeCondition)
        fragment.selectionSet
  | .typeSystem _ => []

def documentStops (schema : Schema) (document : Document) : List Stop :=
  document.definitions.flatMap (definitionStops schema)

/-- The fragment that stands directly around a node. -/
def around? : List Node → Option String
  | .fragment fragment :: _ => some fragment.name.text
  | _ => none

def stop? : Turn → Option Stop
  | (false, ⟨_, _, _, .fragment fragment, _⟩) => some (.fragment fragment.name.text)
  | (false, ⟨_, _, scope, .selectionSet set, ancestors⟩) =>
      some (.set (around? ancestors) scope.parent set)
  | _ => none

def Scope.move (schema : Schema) (scope : Scope) (call : Call) : Scope :=
  if call.leaving then scope.leave call.node else scope.enter schema call.node

section Walks
variable {schema : Schema} {document : Document} {types : List (Option TypeRef)}
  {parents : List (Option TypeDef)}

theorem turns_append (scope : Scope) (first second : List Call) :
    turns schema document scope (first ++ second) = turns schema document scope first ++
      turns schema document (first.foldl (Scope.move schema) scope) second := by
  induction first generalizing scope with
  | nil => rfl
  | cons call first ih =>
    obtain ⟨leaving, node, ancestors⟩ := call
    cases leaving <;> simp [turns, ih, Scope.move]

/-- From a scope with these types, the calls meet these stops and come back to these types. -/
def Walks (schema : Schema) (document : Document) (types : List (Option TypeRef))
    (parents : List (Option TypeDef)) (calls : List Call) (stops : List Stop) : Prop :=
  ∀ scope : Scope, scope.types = types → scope.parents = parents →
    (turns schema document scope calls).filterMap stop? = stops ∧
      (calls.foldl (Scope.move schema) scope).types = types ∧
      (calls.foldl (Scope.move schema) scope).parents = parents

theorem Walks.nil : Walks schema document types parents [] [] :=
  fun _ sameTypes sameParents => ⟨rfl, sameTypes, sameParents⟩

theorem Walks.append {first second : List Call} {stops others : List Stop}
    (walks : Walks schema document types parents first stops)
    (continues : Walks schema document types parents second others) :
    Walks schema document types parents (first ++ second) (stops ++ others) := by
  intro scope sameTypes sameParents
  obtain ⟨found, typesAfter, parentsAfter⟩ := walks scope sameTypes sameParents
  obtain ⟨more, typesLast, parentsLast⟩ := continues _ typesAfter parentsAfter
  rw [turns_append, List.filterMap_append, List.foldl_append]
  exact ⟨by rw [found, more], typesLast, parentsLast⟩

/-- A node around calls, which brings types into scope and takes them out again. -/
theorem Walks.around {inner : List Call} {stops : List Stop} {node : Node}
    {innerTypes : List (Option TypeRef)} {innerParents : List (Option TypeDef)}
    (walks : Walks schema document innerTypes innerParents inner stops) (ancestors : List Node)
    (met : Option Stop)
    (meets : ∀ scope : Scope, scope.types = types → scope.parents = parents →
      stop? (false, ⟨schema, document, scope.enter schema node, node, ancestors⟩) = met)
    (enters : ∀ scope : Scope, scope.types = types → scope.parents = parents →
      (scope.enter schema node).types = innerTypes ∧
        (scope.enter schema node).parents = innerParents)
    (leaves : ∀ scope : Scope, scope.types = innerTypes → scope.parents = innerParents →
      (scope.leave node).types = types ∧ (scope.leave node).parents = parents) :
    Walks schema document types parents
      (⟨false, node, ancestors⟩ :: (inner ++ [⟨true, node, ancestors⟩])) (met.toList ++ stops) := by
  intro scope sameTypes sameParents
  obtain ⟨enteredTypes, enteredParents⟩ := enters scope sameTypes sameParents
  obtain ⟨found, innerTypes, innerParents⟩ := walks _ enteredTypes enteredParents
  have last := leaves _ innerTypes innerParents
  have first := meets scope sameTypes sameParents
  rw [List.foldl_cons, List.foldl_append]
  refine ⟨?_, last⟩
  rw [turns, turns_append, List.filterMap_cons, List.filterMap_append, found, first]
  cases met <;> simp [turns, stop?]

theorem enter_quiet (schema : Schema) {node : Node} (quiet : node.isQuiet = true) (scope : Scope) :
    (scope.enter schema node).types = scope.types ∧
      (scope.enter schema node).parents = scope.parents := by
  unfold Scope.enter
  split
  all_goals first
    | exact ⟨rfl, rfl⟩
    | cases quiet

theorem leave_quiet {node : Node} (quiet : node.isQuiet = true) (scope : Scope) :
    (scope.leave node).types = scope.types ∧ (scope.leave node).parents = scope.parents := by
  unfold Scope.leave
  split
  all_goals first
    | exact ⟨rfl, rfl⟩
    | cases quiet

theorem stop_quiet {node : Node} (quiet : node.isQuiet = true) (leaving : Bool) (scope : Scope)
    (ancestors : List Node) : stop? (leaving, ⟨schema, document, scope, node, ancestors⟩) = none := by
  cases leaving with
  | false => cases node <;> first | rfl | cases quiet
  | true => rfl

theorem Walks.quiet {calls : List Call} (quiet : ∀ call ∈ calls, call.node.isQuiet = true) :
    Walks schema document types parents calls [] := by
  induction calls with
  | nil => exact .nil
  | cons call calls ih =>
    obtain ⟨leaving, node, ancestors⟩ := call
    have first : Walks schema document types parents [⟨leaving, node, ancestors⟩] [] := by
      rintro scope rfl rfl
      have silent := quiet _ List.mem_cons_self
      cases leaving with
      | false =>
        have kept := enter_quiet schema silent scope
        refine ⟨?_, kept⟩
        simp [turns, stop_quiet silent]
      | true =>
        have kept := leave_quiet silent scope
        refine ⟨?_, kept⟩
        simp [turns, stop_quiet silent]
    exact first.append (ih fun call member => quiet call (List.mem_cons_of_mem _ member))

theorem Walks.quietTree {tree : Tree} (quiet : tree.all Node.isQuiet = true)
    (ancestors : List Node) :
    Walks schema document types parents (tree.calls ancestors) [] :=
  .quiet (Tree.calls_all ancestors tree quiet)

theorem Walks.quietTrees {trees : List Tree} (quiet : Tree.allIn Node.isQuiet trees = true)
    (ancestors : List Node) :
    Walks schema document types parents (Tree.callsAll ancestors trees) [] :=
  .quiet (Tree.callsAll_all ancestors trees quiet)

theorem callsAll_append (ancestors : List Node) (first second : List Tree) :
    Tree.callsAll ancestors (first ++ second) =
      Tree.callsAll ancestors first ++ Tree.callsAll ancestors second := by
  induction first with
  | nil => rfl
  | cons tree rest ih => simp [Tree.callsAll, ih]

/-- Quiet trees in front of others change nothing. -/
theorem Walks.behind {quiet trees : List Tree} {stops : List Stop} {ancestors : List Node}
    (silent : Tree.allIn Node.isQuiet quiet = true)
    (walks : Walks schema document types parents (Tree.callsAll ancestors trees) stops) :
    Walks schema document types parents (Tree.callsAll ancestors (quiet ++ trees)) stops := by
  rw [callsAll_append]
  exact (Walks.quietTrees silent ancestors).append walks

theorem Walks.alone {tree : Tree} {stops : List Stop} {ancestors : List Node}
    (walks : Walks schema document types parents (tree.calls ancestors) stops) :
    Walks schema document types parents (Tree.callsAll ancestors [tree]) stops := by
  rw [Tree.callsAll, Tree.callsAll, List.append_nil]
  exact walks

end Walks

section Sets
variable {schema : Schema} {document : Document} {types : List (Option TypeRef)}
  {parents : List (Option TypeDef)} {stops : List Stop}

theorem Walks.field {field : Ast.Field} (ancestors : List Node)
    (inner : Walks schema document
      (((parents.head?.join).bind fun parent => schema.field? parent field.name.text).map Field.type
        :: types) parents
      (Tree.callsAll (.field field :: ancestors) (Tree.ofOptionalSet field.selectionSet)) stops) :
    Walks schema document types parents ((Tree.ofField field).calls ancestors) stops := by
  obtain ⟨nickname, name, arguments, directives, set, span⟩ := field
  have quiet : Tree.allIn Node.isQuiet
      (arguments.map Tree.ofArgument ++ directives.map Tree.ofDirective) = true := by
    rw [Tree.allIn_append, Tree.ofArguments_quiet, Tree.ofDirectives_quiet]
    rfl
  rw [Tree.ofField, Tree.calls]
  refine (inner.behind quiet).around ancestors none ?_ ?_ ?_
  · exact fun _ _ _ => rfl
  · rintro scope rfl rfl
    exact ⟨rfl, rfl⟩
  · intro scope sameTypes sameParents
    exact ⟨by simp [Scope.leave, sameTypes], sameParents⟩

theorem Walks.inline {inline : Ast.InlineFragment} (ancestors : List Node)
    (type : Option TypeRef)
    (enters : ∀ scope : Scope, scope.types = types →
      (scope.enter schema (.inline inline)) = scope.pushType type)
    (inner : Walks schema document (type :: types) parents
      ((Tree.ofSet inline.selectionSet).calls (.inline inline :: ancestors)) stops) :
    Walks schema document types parents ((Tree.ofInline inline).calls ancestors) stops := by
  obtain ⟨condition, directives, set, span⟩ := inline
  have quiet : Tree.allIn Node.isQuiet
      (condition.toList.map Tree.ofNamedType ++ directives.map Tree.ofDirective) = true := by
    have named : Tree.allIn Node.isQuiet (condition.toList.map Tree.ofNamedType) = true :=
      Tree.allIn_map fun _ _ => rfl
    rw [Tree.allIn_append, named, Tree.ofDirectives_quiet]
    rfl
  rw [Tree.ofInline, Tree.calls]
  refine (inner.alone.behind quiet).around ancestors none ?_ ?_ ?_
  · exact fun _ _ _ => rfl
  · rintro scope rfl rfl
    rw [enters scope rfl]
    exact ⟨rfl, rfl⟩
  · intro scope sameTypes sameParents
    exact ⟨by simp [Scope.leave, sameTypes], sameParents⟩

mutual

theorem set_walks (types : List (Option TypeRef)) (parents : List (Option TypeDef))
    (ancestors : List Node) : (set : SelectionSet) →
    Walks schema document types parents ((Tree.ofSet set).calls ancestors)
      (setStops schema (around? ancestors) types.head?.join set)
  | ⟨selections, span⟩ => by
    have inner := selections_walks types
      (selectable schema types.head?.join :: parents) (.selectionSet ⟨selections, span⟩ :: ancestors)
      selections
    rw [Tree.ofSet, Tree.calls, setStops]
    refine inner.around ancestors (some _) ?_ ?_ ?_
    · rintro scope rfl rfl
      rfl
    · rintro scope rfl rfl
      exact ⟨rfl, rfl⟩
    · intro scope sameTypes sameParents
      exact ⟨sameTypes, by simp [Scope.leave, sameParents]⟩

theorem selections_walks (types : List (Option TypeRef)) (parents : List (Option TypeDef))
    (ancestors : List Node) : (selections : List Selection) →
    Walks schema document types parents (Tree.callsAll ancestors (Tree.ofSelections selections))
      (selectionsStops schema types.head?.join parents.head?.join selections)
  | [] => .nil
  | selection :: rest => by
    rw [Tree.ofSelections, Tree.callsAll, selectionsStops]
    exact (selection_walks types parents ancestors selection).append
      (selections_walks types parents ancestors rest)

theorem selection_walks (types : List (Option TypeRef)) (parents : List (Option TypeDef))
    (ancestors : List Node) : (selection : Selection) →
    Walks schema document types parents ((Tree.ofSelection selection).calls ancestors)
      (selectionStops schema types.head?.join parents.head?.join selection)
  | .field ⟨nickname, name, arguments, directives, some set, span⟩ => by
    have inner := set_walks
      (((parents.head?.join).bind fun parent => schema.field? parent name.text).map Field.type :: types)
      parents (.field ⟨nickname, name, arguments, directives, some set, span⟩ :: ancestors) set
    rw [Tree.ofSelection, selectionStops]
    exact Walks.field ancestors inner.alone
  | .field ⟨nickname, name, arguments, directives, none, span⟩ => by
    rw [Tree.ofSelection, selectionStops]
    exact Walks.field ancestors .nil
  | .spread spread => by
    rw [Tree.ofSelection]
    exact .quietTree (Tree.ofSpread_quiet spread) ancestors
  | .inline ⟨some condition, directives, set, span⟩ => by
    rw [Tree.ofSelection, selectionStops]
    exact Walks.inline ancestors _ (fun _ _ => rfl) (set_walks (_ :: types) parents _ set)
  | .inline ⟨none, directives, set, span⟩ => by
    rw [Tree.ofSelection, selectionStops]
    refine Walks.inline ancestors _ (fun scope same => ?_) (set_walks (_ :: types) parents _ set)
    rw [← same]
    rfl

end

theorem operation_walks (operation : Ast.OperationDefinition) (ancestors : List Node) :
    Walks schema document types parents ((Tree.ofOperation operation).calls ancestors)
      (definitionStops schema (.operation operation)) := by
  have quiet : Tree.allIn Node.isQuiet (operation.variableDefinitions.map Tree.ofVariableDefinition
      ++ operation.directives.map Tree.ofDirective) = true := by
    have declared : Tree.allIn Node.isQuiet
        (operation.variableDefinitions.map Tree.ofVariableDefinition) = true :=
      Tree.allIn_map fun definition _ => Tree.ofVariableDefinition_quiet definition
    rw [Tree.allIn_append, declared, Tree.ofDirectives_quiet]
    rfl
  have inner : Walks schema document
      ((schema.rootType? operation.operation).map (fun root => .named root.name) :: types) parents
      _ _ := set_walks _ parents (.operation operation :: ancestors) operation.selectionSet
  rw [Tree.ofOperation, Tree.calls]
  refine (inner.alone.behind quiet).around ancestors none ?_ ?_ ?_
  · exact fun _ _ _ => rfl
  · rintro scope rfl rfl
    exact ⟨rfl, rfl⟩
  · intro scope sameTypes sameParents
    exact ⟨by simp [Scope.leave, sameTypes], sameParents⟩

theorem fragment_walks (fragment : Ast.FragmentDefinition) (ancestors : List Node) :
    Walks schema document types parents ((Tree.ofFragment fragment).calls ancestors)
      (definitionStops schema (.fragment fragment)) := by
  have quiet : Tree.allIn Node.isQuiet (Tree.ofNamedType fragment.typeCondition ::
      fragment.directives.map Tree.ofDirective) = true := by
    rw [Tree.allIn, Tree.ofDirectives_quiet]
    rfl
  have inner : Walks schema document
      (Scope.conditionType schema fragment.typeCondition :: types) parents _ _ :=
    set_walks _ parents (.fragment fragment :: ancestors) fragment.selectionSet
  rw [Tree.ofFragment, Tree.calls]
  refine (inner.alone.behind quiet).around ancestors (some _) ?_ ?_ ?_
  · exact fun _ _ _ => rfl
  · rintro scope rfl rfl
    exact ⟨rfl, rfl⟩
  · intro scope sameTypes sameParents
    exact ⟨by simp [Scope.leave, sameTypes], sameParents⟩

theorem definition_walks (definition : Definition) (ancestors : List Node) :
    Walks schema document types parents ((Tree.ofDefinition definition).calls ancestors)
      (definitionStops schema definition) := by
  cases definition with
  | operation operation => exact operation_walks operation ancestors
  | fragment fragment => exact fragment_walks fragment ancestors
  | typeSystem definition => exact .quietTree rfl ancestors

theorem definitions_walks (definitions : List Definition) (ancestors : List Node) :
    Walks schema document types parents
      (Tree.callsAll ancestors (definitions.map Tree.ofDefinition))
      (definitions.flatMap (definitionStops schema)) := by
  induction definitions with
  | nil => exact .nil
  | cons definition rest ih =>
    rw [List.map_cons, Tree.callsAll, List.flatMap_cons]
    exact (definition_walks definition ancestors).append ih

/-- The walk of a document comes to the stops of its definitions. -/
theorem documentTurns_stops (schema : Schema) (document : Document) :
    (documentTurns schema document).filterMap stop? = documentStops schema document := by
  have inner : Walks schema document [] [] _ _ :=
    definitions_walks document.definitions [.document document]
  have walks : Walks schema document [] [] ((Tree.ofDocument document).calls [])
      (documentStops schema document) := by
    rw [Tree.ofDocument, Tree.calls]
    refine inner.around [] none ?_ ?_ ?_
    · exact fun _ _ _ => rfl
    · exact fun _ sameTypes sameParents => ⟨sameTypes, sameParents⟩
    · exact fun _ sameTypes sameParents => ⟨sameTypes, sameParents⟩
  exact (walks {} rfl rfl).1

end Sets
end GraphQL.Validation
