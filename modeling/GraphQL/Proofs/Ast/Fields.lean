import GraphQL.Ast.Walk

/-! Walks as the lists of their calls, and the parts of a document that no selections stand
in. -/
namespace GraphQL.Ast

/-- A node that is entered or left, and its ancestors. -/
structure Call where
  leaving : Bool
  node : Node
  ancestors : List Node

mutual

/-- The calls of a walk that leaves nothing out. -/
def Tree.calls (ancestors : List Node) : Tree → List Call
  | node root parts =>
      ⟨false, root, ancestors⟩ ::
        (Tree.callsAll (root :: ancestors) parts ++ [⟨true, root, ancestors⟩])

def Tree.callsAll (ancestors : List Node) : List Tree → List Call
  | [] => []
  | tree :: rest => tree.calls ancestors ++ Tree.callsAll ancestors rest

end

section Walk
variable {σ : Type} {visitor : Visitor σ}

/-- The visitor never skips and never stops. -/
def Visitor.Thorough (visitor : Visitor σ) : Prop := ∀ node ancestors state,
  (visitor.enter node ancestors state).1 = .proceed ∧
    (visitor.leave node ancestors state).1 = .proceed

def Visitor.step (visitor : Visitor σ) (state : σ) (call : Call) : σ :=
  ((if call.leaving then visitor.leave else visitor.enter) call.node call.ancestors state).2

theorem state_bind {α β : Type} (x : StateM σ α) (f : α → StateM σ β) (state : σ) :
    (x >>= f) state = f (x state).1 (x state).2 := rfl

mutual

theorem Tree.walk_calls (thorough : visitor.Thorough) (ancestors : List Node) (state : σ) :
    (tree : Tree) → tree.walk visitor ancestors state =
      (true, (tree.calls ancestors).foldl visitor.step state)
  | node root parts => by
    have walked := Tree.walkAll_calls thorough (root :: ancestors)
      (visitor.enter root ancestors state).2 parts
    rw [Tree.walk, state_bind, (thorough root ancestors state).1]
    dsimp only
    rw [state_bind, walked, if_pos rfl, state_bind, (thorough root ancestors _).2, Tree.calls,
      List.foldl_cons, List.foldl_append]
    rfl

theorem Tree.walkAll_calls (thorough : visitor.Thorough) (ancestors : List Node) (state : σ) :
    (trees : List Tree) → Tree.walkAll visitor ancestors trees state =
      (true, (Tree.callsAll ancestors trees).foldl visitor.step state)
  | [] => rfl
  | tree :: rest => by
    have first := Tree.walk_calls thorough ancestors state tree
    have others := Tree.walkAll_calls thorough ancestors
      ((tree.calls ancestors).foldl visitor.step state) rest
    rw [Tree.walkAll, Tree.callsAll, List.foldl_append, ← others, state_bind, first, if_pos rfl]

end

end Walk

mutual

/-- Whether all nodes of a tree are of a kind. -/
def Tree.all (kind : Node → Bool) : Tree → Bool
  | node root parts => kind root && Tree.allIn kind parts

def Tree.allIn (kind : Node → Bool) : List Tree → Bool
  | [] => true
  | tree :: rest => tree.all kind && Tree.allIn kind rest

end

section All
variable {kind : Node → Bool}

mutual

theorem Tree.calls_all (ancestors : List Node) : (tree : Tree) → tree.all kind = true →
    ∀ call ∈ tree.calls ancestors, kind call.node = true
  | node root parts => by
    intro all call member
    rw [Tree.all, Bool.and_eq_true] at all
    simp only [Tree.calls, List.mem_cons, List.mem_append, List.not_mem_nil, or_false] at member
    rcases member with rfl | member | rfl
    · exact all.1
    · exact Tree.callsAll_all (root :: ancestors) parts all.2 call member
    · exact all.1

theorem Tree.callsAll_all (ancestors : List Node) : (trees : List Tree) →
    Tree.allIn kind trees = true → ∀ call ∈ Tree.callsAll ancestors trees, kind call.node = true
  | [] => by simp [Tree.callsAll]
  | tree :: rest => by
    intro all call member
    rw [Tree.allIn, Bool.and_eq_true] at all
    rw [Tree.callsAll, List.mem_append] at member
    rcases member with member | member
    · exact Tree.calls_all ancestors tree all.1 call member
    · exact Tree.callsAll_all ancestors rest all.2 call member

end

mutual

theorem Tree.preorder_all : (tree : Tree) → tree.all kind = true →
    ∀ node ∈ tree.preorder, kind node = true
  | node root parts => by
    intro all other member
    rw [Tree.all, Bool.and_eq_true] at all
    rw [Tree.preorder] at member
    rcases List.mem_cons.1 member with rfl | member
    · exact all.1
    · exact Tree.preorderAll_all parts all.2 other member

theorem Tree.preorderAll_all : (trees : List Tree) → Tree.allIn kind trees = true →
    ∀ node ∈ Tree.preorderAll trees, kind node = true
  | [] => fun _ _ member => absurd member List.not_mem_nil
  | tree :: rest => by
    intro all other member
    rw [Tree.allIn, Bool.and_eq_true] at all
    rw [Tree.preorderAll, List.mem_append] at member
    rcases member with member | member
    · exact Tree.preorder_all tree all.1 other member
    · exact Tree.preorderAll_all rest all.2 other member

end

mutual

theorem Tree.all_mono {other : Node → Bool} (more : ∀ node, kind node = true → other node = true) :
    (tree : Tree) → tree.all kind = true → tree.all other = true
  | node root parts => by
    rw [Tree.all, Tree.all, Bool.and_eq_true, Bool.and_eq_true]
    exact And.imp (more root) (Tree.allIn_mono more parts)

theorem Tree.allIn_mono {other : Node → Bool} (more : ∀ node, kind node = true → other node = true) :
    (trees : List Tree) → Tree.allIn kind trees = true → Tree.allIn other trees = true
  | [] => fun _ => rfl
  | tree :: rest => by
    rw [Tree.allIn, Tree.allIn, Bool.and_eq_true, Bool.and_eq_true]
    exact And.imp (Tree.all_mono more tree) (Tree.allIn_mono more rest)

end

theorem Tree.preorderAll_singleton (tree : Tree) : Tree.preorderAll [tree] = tree.preorder := by
  rw [Tree.preorderAll, Tree.preorderAll, List.append_nil]

theorem Tree.preorderAll_append (first second : List Tree) :
    Tree.preorderAll (first ++ second) = Tree.preorderAll first ++ Tree.preorderAll second := by
  induction first with
  | nil => rfl
  | cons tree rest ih => rw [List.cons_append, Tree.preorderAll, Tree.preorderAll, ih, List.append_assoc]

theorem Tree.allIn_append (first second : List Tree) :
    Tree.allIn kind (first ++ second) = (Tree.allIn kind first && Tree.allIn kind second) := by
  induction first with
  | nil => rfl
  | cons tree rest ih => simp [Tree.allIn, ih, Bool.and_assoc]

theorem Tree.allIn_map {α : Type} {f : α → Tree} {items : List α}
    (each : ∀ item ∈ items, (f item).all kind = true) : Tree.allIn kind (items.map f) = true := by
  induction items with
  | nil => rfl
  | cons item items ih =>
    have first := each item List.mem_cons_self
    have others := ih fun other member => each other (List.mem_cons_of_mem _ member)
    simp [Tree.allIn, first, others]

end All

/-- Nodes that neither hold selections nor stand for a type to select from. -/
def Node.isQuiet : Node → Bool
  | .document _ | .operation _ | .selectionSet _ | .field _ | .inline _ | .fragment _ => false
  | _ => true

section Kinds
variable {kind : Node → Bool}

mutual

/-- A literal is made of values and of fields of objects. -/
theorem Tree.ofValue_all (values : ∀ value, kind (.value value) = true)
    (fields : ∀ field, kind (.objectField field) = true) :
    (value : Value) → (Tree.ofValue value).all kind = true
  | .list literals _ => by
    simp [Tree.ofValue, Tree.all, values, Tree.ofValues_all values fields literals]
  | .object written _ => by
    simp [Tree.ofValue, Tree.all, values, Tree.ofObjectFields_all values fields written]
  | .var _ | .int _ _ | .float _ _ | .string _ _ | .boolean _ _ | .null _ | .enum _ _ => by
    simp [Tree.ofValue, Tree.all, Tree.allIn, values]

theorem Tree.ofValues_all (values : ∀ value, kind (.value value) = true)
    (fields : ∀ field, kind (.objectField field) = true) :
    (literals : List Value) → Tree.allIn kind (Tree.ofValues literals) = true
  | [] => rfl
  | literal :: rest => by
    simp [Tree.ofValues, Tree.allIn, Tree.ofValue_all values fields literal,
      Tree.ofValues_all values fields rest]

theorem Tree.ofObjectFields_all (values : ∀ value, kind (.value value) = true)
    (fields : ∀ field, kind (.objectField field) = true) :
    (written : List ObjectField) → Tree.allIn kind (Tree.ofObjectFields written) = true
  | [] => rfl
  | ⟨name, value, span⟩ :: rest => by
    simp [Tree.ofObjectFields, Tree.ofObjectField, Tree.allIn, Tree.all, fields,
      Tree.ofValue_all values fields value, Tree.ofObjectFields_all values fields rest]

end

theorem Tree.ofType_all (names : ∀ type, kind (.namedType type) = true)
    (lists : ∀ item span, kind (.listType item span) = true)
    (nonNulls : ∀ type span, kind (.nonNullType type span) = true) (type : TypeAnnotation) :
    (Tree.ofType type).all kind = true := by
  induction type with
  | named type => simp [Tree.ofType, Tree.all, Tree.allIn, names]
  | list item span ih => simp [Tree.ofType, Tree.all, Tree.allIn, lists, ih]
  | nonNull type span ih => simp [Tree.ofType, Tree.all, Tree.allIn, nonNulls, ih]

end Kinds

section Quiet

theorem Tree.ofValue_quiet (value : Value) : (Tree.ofValue value).all Node.isQuiet = true :=
  Tree.ofValue_all (fun _ => rfl) (fun _ => rfl) value

theorem Tree.ofType_quiet (type : TypeAnnotation) :
    (Tree.ofType type).all Node.isQuiet = true :=
  Tree.ofType_all (fun _ => rfl) (fun _ _ => rfl) (fun _ _ => rfl) type

theorem Tree.ofArgument_quiet (argument : Argument) :
    (Tree.ofArgument argument).all Node.isQuiet = true := by
  simp [Tree.ofArgument, Tree.all, Tree.allIn, Node.isQuiet, Tree.ofValue_quiet]

theorem Tree.ofArguments_quiet (arguments : List Argument) :
    Tree.allIn Node.isQuiet (arguments.map Tree.ofArgument) = true :=
  Tree.allIn_map fun argument _ => Tree.ofArgument_quiet argument

theorem Tree.ofDirective_quiet (directive : Directive) :
    (Tree.ofDirective directive).all Node.isQuiet = true := by
  simp [Tree.ofDirective, Tree.all, Node.isQuiet, Tree.ofArguments_quiet]

theorem Tree.ofDirectives_quiet (directives : List Directive) :
    Tree.allIn Node.isQuiet (directives.map Tree.ofDirective) = true :=
  Tree.allIn_map fun directive _ => Tree.ofDirective_quiet directive

theorem Tree.ofSpread_quiet (spread : FragmentSpread) :
    (Tree.ofSpread spread).all Node.isQuiet = true := by
  simp [Tree.ofSpread, Tree.all, Node.isQuiet, Tree.ofDirectives_quiet]

theorem Tree.ofVariableDefinition_quiet (definition : VariableDefinition) :
    (Tree.ofVariableDefinition definition).all Node.isQuiet = true := by
  have defaults : Tree.allIn Node.isQuiet (definition.defaultValue.toList.map Tree.ofValue) = true :=
    Tree.allIn_map fun value _ => Tree.ofValue_quiet value
  simp [Tree.ofVariableDefinition, Tree.all, Tree.allIn, Node.isQuiet, Tree.ofType_quiet, defaults]

end Quiet

/-- Nodes that stand inside definitions. -/
def Node.isInner : Node → Bool
  | .document _ | .operation _ | .fragment _ => false
  | _ => true

section Inner

theorem Node.isInner_of_quiet (node : Node) (quiet : node.isQuiet = true) : node.isInner = true := by
  cases node <;> first | rfl | cases quiet

theorem Tree.allIn_inner {trees : List Tree} (quiet : Tree.allIn Node.isQuiet trees = true) :
    Tree.allIn Node.isInner trees = true :=
  Tree.allIn_mono Node.isInner_of_quiet trees quiet

mutual

theorem Tree.ofSet_inner : (set : SelectionSet) → (Tree.ofSet set).all Node.isInner = true
  | ⟨selections, _⟩ => by
    rw [Tree.ofSet, Tree.all, Tree.ofSelections_inner selections]
    rfl

theorem Tree.ofSelections_inner : (selections : List Selection) →
    Tree.allIn Node.isInner (Tree.ofSelections selections) = true
  | [] => rfl
  | selection :: rest => by
    rw [Tree.ofSelections, Tree.allIn, Tree.ofSelection_inner selection, Tree.ofSelections_inner rest]
    rfl

theorem Tree.ofSelection_inner : (selection : Selection) →
    (Tree.ofSelection selection).all Node.isInner = true
  | .field ⟨_, _, arguments, directives, none, _⟩ => by
    rw [Tree.ofSelection, Tree.ofField, Tree.all, Tree.allIn_append, Tree.allIn_append,
      Tree.allIn_inner (Tree.ofArguments_quiet arguments),
      Tree.allIn_inner (Tree.ofDirectives_quiet directives)]
    rfl
  | .field ⟨_, _, arguments, directives, some set, _⟩ => by
    rw [Tree.ofSelection, Tree.ofField, Tree.all, Tree.allIn_append, Tree.allIn_append,
      Tree.allIn_inner (Tree.ofArguments_quiet arguments),
      Tree.allIn_inner (Tree.ofDirectives_quiet directives), Tree.ofOptionalSet, Tree.allIn,
      Tree.ofSet_inner set]
    rfl
  | .spread spread => Tree.all_mono Node.isInner_of_quiet _ (Tree.ofSpread_quiet spread)
  | .inline ⟨condition, directives, set, _⟩ => by
    have named : Tree.allIn Node.isInner (condition.toList.map Tree.ofNamedType) = true :=
      Tree.allIn_map fun _ _ => rfl
    rw [Tree.ofSelection, Tree.ofInline, Tree.all, Tree.allIn_append, Tree.allIn_append, named,
      Tree.allIn_inner (Tree.ofDirectives_quiet directives), Tree.allIn, Tree.ofSet_inner set]
    rfl

end

/-- The parts of an operation stand inside definitions. -/
theorem Tree.ofOperation_inner (operation : OperationDefinition) :
    Tree.allIn Node.isInner (Tree.ofOperation operation).parts = true := by
  have declared : Tree.allIn Node.isQuiet
      (operation.variableDefinitions.map Tree.ofVariableDefinition) = true :=
    Tree.allIn_map fun definition _ => Tree.ofVariableDefinition_quiet definition
  rw [Tree.ofOperation, Tree.parts, Tree.allIn_append, Tree.allIn_append, Tree.allIn_inner declared,
    Tree.allIn_inner (Tree.ofDirectives_quiet _), Tree.allIn, Tree.ofSet_inner]
  rfl

/-- The parts of a fragment stand inside definitions. -/
theorem Tree.ofFragment_inner (fragment : FragmentDefinition) :
    Tree.allIn Node.isInner (Tree.ofFragment fragment).parts = true := by
  rw [Tree.ofFragment, Tree.parts, Tree.allIn_append, Tree.allIn,
    Tree.allIn_inner (Tree.ofDirectives_quiet _), Tree.allIn, Tree.ofSet_inner]
  rfl

end Inner
end GraphQL.Ast

/-! The fields among the nodes of a document. -/
namespace GraphQL.Ast

/-- What is selected below a field. -/
def Field.inner (field : Field) : List Selection :=
  field.selectionSet.elim [] SelectionSet.selections

/-- A field stands among the nodes of some trees. -/
def Tree.HasField (field : Field) (trees : List Tree) : Prop := .field field ∈ Tree.preorderAll trees

/-- A field is one of some selections, or stands below one, at any depth. -/
def Selection.HasField (field : Field) (selections : List Selection) : Prop :=
  Tree.HasField field (Tree.ofSelections selections)

section Fields
variable {field : Field}

theorem Tree.hasField_nil : ¬ Tree.HasField field [] := List.not_mem_nil

theorem Tree.hasField_cons {tree : Tree} {rest : List Tree} :
    Tree.HasField field (tree :: rest) ↔ .field field ∈ tree.preorder ∨ Tree.HasField field rest := by
  rw [HasField, HasField, Tree.preorderAll, List.mem_append]

/-- Arguments, directives and types have no fields. -/
theorem Tree.hasField_behind {quiet trees : List Tree} (silent : Tree.allIn Node.isQuiet quiet = true) :
    Tree.HasField field (quiet ++ trees) ↔ Tree.HasField field trees := by
  rw [HasField, Tree.preorderAll_append, List.mem_append]
  refine or_iff_right fun member => ?_
  have none := Tree.preorderAll_all quiet silent _ member
  cases none

theorem Tree.field_mem_node {root : Node} {parts : List Tree} (apart : Node.field field ≠ root) :
    .field field ∈ (Tree.node root parts).preorder ↔ Tree.HasField field parts := by
  rw [Tree.preorder, List.mem_cons, or_iff_right apart]
  exact Iff.rfl

theorem Tree.field_mem_set (set : SelectionSet) :
    .field field ∈ (Tree.ofSet set).preorder ↔ Selection.HasField field set.selections := by
  obtain ⟨selections, span⟩ := set
  rw [Tree.ofSet, Tree.field_mem_node (by simp)]
  exact Iff.rfl

theorem Tree.hasField_set (set : SelectionSet) :
    Tree.HasField field [Tree.ofSet set] ↔ Selection.HasField field set.selections := by
  rw [Tree.hasField_cons, Tree.field_mem_set]
  exact or_iff_left Tree.hasField_nil

theorem Selection.hasField_nil : ¬ Selection.HasField field [] := Tree.hasField_nil

theorem Selection.hasField_cons {selection : Selection} {rest : List Selection} :
    Selection.HasField field (selection :: rest) ↔
      Selection.HasField field [selection] ∨ Selection.HasField field rest := by
  rw [HasField, HasField, HasField, Tree.ofSelections, Tree.ofSelections, Tree.ofSelections,
    Tree.hasField_cons, Tree.hasField_cons, or_iff_left Tree.hasField_nil]

theorem Selection.hasField_field {node : Field} {rest : List Selection} :
    Selection.HasField field (.field node :: rest) ↔
      field = node ∨ Selection.HasField field node.inner ∨ Selection.HasField field rest := by
  obtain ⟨nickname, name, arguments, directives, set, span⟩ := node
  have quiet : Tree.allIn Node.isQuiet
      (arguments.map Tree.ofArgument ++ directives.map Tree.ofDirective) = true := by
    rw [Tree.allIn_append, Tree.ofArguments_quiet, Tree.ofDirectives_quiet]
    rfl
  have below : Tree.HasField field (Tree.ofOptionalSet set) ↔ Selection.HasField field
      (Field.inner ⟨nickname, name, arguments, directives, set, span⟩) := by
    cases set with
    | none => exact Iff.rfl
    | some set => exact Tree.hasField_set set
  rw [Selection.HasField, Tree.ofSelections, Tree.hasField_cons, Tree.ofSelection, Tree.ofField,
    Tree.preorder, List.mem_cons, Node.field.injEq, or_assoc, ← below]
  exact or_congr_right (or_congr_left (Tree.hasField_behind quiet))

theorem Selection.hasField_spread {spread : FragmentSpread} {rest : List Selection} :
    Selection.HasField field (.spread spread :: rest) ↔ Selection.HasField field rest := by
  have quiet : Tree.allIn Node.isQuiet [Tree.ofSpread spread] = true := by
    rw [Tree.allIn, Tree.allIn, Tree.ofSpread_quiet]
    rfl
  exact Tree.hasField_behind quiet

theorem Selection.hasField_inline {inline : InlineFragment} {rest : List Selection} :
    Selection.HasField field (.inline inline :: rest) ↔
      Selection.HasField field inline.selectionSet.selections ∨ Selection.HasField field rest := by
  obtain ⟨condition, directives, set, span⟩ := inline
  have named : Tree.allIn Node.isQuiet (condition.toList.map Tree.ofNamedType) = true :=
    Tree.allIn_map fun _ _ => rfl
  have quiet : Tree.allIn Node.isQuiet
      (condition.toList.map Tree.ofNamedType ++ directives.map Tree.ofDirective) = true := by
    rw [Tree.allIn_append, named, Tree.ofDirectives_quiet]
    rfl
  rw [Selection.HasField, Tree.ofSelections, Tree.hasField_cons, Tree.ofSelection, Tree.ofInline,
    Tree.field_mem_node (by simp), ← Tree.hasField_set]
  exact or_congr_left (Tree.hasField_behind quiet)

/-- The selections that a definition has. -/
def Definition.selections : Definition → List Selection
  | .operation d => d.selectionSet.selections
  | .fragment d => d.selectionSet.selections
  | .typeSystem _ => []

theorem Tree.field_mem_definition (definition : Definition) :
    .field field ∈ (Tree.ofDefinition definition).preorder ↔
      Selection.HasField field definition.selections := by
  cases definition with
  | operation operation =>
    have declared : Tree.allIn Node.isQuiet
        (operation.variableDefinitions.map Tree.ofVariableDefinition) = true :=
      Tree.allIn_map fun definition _ => Tree.ofVariableDefinition_quiet definition
    have quiet : Tree.allIn Node.isQuiet (operation.variableDefinitions.map
        Tree.ofVariableDefinition ++ operation.directives.map Tree.ofDirective) = true := by
      rw [Tree.allIn_append, declared, Tree.ofDirectives_quiet]
      rfl
    rw [Tree.ofDefinition, Tree.ofOperation, Tree.field_mem_node (by simp), Definition.selections,
      ← Tree.hasField_set]
    exact Tree.hasField_behind quiet
  | fragment fragment =>
    have quiet : Tree.allIn Node.isQuiet (Tree.ofNamedType fragment.typeCondition ::
        fragment.directives.map Tree.ofDirective) = true := by
      rw [Tree.allIn, Tree.ofDirectives_quiet]
      rfl
    rw [Tree.ofDefinition, Tree.ofFragment, Tree.field_mem_node (by simp), Definition.selections,
      ← Tree.hasField_set]
    exact Tree.hasField_behind quiet
  | typeSystem definition =>
    rw [Tree.ofDefinition, Tree.field_mem_node (by simp)]
    exact Iff.rfl

theorem Tree.field_mem_document (document : Document) :
    .field field ∈ (Node.document document).tree.preorder ↔
      ∃ definition ∈ document.definitions, Selection.HasField field definition.selections := by
  have trees (definitions : List Definition) :
      Tree.HasField field (definitions.map Tree.ofDefinition) ↔
        ∃ definition ∈ definitions, Selection.HasField field definition.selections := by
    induction definitions with
    | nil => simp [Tree.hasField_nil]
    | cons first rest ih =>
      rw [List.map_cons, Tree.hasField_cons, ih, Tree.field_mem_definition]
      simp
  rw [Node.tree, Tree.ofDocument, Tree.field_mem_node (by simp), trees]

end Fields
end GraphQL.Ast
