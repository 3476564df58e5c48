import GraphQL.Proofs.Schema.Typing
import GraphQL.Proofs.Validation.Accepted
import GraphQL.Proofs.Validation.Spreading

/-! The selection sets of an accepted document select from types that have selections, and all
that they select has a definition there. -/
namespace GraphQL.Validation
open Ast (Node Document Tree Selection SelectionSet FragmentDefinition OperationDefinition)
open Overlap (Selected fieldsOf fieldsIn fieldsBy Expands Stands fragmentFields spreadsOf)

variable {schema : Schema} {document : Document} {root : Node}

section Children

/-- The node of a selection. -/
def nodeOf : Selection → Node
  | .field field => .field field
  | .spread spread => .spread spread
  | .inline inline => .inline inline

theorem child_of_selection {set : SelectionSet} {selection : Selection}
    (member : selection ∈ set.selections) : nodeOf selection ∈ (Node.selectionSet set).children := by
  obtain ⟨selections, span⟩ := set
  refine List.mem_map.2 ⟨Tree.ofSelection selection, mem_ofSelections.2 ⟨selection, member, rfl⟩, ?_⟩
  cases selection with
  | field field => exact tree_root (.field field)
  | spread spread => exact tree_root (.spread spread)
  | inline inline => exact tree_root (.inline inline)

theorem child_of_field {set : SelectionSet} {field : Ast.Field} (has : field.selectionSet = some set) :
    .selectionSet set ∈ (Node.field field).children := by
  obtain ⟨nickname, name, arguments, directives, selections, span⟩ := field
  cases has
  exact List.mem_map.2 ⟨Tree.ofSet set, List.mem_append_right _ List.mem_cons_self,
    tree_root (.selectionSet set)⟩

theorem child_of_inline (inline : Ast.InlineFragment) :
    .selectionSet inline.selectionSet ∈ (Node.inline inline).children := by
  obtain ⟨condition, directives, set, span⟩ := inline
  exact List.mem_map.2 ⟨Tree.ofSet set, List.mem_append_right _ List.mem_cons_self,
    tree_root (.selectionSet set)⟩

theorem child_of_fragment (fragment : FragmentDefinition) :
    .selectionSet fragment.selectionSet ∈ (Node.fragment fragment).children :=
  List.mem_map.2 ⟨Tree.ofSet fragment.selectionSet, List.mem_append_right _ List.mem_cons_self,
    tree_root (.selectionSet fragment.selectionSet)⟩

theorem child_of_operation (operation : OperationDefinition) :
    .selectionSet operation.selectionSet ∈ (Node.operation operation).children :=
  List.mem_map.2 ⟨Tree.ofSet operation.selectionSet, List.mem_append_right _ List.mem_cons_self,
    tree_root (.selectionSet operation.selectionSet)⟩

theorem fragment_child {fragment : FragmentDefinition} (member : fragment ∈ document.fragments) :
    .fragment fragment ∈ (Node.document document).children := by
  obtain ⟨definition, inside, found⟩ := List.mem_filterMap.1 member
  cases definition with
  | fragment _ =>
    cases found
    exact List.mem_map.2 ⟨_, List.mem_map_of_mem inside, tree_root (.fragment fragment)⟩
  | _ => cases found

theorem operation_child {operation : OperationDefinition} (member : operation ∈ document.operations) :
    .operation operation ∈ (Node.document document).children := by
  obtain ⟨definition, inside, found⟩ := List.mem_filterMap.1 member
  cases definition with
  | operation _ =>
    cases found
    exact List.mem_map.2 ⟨_, List.mem_map_of_mem inside, tree_root (.operation operation)⟩
  | _ => cases found

end Children

/-- The walk of a document comes to a node, and so does the walk of one of its definitions. -/
structure Inside (schema : Schema) (document : Document) (root : Node) (scope : Scope)
    (ancestors : List Node) (node : Node) : Prop where
  entered : Entered schema (.document document) scope ancestors node
  below : ∃ around, Entered schema root scope around node

/-- The walk of a document comes to a selection set on a type, inside one of its definitions. -/
def SelectsFrom (schema : Schema) (document : Document) (root : Node) (parent : TypeDef)
    (set : SelectionSet) : Prop :=
  ∃ scope ancestors, Inside schema document root scope ancestors (.selectionSet set) ∧
    selectable schema scope.type = some parent

/-- A field has a definition on the type that it is selected from, of a known type. It has a
selection set exactly if its type has one, and the walk comes to it on that type. -/
structure Typed (schema : Schema) (document : Document) (root : Node) (outer : TypeDef)
    (declared : Field) (result : TypeDef) (selected : Selected) : Prop where
  entered : ∃ scope ancestors, Inside schema document root scope ancestors (.field selected.node) ∧
    scope.parent = some outer
  parent : selected.parent = some outer
  known : schema.type? outer.name = some outer
  field : schema.field? outer selected.node.name.text = some declared
  definition : selected.definition = some declared
  type : schema.named? declared.type = some result
  output : result.isOutput = true
  leaf : result.isLeaf = true ↔ selected.node.selectionSet = none
  inside : ∀ set, selected.node.selectionSet = some set → SelectsFrom schema document root result set

section Sets
variable {parent : TypeDef} {set : SelectionSet}

theorem Inside.part {scope : Scope} {ancestors : List Node} {node child : Node}
    (inside : Inside schema document root scope ancestors node) (loud : node.isQuiet = false)
    (member : child ∈ node.children) :
    Inside schema document root (scope.enter schema node) (node :: ancestors) child := by
  obtain ⟨entered, around, below⟩ := inside
  exact ⟨entered.part loud member, _, below.part loud member⟩

theorem inside_definition (member : root ∈ (Node.document document).children) :
    Inside schema document root {} [.document document] root :=
  ⟨Entered.root.part rfl member, [], .root⟩

theorem selectable_eq_some {type : Option TypeRef} (selects : selectable schema type = some parent) :
    ∃ reference, type = some reference ∧ schema.named? reference = some parent ∧
      parent.isComposite = true := by
  obtain ⟨found, composite⟩ := Option.filter_eq_some_iff.1 selects
  obtain ⟨reference, rfl, known⟩ := Option.bind_eq_some_iff.1 found
  exact ⟨reference, rfl, known, composite⟩

theorem selectable_of_named {reference : TypeRef} (known : schema.named? reference = some parent)
    (composite : parent.isComposite = true) : selectable schema (some reference) = some parent := by
  rw [selectable, Option.bind_some, known]
  exact Option.filter_eq_some_iff.2 ⟨rfl, composite⟩

theorem selectable_of_condition {condition : Ast.NamedType}
    (known : schema.type? condition.name.text = some parent) (composite : parent.isComposite = true) :
    selectable schema (Scope.conditionType schema condition) = some parent := by
  have output : parent.isOutput = true := by cases parent <;> first | rfl | cases composite
  have type : Scope.conditionType schema condition = some (.named parent.name) := by
    rw [Scope.conditionType, known, Option.filter_eq_some_iff.2 ⟨rfl, output⟩, Option.map_some]
  rw [type]
  exact selectable_of_named (Schema.type?_name known) composite

theorem SelectsFrom.known (selects : SelectsFrom schema document root parent set) :
    schema.type? parent.name = some parent ∧ parent.isComposite = true := by
  obtain ⟨scope, ancestors, -, selects⟩ := selects
  obtain ⟨reference, -, known, composite⟩ := selectable_eq_some selects
  exact ⟨Schema.type?_name known, composite⟩

theorem SelectsFrom.stop (selects : SelectsFrom schema document root parent set) :
    ∃ around, .set around (some parent) set ∈ documentStops schema document := by
  obtain ⟨scope, ancestors, inside, selects⟩ := selects
  exact ⟨around? ancestors, selects ▸ inside.entered.stop⟩

theorem SelectsFrom.spreads (selects : SelectsFrom schema document root parent set) :
    set.spreads ⊆ spreadsInside root := by
  obtain ⟨scope, ancestors, ⟨-, around, below⟩, -⟩ := selects
  exact below.spreads

/-- The walk comes to selections in the scope of a type that has selections. -/
structure Within (schema : Schema) (document : Document) (root : Node) (parent : TypeDef)
    (scope : Scope) (ancestors : List Node) (selections : List Selection) : Prop where
  inside : ∀ selection ∈ selections,
    Inside schema document root scope ancestors (nodeOf selection)
  type : selectable schema scope.type = some parent
  parent : scope.parent = some parent

theorem SelectsFrom.within (selects : SelectsFrom schema document root parent set) :
    ∃ scope ancestors, Within schema document root parent scope ancestors set.selections := by
  obtain ⟨scope, ancestors, inside, selects⟩ := selects
  exact ⟨_, _, fun selection member => inside.part rfl (child_of_selection member), selects, selects⟩

/-- A field of a set is typed. -/
theorem field_typed (built : schema.Built) (accepted : schema.validate document = some [])
    {scope : Scope} {ancestors : List Node} {field : Ast.Field}
    (inside : Inside schema document root scope ancestors (.field field))
    (around : scope.parent = some parent) (known : schema.type? parent.name = some parent) :
    ∃ definition type, Typed schema document root parent definition type
      ⟨some parent, field, (some parent).bind fun type => schema.field? type field.name.text⟩ := by
  obtain ⟨definition, found, leaf⟩ := field_accepted accepted inside.entered around
  obtain ⟨type, here, output⟩ := built.selected_output known found
  refine ⟨definition, type, ⟨scope, ancestors, inside, around⟩, rfl, known, found, found, here, output,
    leaf type here, fun set has => ?_⟩
  have has : field.selectionSet = some set := has
  have notLeaf : ¬ type.isLeaf = true := mt (leaf type here).1 (by rw [has]; nofun)
  refine ⟨_, _, inside.part rfl (child_of_field has), ?_⟩
  have typed : (scope.enter schema (.field field)).type = some definition.type := by
    show (scope.parent.bind fun parent => schema.field? parent field.name.text).map Field.type = _
    rw [around, Option.bind_some, found]
    rfl
  rw [typed]
  exact selectable_of_named here (Schema.composite_of_output output notLeaf)

mutual

/-- All fields of a selection set are typed, those of its inline fragments included. -/
theorem set_typed (built : schema.Built) (accepted : schema.validate document = some [])
    (parent : TypeDef) : (set : SelectionSet) → SelectsFrom schema document root parent set →
    ∀ selected ∈ fieldsOf schema (some parent) set,
      ∃ around definition type, Typed schema document root around definition type selected
  | ⟨selections, span⟩ => by
    intro selects
    obtain ⟨scope, ancestors, within⟩ := selects.within
    rw [fieldsOf]
    exact selections_typed built accepted parent scope ancestors selects.known.1 selections within

theorem selections_typed (built : schema.Built) (accepted : schema.validate document = some [])
    (parent : TypeDef) (scope : Scope) (ancestors : List Node)
    (known : schema.type? parent.name = some parent) : (selections : List Selection) →
    Within schema document root parent scope ancestors selections →
    ∀ selected ∈ fieldsIn schema (some parent) selections,
      ∃ around definition type, Typed schema document root around definition type selected
  | [] => fun _ _ member => by
    rw [fieldsIn] at member
    cases member
  | selection :: rest => by
    intro within selected member
    obtain ⟨inside, others⟩ := List.forall_mem_cons.1 within.inside
    rw [fieldsIn] at member
    rcases List.mem_append.1 member with member | member
    · exact selection_typed built accepted parent scope ancestors known within.type within.parent
        selection inside selected member
    · exact selections_typed built accepted parent scope ancestors known rest
        ⟨others, within.type, within.parent⟩ selected member

theorem selection_typed (built : schema.Built) (accepted : schema.validate document = some [])
    (parent : TypeDef) (scope : Scope) (ancestors : List Node)
    (known : schema.type? parent.name = some parent) (type : selectable schema scope.type = some parent)
    (around : scope.parent = some parent) : (selection : Selection) →
    Inside schema document root scope ancestors (nodeOf selection) →
    ∀ selected ∈ fieldsBy schema (some parent) selection,
      ∃ around definition type, Typed schema document root around definition type selected
  | .field field => by
    intro inside selected member
    rw [fieldsBy] at member
    rw [List.mem_singleton.1 member]
    exact ⟨parent, field_typed built accepted inside around known⟩
  | .spread _ => fun _ _ member => by
    rw [fieldsBy] at member
    cases member
  | .inline ⟨some condition, directives, set, span⟩ => by
    intro inside
    obtain ⟨inner, found, composite⟩ := inline_accepted accepted inside.entered rfl
    rw [fieldsBy, found]
    refine set_typed built accepted inner set ⟨_, _, inside.part rfl (child_of_inline _), ?_⟩
    exact selectable_of_condition found composite
  | .inline ⟨none, directives, set, span⟩ => by
    intro inside
    rw [fieldsBy]
    refine set_typed built accepted parent set ⟨_, _, inside.part rfl (child_of_inline _), ?_⟩
    obtain ⟨reference, same, named, composite⟩ := selectable_eq_some type
    have inner : (scope.enter schema (.inline ⟨none, directives, set, span⟩)).type =
        some (.named reference.innermost) := by
      show scope.type.map (fun type => TypeRef.named type.innermost) = _
      rw [same]
      rfl
    rw [nodeOf, inner]
    exact selectable_of_named named composite

end

/-- The set of a fragment selects from the type of the fragment. -/
theorem fragment_selects (accepted : schema.validate document = some [])
    {fragment : FragmentDefinition} (member : fragment ∈ document.fragments) :
    ∃ type, schema.type? fragment.typeCondition.name.text = some type ∧
      SelectsFrom schema document (.fragment fragment) type fragment.selectionSet := by
  have inside : Inside schema document (.fragment fragment) {} _ (.fragment fragment) :=
    inside_definition (fragment_child member)
  obtain ⟨type, found, composite⟩ := fragment_accepted accepted inside.entered
  refine ⟨type, found, _, _, inside.part rfl (child_of_fragment fragment), ?_⟩
  exact selectable_of_condition found composite

/-- The set of an operation selects from its root type. -/
theorem operation_selects (built : schema.Built) {operation : OperationDefinition} {object : ObjectType}
    (member : operation ∈ document.operations)
    (found : schema.rootType? operation.operation = some object) :
    SelectsFrom schema document (.operation operation) (.object object) operation.selectionSet := by
  have inside : Inside schema document (.operation operation) {} _ (.operation operation) :=
    inside_definition (operation_child member)
  refine ⟨_, _, inside.part rfl (child_of_operation operation), ?_⟩
  have type : (({} : Scope).enter schema (.operation operation)).type = some (.named object.name) := by
    show (schema.rootType? operation.operation).map (fun object => TypeRef.named object.name) = _
    rw [found]
    rfl
  rw [type]
  exact selectable_of_named (built.rootType operation.operation found) rfl

/-- All fields that a selection set expands to are typed, in definitions that are used where the
set is. -/
theorem expands_typed (built : schema.Built) (accepted : schema.validate document = some [])
    {operation : OperationDefinition} (used : UsedBy document operation root)
    (selects : SelectsFrom schema document root parent set) {source : Option String}
    {fields : List Selected} (expands : Expands schema document (some parent) set source fields)
    {selected : Selected} (member : selected ∈ fields) :
    ∃ user around definition type, UsedBy document operation user ∧
      Typed schema document user around definition type selected := by
  cases expands with
  | own =>
    obtain ⟨around, definition, type, typed⟩ :=
      set_typed built accepted parent set selects selected member
    exact ⟨root, around, definition, type, used, typed⟩
  | @spread fragment stands =>
    obtain ⟨type, known, inner⟩ := fragment_selects accepted stands.member
    rw [fragmentFields, known] at member
    obtain ⟨around, definition, type, typed⟩ :=
      set_typed built accepted type _ inner selected member
    exact ⟨.fragment fragment, around, definition, type, used.stands selects.spreads stands, typed⟩

end Sets

section Spreads

mutual

/-- All spreads inside a selection set name fragments. -/
theorem set_spreads (accepted : schema.validate document = some []) {scope : Scope}
    {ancestors : List Node} : (set : SelectionSet) →
    Entered schema (.document document) scope ancestors (.selectionSet set) →
    ∀ spread ∈ set.spreads, ∃ fragment, document.fragment? spread.target = some fragment
  | ⟨selections, span⟩ => by
    intro entered spread member
    have each : ∀ selection ∈ selections, Entered schema (.document document) _ _ (nodeOf selection) :=
      fun selection inside =>
        entered.part rfl (@child_of_selection ⟨selections, span⟩ _ inside)
    rw [SelectionSet.spreads] at member
    rcases List.mem_append.1 member with member | member
    · obtain ⟨selection, inside, found⟩ := List.mem_filterMap.1 member
      cases selection with
      | spread _ =>
        cases found
        exact spread_accepted accepted (each _ inside)
      | _ => cases found
    · exact selections_spreads accepted selections each spread member

theorem selections_spreads (accepted : schema.validate document = some []) {scope : Scope}
    {ancestors : List Node} : (selections : List Selection) →
    (∀ selection ∈ selections, Entered schema (.document document) scope ancestors (nodeOf selection)) →
    ∀ spread ∈ Selection.spreadsBelow selections,
      ∃ fragment, document.fragment? spread.target = some fragment
  | [] => fun _ _ member => by
    rw [Selection.spreadsBelow] at member
    cases member
  | selection :: rest => by
    intro each spread member
    obtain ⟨first, others⟩ := List.forall_mem_cons.1 each
    rw [Selection.spreadsBelow] at member
    rcases List.mem_append.1 member with member | member
    · exact selections_spreads accepted rest others spread member
    · exact selection_spreads accepted selection first spread member

theorem selection_spreads (accepted : schema.validate document = some []) {scope : Scope}
    {ancestors : List Node} : (selection : Selection) →
    Entered schema (.document document) scope ancestors (nodeOf selection) →
    ∀ spread ∈ selection.spreadsInside, ∃ fragment, document.fragment? spread.target = some fragment
  | .field ⟨nickname, name, arguments, directives, some set, span⟩ => by
    intro entered
    rw [Selection.spreadsInside]
    exact set_spreads accepted set (entered.part rfl (child_of_field rfl))
  | .field ⟨nickname, name, arguments, directives, none, span⟩ => fun _ _ member => by
    rw [Selection.spreadsInside] at member
    · cases member
    all_goals nofun
  | .spread _ => fun _ _ member => by
    rw [Selection.spreadsInside] at member
    · cases member
    all_goals nofun
  | .inline ⟨condition, directives, set, span⟩ => by
    intro entered
    rw [Selection.spreadsInside]
    exact set_spreads accepted set (entered.part rfl (child_of_inline _))

end

end Spreads
end GraphQL.Validation
