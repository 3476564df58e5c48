import GraphQL.Proofs.Entries
import GraphQL.Proofs.Overlap.Membership
import GraphQL.Proofs.Schema.Built
import GraphQL.Proofs.Validation.Visits

/-! All fields of a document at every depth, each with the type that it is selected from. The
search compares no others, once it has left the sets that it starts from. -/
namespace GraphQL.Validation
open Ast (Node Tree SelectionSet Selection FragmentDefinition Definition Document)

namespace Overlap

/-- A field as it is selected from a type. -/
def select (schema : Schema) (parent : Option TypeDef) (node : Ast.Field) : Selected :=
  ⟨parent, node, parent.bind fun type => schema.field? type node.name.text⟩

mutual

/-- The fields of a selection set at every depth. -/
def inventory (schema : Schema) (parent : Option TypeDef) : SelectionSet → List Selected
  | ⟨selections, _⟩ => inventoryIn schema parent selections

def inventoryIn (schema : Schema) (parent : Option TypeDef) : List Selection → List Selected
  | [] => []
  | selection :: rest => inventoryBy schema parent selection ++ inventoryIn schema parent rest

def inventoryBy (schema : Schema) (parent : Option TypeDef) : Selection → List Selected
  | .field ⟨nickname, name, arguments, directives, none, span⟩ =>
      [select schema parent ⟨nickname, name, arguments, directives, none, span⟩]
  | .field ⟨nickname, name, arguments, directives, some set, span⟩ =>
      let selected := select schema parent ⟨nickname, name, arguments, directives, some set, span⟩
      selected :: inventory schema (selected.below schema) set
  | .spread _ => []
  | .inline ⟨some condition, _, set, _⟩ =>
      inventory schema (schema.type? condition.name.text) set
  | .inline ⟨none, _, set, _⟩ => inventory schema parent set

end

def definitionInventory (schema : Schema) : Definition → List Selected
  | .operation operation => inventory schema
      (((schema.rootType? operation.operation).map fun root => TypeRef.named root.name).bind
        schema.named?) operation.selectionSet
  | .fragment fragment =>
      inventory schema (schema.type? fragment.typeCondition.name.text) fragment.selectionSet
  | .typeSystem _ => []

/-- The fields of a document at every depth. -/
def documentInventory (schema : Schema) (document : Document) : List Selected :=
  document.definitions.flatMap (definitionInventory schema)

section Inside
variable {schema : Schema} {a : Selected} {set : SelectionSet}

mutual

theorem fields_inventory (parent : Option TypeDef) :
    (set : SelectionSet) → fieldsOf schema parent set ⊆ inventory schema parent set
  | ⟨selections, _⟩ => by
    rw [fieldsOf, inventory]
    exact fieldsIn_inventory parent selections

theorem fieldsIn_inventory (parent : Option TypeDef) :
    (selections : List Selection) →
      fieldsIn schema parent selections ⊆ inventoryIn schema parent selections
  | [] => List.nil_subset _
  | selection :: rest => by
    rw [fieldsIn, inventoryIn]
    intro selected member
    rcases List.mem_append.1 member with member | member
    · exact List.mem_append_left _ (fieldsBy_inventory parent selection member)
    · exact List.mem_append_right _ (fieldsIn_inventory parent rest member)

theorem fieldsBy_inventory (parent : Option TypeDef) :
    (selection : Selection) →
      fieldsBy schema parent selection ⊆ inventoryBy schema parent selection
  | .field ⟨_, _, _, _, none, _⟩ => by
    rw [fieldsBy, inventoryBy]
    exact fun _ member => member
  | .field ⟨_, _, _, _, some _, _⟩ => by
    rw [fieldsBy, inventoryBy]
    exact List.cons_subset.2 ⟨List.mem_cons_self, List.nil_subset _⟩
  | .spread _ => by
    rw [fieldsBy]
    exact List.nil_subset _
  | .inline ⟨some condition, _, set, _⟩ => by
    rw [fieldsBy, inventoryBy]
    exact fields_inventory _ set
  | .inline ⟨none, _, set, _⟩ => by
    rw [fieldsBy, inventoryBy]
    exact fields_inventory parent set

end

mutual

/-- What is selected below a field of an inventory is in the inventory. -/
theorem below_inventory (has : a.node.selectionSet = some set) (parent : Option TypeDef) :
    (outer : SelectionSet) → a ∈ inventory schema parent outer →
      inventory schema (a.below schema) set ⊆ inventory schema parent outer
  | ⟨selections, _⟩ => by
    intro member
    rw [inventory] at member ⊢
    exact below_inventoryIn has parent selections member

theorem below_inventoryIn (has : a.node.selectionSet = some set) (parent : Option TypeDef) :
    (selections : List Selection) → a ∈ inventoryIn schema parent selections →
      inventory schema (a.below schema) set ⊆ inventoryIn schema parent selections
  | [] => fun member => by
    rw [inventoryIn] at member
    cases member
  | selection :: rest => by
    intro member
    rw [inventoryIn] at member ⊢
    rcases List.mem_append.1 member with member | member
    · exact fun _ inner =>
        List.mem_append_left _ (below_inventoryBy has parent selection member inner)
    · exact fun _ inner =>
        List.mem_append_right _ (below_inventoryIn has parent rest member inner)

theorem below_inventoryBy (has : a.node.selectionSet = some set) (parent : Option TypeDef) :
    (selection : Selection) → a ∈ inventoryBy schema parent selection →
      inventory schema (a.below schema) set ⊆ inventoryBy schema parent selection
  | .field ⟨_, _, _, _, none, _⟩ => by
    intro member
    rw [inventoryBy, List.mem_singleton] at member
    subst member
    cases has
  | .field ⟨_, _, _, _, some inner, _⟩ => by
    intro member
    rw [inventoryBy] at member ⊢
    rcases List.mem_cons.1 member with rfl | member
    · cases has
      exact List.subset_cons_self _ _
    · exact fun _ found => List.mem_cons_of_mem _ (below_inventory has _ inner member found)
  | .spread _ => fun member => by
    rw [inventoryBy] at member
    cases member
  | .inline ⟨some condition, _, inner, _⟩ => by
    intro member
    rw [inventoryBy] at member ⊢
    exact below_inventory has _ inner member
  | .inline ⟨none, _, inner, _⟩ => by
    intro member
    rw [inventoryBy] at member ⊢
    exact below_inventory has parent inner member

end

theorem fragment_inventory {document : Document} {fragment : FragmentDefinition}
    (member : fragment ∈ document.fragments) :
    fragmentFields schema fragment ⊆ documentInventory schema document := by
  obtain ⟨definition, known, same⟩ := List.mem_filterMap.1 member
  cases definition with
  | fragment _ =>
    cases same
    intro selected inside
    exact List.mem_flatMap.2 ⟨.fragment fragment, known, fields_inventory _ _ inside⟩
  | _ => cases same

theorem documentInventory_below {document : Document} (has : a.node.selectionSet = some set)
    (member : a ∈ documentInventory schema document) :
    inventory schema (a.below schema) set ⊆ documentInventory schema document := by
  obtain ⟨definition, known, inside⟩ := List.mem_flatMap.1 member
  have within : inventory schema (a.below schema) set ⊆ definitionInventory schema definition := by
    cases definition with
    | operation operation => exact below_inventory has _ _ inside
    | fragment fragment => exact below_inventory has _ _ inside
    | typeSystem _ => cases inside
  exact fun _ found => List.mem_flatMap.2 ⟨definition, known, within found⟩

end Inside
section Count
variable {schema : Schema}

theorem countP_quiet {trees : List Tree} (quiet : Tree.allIn Node.isQuiet trees = true) :
    (Tree.preorderAll trees).countP isField = 0 := by
  rw [List.countP_eq_zero]
  intro node member
  have silent := Tree.preorderAll_all trees quiet node member
  cases node <;> simp_all [isField, Node.isQuiet]

mutual

theorem length_inventory (parent : Option TypeDef) : (set : SelectionSet) →
    (inventory schema parent set).length = (Tree.ofSet set).preorder.countP isField
  | ⟨selections, span⟩ => by
    rw [inventory, Tree.ofSet, Tree.preorder, List.countP_cons_of_neg (by simp [isField])]
    exact length_inventoryIn parent selections

theorem length_inventoryIn (parent : Option TypeDef) : (selections : List Selection) →
    (inventoryIn schema parent selections).length =
      (Tree.preorderAll (Tree.ofSelections selections)).countP isField
  | [] => rfl
  | selection :: rest => by
    rw [inventoryIn, Tree.ofSelections, Tree.preorderAll, List.length_append, List.countP_append,
      length_inventoryBy parent selection, length_inventoryIn parent rest]

theorem length_inventoryBy (parent : Option TypeDef) : (selection : Selection) →
    (inventoryBy schema parent selection).length =
      (Tree.ofSelection selection).preorder.countP isField
  | .field ⟨nickname, name, arguments, directives, none, span⟩ => by
    have quiet : Tree.allIn Node.isQuiet
        (arguments.map Tree.ofArgument ++ directives.map Tree.ofDirective ++ []) = true := by
      rw [Tree.allIn_append, Tree.allIn_append, Tree.ofArguments_quiet, Tree.ofDirectives_quiet]
      rfl
    rw [inventoryBy, Tree.ofSelection, Tree.ofField, Tree.ofOptionalSet, Tree.preorder,
      List.countP_cons_of_pos (by rfl), countP_quiet quiet]
    rfl
  | .field ⟨nickname, name, arguments, directives, some set, span⟩ => by
    have quiet : Tree.allIn Node.isQuiet
        (arguments.map Tree.ofArgument ++ directives.map Tree.ofDirective) = true := by
      rw [Tree.allIn_append, Tree.ofArguments_quiet, Tree.ofDirectives_quiet]
      rfl
    rw [inventoryBy, Tree.ofSelection, Tree.ofField, Tree.ofOptionalSet, Tree.preorder,
      List.countP_cons_of_pos (by rfl), Tree.preorderAll_append, List.countP_append,
      countP_quiet quiet, Tree.preorderAll_singleton, List.length_cons,
      length_inventory _ set, Nat.zero_add]
  | .spread spread => by
    have quiet : Tree.allIn Node.isQuiet [Tree.ofSpread spread] = true := by
      rw [Tree.allIn, Tree.allIn, Tree.ofSpread_quiet]
      rfl
    have none := countP_quiet quiet
    rw [Tree.preorderAll_singleton] at none
    rw [inventoryBy, Tree.ofSelection, none]
    rfl
  | .inline ⟨some condition, directives, set, span⟩ => by
    have quiet : Tree.allIn Node.isQuiet
        ((some condition).toList.map Tree.ofNamedType ++ directives.map Tree.ofDirective) = true := by
      rw [Tree.allIn_append, Tree.ofDirectives_quiet]
      rfl
    rw [inventoryBy, Tree.ofSelection, Tree.ofInline, Tree.preorder,
      List.countP_cons_of_neg (by simp [isField]), Tree.preorderAll_append, List.countP_append,
      countP_quiet quiet, Tree.preorderAll_singleton,
      length_inventory _ set, Nat.zero_add]
  | .inline ⟨none, directives, set, span⟩ => by
    have quiet : Tree.allIn Node.isQuiet
        ((none : Option Ast.NamedType).toList.map Tree.ofNamedType ++
          directives.map Tree.ofDirective) = true := Tree.ofDirectives_quiet directives
    rw [inventoryBy, Tree.ofSelection, Tree.ofInline, Tree.preorder,
      List.countP_cons_of_neg (by simp [isField]), Tree.preorderAll_append, List.countP_append,
      countP_quiet quiet, Tree.preorderAll_singleton,
      length_inventory _ set, Nat.zero_add]

end

theorem length_definitionInventory (definition : Definition) :
    (definitionInventory schema definition).length =
      (Tree.ofDefinition definition).preorder.countP isField := by
  cases definition with
  | operation operation =>
    have declared : Tree.allIn Node.isQuiet
        (operation.variableDefinitions.map Tree.ofVariableDefinition) = true :=
      Tree.allIn_map fun definition _ => Tree.ofVariableDefinition_quiet definition
    have quiet : Tree.allIn Node.isQuiet (operation.variableDefinitions.map
        Tree.ofVariableDefinition ++ operation.directives.map Tree.ofDirective) = true := by
      rw [Tree.allIn_append, declared, Tree.ofDirectives_quiet]
      rfl
    rw [definitionInventory, Tree.ofDefinition, Tree.ofOperation, Tree.preorder,
      List.countP_cons_of_neg (by simp [isField]), Tree.preorderAll_append, List.countP_append,
      countP_quiet quiet, Tree.preorderAll_singleton,
      length_inventory, Nat.zero_add]
  | fragment fragment =>
    have quiet : Tree.allIn Node.isQuiet (Tree.ofNamedType fragment.typeCondition ::
        fragment.directives.map Tree.ofDirective) = true := by
      rw [Tree.allIn, Tree.ofDirectives_quiet]
      rfl
    rw [definitionInventory, Tree.ofDefinition, Tree.ofFragment, Tree.preorder,
      List.countP_cons_of_neg (by simp [isField]), Tree.preorderAll_append, List.countP_append,
      countP_quiet quiet, Tree.preorderAll_singleton,
      length_inventory, Nat.zero_add]
  | typeSystem _ => rfl

/-- The inventory has one entry for each field of the document. -/
theorem length_documentInventory (schema : Schema) (document : Document) :
    (documentInventory schema document).length =
      ((Node.document document).tree.preorder.filter isField).length := by
  have parts (definitions : List Definition) :
      (definitions.flatMap (definitionInventory schema)).length =
        (Tree.preorderAll (definitions.map Tree.ofDefinition)).countP isField := by
    induction definitions with
    | nil => rfl
    | cons definition rest ih =>
      rw [List.flatMap_cons, List.length_append, ih, length_definitionInventory, List.map_cons,
        Tree.preorderAll, List.countP_append]
  rw [← List.countP_eq_length_filter, documentInventory, parts, Node.tree, Tree.ofDocument,
    Tree.preorder, List.countP_cons_of_neg (by simp [isField])]

end Count

/-- Two types of which the same fields are selected, and which are the same if objects. -/
def Agree (schema : Schema) (first second : Option TypeDef) : Prop :=
  (∀ name, (first.bind fun type => schema.field? type name) =
    second.bind fun type => schema.field? type name) ∧
  first.bind TypeDef.object? = second.bind TypeDef.object?

section Agree
variable {schema : Schema} {first second third : Option TypeDef}

theorem Agree.refl (schema : Schema) (type : Option TypeDef) : Agree schema type type :=
  ⟨fun _ => rfl, rfl⟩

theorem Agree.symm (agree : Agree schema first second) : Agree schema second first :=
  ⟨fun name => (agree.1 name).symm, agree.2.symm⟩

theorem Agree.trans (agree : Agree schema first second) (further : Agree schema second third) :
    Agree schema first third :=
  ⟨fun name => (agree.1 name).trans (further.1 name), agree.2.trans further.2⟩

/-- Leaving out a type without selections leaves out no fields. -/
theorem agree_filter (built : schema.Built) (name : String) (keep : TypeDef → Bool)
    (composite : ∀ type : TypeDef, type.isComposite = true → keep type = true) :
    Agree schema ((schema.type? name).filter keep) (schema.type? name) := by
  cases found : schema.type? name with
  | none => exact .refl schema none
  | some type =>
    cases kept : keep type with
    | true =>
      rw [Option.filter_some_pos kept]
      exact .refl schema (some type)
    | false =>
      have leaf : type.isComposite = false := by
        by_contra some_
        rw [composite type (by simpa using some_)] at kept
        cases kept
      rw [Option.filter_some_neg (by simp [kept])]
      constructor
      · intro name
        exact (built.field?_leaf (Schema.type?_name found) leaf name).symm
      · cases type with
        | object _ => cases leaf
        | _ => rfl

theorem agree_selectable (built : schema.Built) (type : Option TypeRef) :
    Agree schema (selectable schema type) (type.bind schema.named?) := by
  cases type with
  | none => exact .refl schema none
  | some type => exact agree_filter built type.innermost TypeDef.isComposite fun _ yes => yes

theorem agree_condition (built : schema.Built) (condition : Ast.NamedType) :
    Agree schema ((Scope.conditionType schema condition).bind schema.named?)
      (schema.type? condition.name.text) := by
  have outer := agree_filter built condition.name.text TypeDef.isOutput fun type composite => by
    cases type <;> first | rfl | cases composite
  have same : (Scope.conditionType schema condition).bind schema.named? =
      (schema.type? condition.name.text).filter TypeDef.isOutput := by
    rw [Scope.conditionType]
    cases found : schema.type? condition.name.text with
    | none => rfl
    | some type =>
      cases kept : type.isOutput with
      | true =>
        rw [Option.filter_some_pos kept]
        exact Schema.type?_name found
      | false =>
        rw [Option.filter_some_neg (by simp [kept])]
        rfl
  rwa [same]

end Agree

section Stops
variable {schema : Schema} {around : Option String} {parent : Option TypeDef} {set : SelectionSet}

/-- Where a walk comes to a set, the inventory has its fields as selected from the same type. -/
def Listed (schema : Schema) (parent : Option TypeDef) (set : SelectionSet)
    (known : List Selected) : Prop :=
  ∃ type, Agree schema parent type ∧ inventory schema type set ⊆ known

theorem Listed.mono {known more : List Selected} (listed : Listed schema parent set known)
    (subset : known ⊆ more) : Listed schema parent set more := by
  obtain ⟨type, agree, inside⟩ := listed
  exact ⟨type, agree, fun _ member => subset (inside member)⟩

mutual

theorem setStops_listed (built : schema.Built) (owner : Option String) (type : Option TypeRef)
    (named : Option TypeDef) (agree : Agree schema (type.bind schema.named?) named) :
    (outer : SelectionSet) → .set around parent set ∈ setStops schema owner type outer →
      Listed schema parent set (inventory schema named outer)
  | ⟨selections, span⟩ => by
    intro member
    have agree := (agree_selectable built type).trans agree
    rw [setStops] at member
    rcases List.mem_cons.1 member with same | member
    · cases same
      exact ⟨named, agree, fun _ found => found⟩
    · rw [inventory]
      exact selectionsStops_listed built type named agree selections member

theorem selectionsStops_listed (built : schema.Built) (type : Option TypeRef)
    (named : Option TypeDef) (agree : Agree schema (selectable schema type) named) :
    (selections : List Selection) →
      .set around parent set ∈ selectionsStops schema type (selectable schema type) selections →
      Listed schema parent set (inventoryIn schema named selections)
  | [] => fun member => by
    rw [selectionsStops] at member
    cases member
  | selection :: rest => by
    intro member
    rw [selectionsStops] at member
    rw [inventoryIn]
    rcases List.mem_append.1 member with member | member
    · exact (selectionStops_listed built type named agree selection member).mono
        (List.subset_append_left _ _)
    · exact (selectionsStops_listed built type named agree rest member).mono
        (List.subset_append_right _ _)

theorem selectionStops_listed (built : schema.Built) (type : Option TypeRef)
    (named : Option TypeDef) (agree : Agree schema (selectable schema type) named) :
    (selection : Selection) →
      .set around parent set ∈ selectionStops schema type (selectable schema type) selection →
      Listed schema parent set (inventoryBy schema named selection)
  | .field ⟨nickname, name, arguments, directives, some inner, span⟩ => by
    intro member
    rw [selectionStops, agree.1] at member
    rw [inventoryBy]
    exact (setStops_listed built none _ _ (.refl schema _) inner member).mono
      (List.subset_cons_self _ _)
  | .field ⟨_, _, _, _, none, _⟩ => fun member => by
    rw [selectionStops] at member
    cases member
  | .spread _ => fun member => by
    rw [selectionStops] at member
    cases member
  | .inline ⟨some condition, _, inner, _⟩ => by
    intro member
    rw [selectionStops] at member
    rw [inventoryBy]
    exact setStops_listed built none _ _ (agree_condition built condition) inner member
  | .inline ⟨none, _, inner, _⟩ => by
    intro member
    rw [selectionStops] at member
    rw [inventoryBy]
    have same : (type.map fun type => TypeRef.named type.innermost).bind schema.named? =
        type.bind schema.named? := by cases type <;> rfl
    have agree : Agree schema ((type.map fun type => TypeRef.named type.innermost).bind schema.named?)
        named := by
      rw [same]
      exact (agree_selectable built type).symm.trans agree
    exact setStops_listed built none _ _ agree inner member

end

theorem documentStops_listed (built : schema.Built) {document : Document}
    (member : .set around parent set ∈ documentStops schema document) :
    Listed schema parent set (documentInventory schema document) := by
  obtain ⟨definition, known, inside⟩ := List.mem_flatMap.1 member
  have listed : Listed schema parent set (definitionInventory schema definition) := by
    cases definition with
    | operation operation =>
      exact setStops_listed built _ _ _ (.refl schema _) _ inside
    | fragment fragment =>
      rcases List.mem_cons.1 inside with same | inside
      · cases same
      · exact setStops_listed built _ _ _ (agree_condition built _) _ inside
    | typeSystem _ => cases inside
  exact listed.mono fun _ found => List.mem_flatMap.2 ⟨definition, known, found⟩

end Stops

/-- Two fields between which no comparison makes a difference. -/
structure Alike (a b : Selected) : Prop where
  node : a.node = b.node
  definition : a.definition = b.definition
  object : a.parent.bind TypeDef.object? = b.parent.bind TypeDef.object?

section Alike
variable {schema : Schema}

theorem Alike.refl (a : Selected) : Alike a a := ⟨rfl, rfl, rfl⟩

theorem Alike.symm {a b : Selected} (alike : Alike a b) : Alike b a :=
  ⟨alike.node.symm, alike.definition.symm, alike.object.symm⟩

theorem Alike.below {a b : Selected} (alike : Alike a b) : a.below schema = b.below schema := by
  rw [Selected.below, Selected.below, Selected.type, Selected.type, alike.definition]

theorem select_alike {first second : Option TypeDef} (agree : Agree schema first second)
    (node : Ast.Field) : Alike (select schema first node) (select schema second node) :=
  ⟨rfl, agree.1 node.name.text, agree.2⟩

mutual

theorem fieldsOf_alike {first second : Option TypeDef} (agree : Agree schema first second) :
    (set : SelectionSet) →
      List.Forall₂ Alike (fieldsOf schema first set) (fieldsOf schema second set)
  | ⟨selections, _⟩ => by
    rw [fieldsOf, fieldsOf]
    exact fieldsIn_alike agree selections

theorem fieldsIn_alike {first second : Option TypeDef} (agree : Agree schema first second) :
    (selections : List Selection) →
      List.Forall₂ Alike (fieldsIn schema first selections) (fieldsIn schema second selections)
  | [] => by
    rw [fieldsIn, fieldsIn]
    exact .nil
  | selection :: rest => by
    rw [fieldsIn, fieldsIn]
    exact List.rel_append (fieldsBy_alike agree selection) (fieldsIn_alike agree rest)

theorem fieldsBy_alike {first second : Option TypeDef} (agree : Agree schema first second) :
    (selection : Selection) →
      List.Forall₂ Alike (fieldsBy schema first selection) (fieldsBy schema second selection)
  | .field node => by
    rw [fieldsBy, fieldsBy]
    exact .cons (select_alike agree node) .nil
  | .spread _ => by
    rw [fieldsBy, fieldsBy]
    exact .nil
  | .inline ⟨some _, _, set, _⟩ => by
    rw [fieldsBy, fieldsBy]
    exact fieldsOf_alike (.refl schema _) set
  | .inline ⟨none, _, set, _⟩ => by
    rw [fieldsBy, fieldsBy]
    exact fieldsOf_alike agree set

end

end Alike

/-- A field of the document, as far as comparisons can tell. -/
def Owned (schema : Schema) (document : Document) (a : Selected) : Prop :=
  ∃ b ∈ documentInventory schema document, Alike a b

/-- A comparison of fields of the document, or of fragments. -/
def Comparison.Owned (schema : Schema) (document : Document) : Comparison → Prop
  | fields _ _ a b => Overlap.Owned schema document a ∧ Overlap.Owned schema document b
  | fragments _ _ _ => True

section Owned
variable {schema : Schema} {document : Document}

theorem owned_of_mem {a : Selected} (member : a ∈ documentInventory schema document) :
    Owned schema document a := ⟨a, member, .refl a⟩

/-- The fields below a field of the document are in the inventory. -/
theorem Owned.below {a : Selected} (owned : Owned schema document a) {set : SelectionSet}
    (has : a.node.selectionSet = some set) :
    fieldsOf schema (a.below schema) set ⊆ documentInventory schema document := by
  obtain ⟨b, member, alike⟩ := owned
  rw [alike.node] at has
  rw [alike.below]
  exact fun _ inside => documentInventory_below has member (fields_inventory _ set inside)

theorem mem_visitedAfter {visited : Visited} {entered : List String} {stops : List Stop}
    (member : visited ∈ visitedAfter entered stops) :
    ∃ around, .set around visited.parent visited.set ∈ stops := by
  induction stops generalizing entered with
  | nil => cases member
  | cons stop rest ih =>
    cases stop with
    | fragment name =>
      obtain ⟨around, later⟩ := ih member
      exact ⟨around, List.mem_cons_of_mem _ later⟩
    | set around parent set =>
      rcases List.mem_cons.1 member with rfl | member
      · exact ⟨around, List.mem_cons_self⟩
      · obtain ⟨around, later⟩ := ih member
        exact ⟨around, List.mem_cons_of_mem _ later⟩

theorem owned_visited (built : schema.Built) {visited : Visited}
    (member : visited ∈ Overlap.visited schema document) {a : Selected}
    (inside : a ∈ fieldsOf schema visited.parent visited.set) : Owned schema document a := by
  obtain ⟨around, stop⟩ := mem_visitedAfter member
  obtain ⟨type, agree, listed⟩ := documentStops_listed built stop
  obtain ⟨b, other, alike⟩ := forall₂_mem (fieldsOf_alike agree visited.set) inside
  exact ⟨b, listed (fields_inventory _ _ other), alike⟩

end Owned
end Overlap
end GraphQL.Validation
