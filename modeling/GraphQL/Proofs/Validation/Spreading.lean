import GraphQL.Proofs.Overlap.Height
import GraphQL.Proofs.Validation.Entered

/-! The fragments that an operation comes to: those that it spreads at any depth, and those that
such a fragment spreads. The search for them finds each. -/
namespace GraphQL.Validation
open Ast (Node Document Tree Selection SelectionSet FragmentDefinition FragmentSpread
  OperationDefinition mem_spreadsBelow)
open Overlap (named? Stands spreadsOf take?_eq_some named?_others spreadsOf_spreads)

/-- The spreads inside a node, at any depth. -/
def spreadsInside : Node → List FragmentSpread
  | .document document =>
      document.operations.flatMap (fun operation => operation.selectionSet.spreads) ++
        document.fragments.flatMap fun fragment => fragment.selectionSet.spreads
  | .operation operation => operation.selectionSet.spreads
  | .fragment fragment => fragment.selectionSet.spreads
  | .selectionSet set => set.spreads
  | .field field => (field.selectionSet.map SelectionSet.spreads).getD []
  | .spread spread => [spread]
  | .inline inline => inline.selectionSet.spreads
  | _ => []

/-- A definition that an operation uses: itself, and the fragments that are spread in one. -/
inductive UsedBy (document : Document) (operation : OperationDefinition) : Node → Prop
  | operation : UsedBy document operation (.operation operation)
  | fragment {user : Node} {spread : FragmentSpread} {fragment : FragmentDefinition} :
      UsedBy document operation user → spread ∈ spreadsInside user →
      document.fragment? spread.target = some fragment →
      UsedBy document operation (.fragment fragment)

section Spreads
variable {schema : Schema} {root : Node} {scope : Scope} {ancestors : List Node} {node : Node}

theorem spreadsInside_selection {set : SelectionSet} {selection : Selection}
    (member : selection ∈ set.selections) {spread : FragmentSpread}
    (inside : spread ∈ spreadsInside (Tree.ofSelection selection).root) : spread ∈ set.spreads := by
  obtain ⟨selections, span⟩ := set
  rw [SelectionSet.spreads, List.mem_append]
  cases selection with
  | spread found =>
    cases List.mem_singleton.1 inside
    exact .inl (List.mem_filterMap.2 ⟨_, member, rfl⟩)
  | field field =>
    obtain ⟨nickname, name, arguments, directives, found, fieldSpan⟩ := field
    refine .inr (mem_spreadsBelow.2 ⟨_, member, ?_⟩)
    cases found with
    | none => cases inside
    | some found =>
      rw [Selection.spreadsInside]
      exact inside
  | inline inline =>
    obtain ⟨condition, directives, found, inlineSpan⟩ := inline
    refine .inr (mem_spreadsBelow.2 ⟨_, member, ?_⟩)
    rw [Selection.spreadsInside]
    exact inside

/-- What is spread inside a part of a node is spread inside the node. -/
theorem spreadsInside_child (loud : node.isQuiet = false) {child : Node}
    (member : child ∈ node.children) : spreadsInside child ⊆ spreadsInside node := by
  intro spread inside
  obtain ⟨tree, part, rfl⟩ := List.mem_map.1 member
  have bare {α : Type} {f : α → Tree} {items : List α} (each : ∀ item, spreadsInside (f item).root = [])
      (found : tree ∈ items.map f) : False := by
    obtain ⟨item, _, rfl⟩ := List.mem_map.1 found
    rw [each] at inside
    cases inside
  have own (set : SelectionSet) (found : tree ∈ [Tree.ofSet set]) : spread ∈ set.spreads := by
    rw [List.mem_singleton.1 found, show (Tree.ofSet set).root = .selectionSet set from
      tree_root (.selectionSet set)] at inside
    exact inside
  cases node with
  | document document =>
    obtain ⟨definition, defined, rfl⟩ := List.mem_map.1 part
    rw [spreadsInside, List.mem_append]
    cases definition with
    | operation operation =>
      exact .inl (List.mem_flatMap.2 ⟨operation, List.mem_filterMap.2 ⟨_, defined, rfl⟩, inside⟩)
    | fragment fragment =>
      exact .inr (List.mem_flatMap.2 ⟨fragment, List.mem_filterMap.2 ⟨_, defined, rfl⟩, inside⟩)
    | typeSystem _ => cases inside
  | operation operation =>
    rcases List.mem_append.1 part with part | part
    · rcases List.mem_append.1 part with part | part
      · exact (bare (fun _ => rfl) part).elim
      · exact (bare (fun _ => rfl) part).elim
    · exact own _ part
  | selectionSet set =>
    obtain ⟨selections, span⟩ := set
    obtain ⟨selection, among, rfl⟩ := mem_ofSelections.1 part
    exact @spreadsInside_selection ⟨selections, span⟩ _ among _ inside
  | field field =>
    obtain ⟨nickname, name, arguments, directives, set, span⟩ := field
    rcases List.mem_append.1 part with part | part
    · rcases List.mem_append.1 part with part | part
      · exact (bare (fun _ => rfl) part).elim
      · exact (bare (fun _ => rfl) part).elim
    · cases set with
      | none => cases part
      | some set => exact own set part
  | inline inline =>
    obtain ⟨condition, directives, set, span⟩ := inline
    rcases List.mem_append.1 part with part | part
    · rcases List.mem_append.1 part with part | part
      · exact (bare (fun _ => rfl) part).elim
      · exact (bare (fun _ => rfl) part).elim
    · exact own set part
  | fragment fragment =>
    rcases List.mem_append.1 part with part | part
    · rcases List.mem_cons.1 part with rfl | part
      · cases inside
      · exact (bare (fun _ => rfl) part).elim
    · exact own _ part
  | _ => cases loud

theorem Entered.spreads (entered : Entered schema root scope ancestors node) :
    spreadsInside node ⊆ spreadsInside root := by
  induction entered with
  | root => exact List.Subset.refl _
  | part _ loud member ih => exact List.Subset.trans (spreadsInside_child loud member) ih

end Spreads

section Used
variable {document : Document} {operation : OperationDefinition} {root : Node} {fragment : FragmentDefinition}

/-- Fragments that stand beside the fields of a set are used where the set is. -/
theorem UsedBy.stands (used : UsedBy document operation root) {set : SelectionSet}
    (inside : set.spreads ⊆ spreadsInside root)
    (stands : Stands document.fragments (spreadsOf set) fragment) :
    UsedBy document operation (.fragment fragment) := by
  induction stands with
  | spread member found =>
    obtain ⟨spread, among, rfl⟩ := List.mem_map.1 (spreadsOf_spreads set member)
    exact .fragment used (inside among) found
  | @through name outer _ _ member found ih =>
    obtain ⟨spread, among, rfl⟩ := List.mem_map.1 (spreadsOf_spreads outer.selectionSet member)
    exact .fragment ih among found

/-- Taking fragments by name takes those of the names, and leaves all that it does not take. -/
theorem takeAll_spec (names : List String) (fragments : List FragmentDefinition) {name : String}
    (found : named? fragments name = some fragment) :
    (fragment ∈ (FragmentDefinition.takeAll fragments names).1 ∨
      named? (FragmentDefinition.takeAll fragments names).2 name = some fragment) ∧
    (name ∈ names → fragment ∈ (FragmentDefinition.takeAll fragments names).1) := by
  induction names generalizing fragments with
  | nil => exact ⟨.inr found, fun member => absurd member List.not_mem_nil⟩
  | cons first rest ih =>
    rw [FragmentDefinition.takeAll]
    split
    · rename_i missing
      obtain ⟨kept, taken⟩ := ih fragments found
      refine ⟨kept, fun member => ?_⟩
      rcases List.mem_cons.1 member with rfl | member
      · rw [FragmentDefinition.take?, Option.map_eq_none_iff, ← named?, found] at missing
        cases missing
      · exact taken member
    · rename_i other others taken
      obtain ⟨known, rfl⟩ := take?_eq_some taken
      by_cases same : name = first
      · subst same
        rw [found] at known
        cases known
        exact ⟨.inl List.mem_cons_self, fun _ => List.mem_cons_self⟩
      · obtain ⟨kept, taken⟩ := ih _ (by rwa [named?_others same])
        refine ⟨kept.imp_left (List.mem_cons_of_mem _), fun member => ?_⟩
        exact List.mem_cons_of_mem _ (taken ((List.mem_cons.1 member).resolve_left same))

/-- The search for fragments finds all that is spread in the sets it starts from, and in what it
finds. -/
theorem reach_closed (fragments : List FragmentDefinition) (pending : List SelectionSet)
    {set : SelectionSet} (among : set ∈ pending ++
      (FragmentDefinition.reach fragments pending).map FragmentDefinition.selectionSet)
    {spread : FragmentSpread} (member : spread ∈ set.spreads)
    (found : named? fragments spread.target = some fragment) :
    fragment ∈ FragmentDefinition.reach fragments pending := by
  fun_induction FragmentDefinition.reach fragments pending with
  | case1 fragments => cases among
  | case2 fragments first pending step ih =>
    obtain ⟨kept, taken⟩ := takeAll_spec (first.spreads.map FragmentSpread.target) fragments found
    by_cases here : fragment ∈ step.1
    · exact List.mem_append_left _ here
    · refine List.mem_append_right _ (ih ?_ (kept.resolve_left here))
      rw [List.cons_append] at among
      rcases List.mem_cons.1 among with rfl | among
      · exact absurd (taken (List.mem_map_of_mem member)) here
      · rw [List.map_append] at among
        simp only [List.mem_append, List.map_reverse, List.mem_reverse] at among ⊢
        tauto

/-- The fragments that an operation uses are found. -/
theorem UsedBy.found (used : UsedBy document operation root) :
    root = .operation operation ∨
      ∃ fragment ∈ document.fragmentsOf operation, root = .fragment fragment := by
  induction used with
  | operation => exact .inl rfl
  | @fragment user spread fragment _ member known ih =>
    refine .inr ⟨fragment, ?_, rfl⟩
    rcases ih with rfl | ⟨outer, inside, rfl⟩
    · exact reach_closed _ _ (List.mem_append_left _ List.mem_cons_self) member known
    · exact reach_closed _ _ (List.mem_append_right _ (List.mem_map_of_mem inside)) member known

end Used
end GraphQL.Validation
