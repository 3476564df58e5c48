import Mathlib.Data.List.Sublists
import GraphQL.Proofs.Entries
import GraphQL.Proofs.Overlap.Beside
import GraphQL.Proofs.Overlap.Comparison

/-! Which comparisons a selection set, two fields or two fragments lead to. -/
namespace GraphQL.Validation.Overlap
open Ast (SelectionSet FragmentDefinition Document)

/-- The key that a selected field stands under. -/
def Selected.key (selected : Selected) : String := selected.node.responseKey

/-- The type that the selections of a field select from. -/
def Selected.below (schema : Schema) (selected : Selected) : Option TypeDef :=
  selected.type.bind schema.named?

/-- The fields of a fragment. -/
def fragmentFields (schema : Schema) (fragment : FragmentDefinition) : List Selected :=
  fieldsOf schema (schema.type? fragment.typeCondition.name.text) fragment.selectionSet

section Membership
variable {schema : Schema} {document : Document} {comparison : Comparison} {exclusive : Bool}

theorem mem_facing (first second : List Selected) :
    comparison ∈ facing exclusive (Groups.ofList Selected.key first)
        (Groups.ofList Selected.key second) ↔
      ∃ a ∈ first, ∃ b ∈ second, a.key = b.key ∧ comparison = .fields exclusive a.key a b := by
  simp only [facing, List.mem_flatMap, List.mem_map, Prod.exists, Groups.mem_ofList,
    Groups.get_ofList]
  constructor
  · rintro ⟨key, group, ⟨rfl, -⟩, a, member, b, other, rfl⟩
    obtain ⟨member, here⟩ := List.mem_filter.1 member
    obtain ⟨other, there⟩ := List.mem_filter.1 other
    simp only [decide_eq_true_eq] at here there
    exact ⟨a, member, b, other, here.trans there.symm, by rw [here]⟩
  · rintro ⟨a, member, b, other, same, rfl⟩
    exact ⟨a.key, _, ⟨rfl, a, member, rfl⟩, a, List.mem_filter.2 ⟨member, by simp⟩, b,
      List.mem_filter.2 ⟨other, by simp [same]⟩, rfl⟩

theorem mem_pairings (key : String) (fields : List Selected) :
    comparison ∈ pairings exclusive key fields ↔
      ∃ a b, [a, b].Sublist fields ∧ comparison = .fields exclusive key a b := by
  induction fields with
  | nil => simp [pairings]
  | cons first rest ih =>
    rw [pairings, List.mem_append, List.mem_map, ih]
    constructor
    · rintro (⟨b, member, rfl⟩ | ⟨a, b, below, rfl⟩)
      · exact ⟨first, b, (List.singleton_sublist.2 member).cons_cons first, rfl⟩
      · exact ⟨a, b, below.cons first, rfl⟩
    · rintro ⟨a, b, below, rfl⟩
      cases below with
      | cons _ below => exact .inr ⟨a, b, below, rfl⟩
      | cons_cons _ below => exact .inl ⟨b, List.singleton_sublist.1 below, rfl⟩

theorem mem_facingItself (fields : List Selected) :
    comparison ∈ facingItself (Groups.ofList Selected.key fields) ↔
      ∃ a b, [a, b].Sublist fields ∧ a.key = b.key ∧ comparison = .fields false a.key a b := by
  simp only [facingItself, List.mem_flatMap, Prod.exists, Groups.mem_ofList, mem_pairings]
  constructor
  · rintro ⟨key, group, ⟨rfl, -⟩, a, b, below, rfl⟩
    have first := (List.mem_filter.1 (below.subset List.mem_cons_self)).2
    have second := (List.mem_filter.1 (below.subset (List.mem_cons_of_mem _ List.mem_cons_self))).2
    simp only [decide_eq_true_eq] at first second
    exact ⟨a, b, below.trans List.filter_sublist, first.trans second.symm, by rw [first]⟩
  · rintro ⟨a, b, below, same, rfl⟩
    have kept := below.filter fun selected => selected.key = a.key
    rw [List.filter_cons_of_pos (by simp), List.filter_cons_of_pos (by simp [same]),
      List.filter_nil] at kept
    exact ⟨a.key, _, ⟨rfl, a, below.subset List.mem_cons_self, rfl⟩, a, b, kept, rfl⟩

theorem mem_facingAll (fields : List Selected) (fragments : List FragmentDefinition) :
    comparison ∈ facingAll schema exclusive (Groups.ofList Selected.key fields) fragments ↔
      ∃ fragment ∈ fragments, ∃ a ∈ fields, ∃ b ∈ fragmentFields schema fragment,
        a.key = b.key ∧ comparison = .fields exclusive a.key a b := by
  rw [facingAll, List.mem_flatMap]
  exact exists_congr fun fragment => and_congr_right fun _ =>
    mem_facing fields (fragmentFields schema fragment)

/-- The fields of a set and a fragment that is spread in it, or in a fragment beside. -/
theorem mem_setParts (parent other : Option TypeDef) (s t : SelectionSet) :
    comparison ∈ setParts schema document exclusive (Expansion.ofSet schema parent s)
        (Expansion.ofSet schema other t) ↔
      (∃ a ∈ fieldsOf schema parent s, ∃ b ∈ fieldsOf schema other t,
        a.key = b.key ∧ comparison = .fields exclusive a.key a b) ∨
      (∃ g, Stands document.fragments (spreadsOf t) g ∧ ∃ a ∈ fieldsOf schema parent s,
        ∃ b ∈ fragmentFields schema g,
          a.key = b.key ∧ comparison = .fields exclusive a.key a b) ∨
      (∃ f, Stands document.fragments (spreadsOf s) f ∧ ∃ b ∈ fieldsOf schema other t,
        ∃ a ∈ fragmentFields schema f,
          b.key = a.key ∧ comparison = .fields exclusive b.key b a) ∨
      ∃ name ∈ spreadsOf s, ∃ later ∈ spreadsOf t, comparison = .fragments exclusive name later := by
  have first : Expansion.ofSet schema parent s =
      ⟨Groups.ofList Selected.key (fieldsOf schema parent s), (spreadsOf s).eraseDups⟩ := rfl
  have second : Expansion.ofSet schema other t =
      ⟨Groups.ofList Selected.key (fieldsOf schema other t), (spreadsOf t).eraseDups⟩ := rfl
  rw [first, second]
  simp only [setParts, List.mem_append, mem_facing, mem_facingAll, mem_beside, stands_eraseDups,
    List.mem_flatMap, List.mem_map, List.mem_eraseDups, or_assoc]
  simp only [eq_comm]

/-- Two fields are compared further if they do not conflict by themselves and have selections. -/
theorem mem_fields_parts {key : String} {a b : Selected} :
    comparison ∈ (Comparison.fields exclusive key a b).parts schema document ↔
      ownReason? schema (exclusive || differentObjects a.parent b.parent) a b = none ∧
      ∃ s t, a.node.selectionSet = some s ∧ b.node.selectionSet = some t ∧
        comparison ∈ setParts schema document (exclusive || differentObjects a.parent b.parent)
          (Expansion.ofSet schema (a.below schema) s) (Expansion.ofSet schema (b.below schema) t) := by
  simp only [Comparison.parts]
  cases reason : ownReason? schema (exclusive || differentObjects a.parent b.parent) a b with
  | some _ => simp
  | none =>
    cases first : a.node.selectionSet with
    | none => simp
    | some s =>
      cases second : b.node.selectionSet with
      | none => simp
      | some t => simp [Selected.below]

theorem mem_fragments_parts {a b : String} :
    comparison ∈ (Comparison.fragments exclusive a b).parts schema document ↔
      ∃ f g, document.fragment? a = some f ∧ document.fragment? b = some g ∧
        comparison ∈ fragmentParts schema exclusive a b f g := by
  rw [Comparison.parts]
  cases first : document.fragment? a with
  | none => simp
  | some f =>
    cases second : document.fragment? b with
    | none => simp
    | some g => simp

theorem mem_fragmentParts {a b : String} {f g : FragmentDefinition} :
    comparison ∈ fragmentParts schema exclusive a b f g ↔
      (∃ x ∈ fragmentFields schema f, ∃ y ∈ fragmentFields schema g,
        x.key = y.key ∧ comparison = .fields exclusive x.key x y) ∨
      (∃ name ∈ spreadsOf g.selectionSet, comparison = .fragments exclusive a name) ∨
      ∃ name ∈ spreadsOf f.selectionSet, comparison = .fragments exclusive name b := by
  have expansion (fragment : FragmentDefinition) : Expansion.ofFragment schema fragment =
      ⟨Groups.ofList Selected.key (fragmentFields schema fragment),
        (spreadsOf fragment.selectionSet).eraseDups⟩ := rfl
  simp only [fragmentParts, expansion, List.mem_append, mem_facing, List.mem_map,
    List.mem_eraseDups, or_assoc]
  simp only [eq_comm]

theorem mem_besideStarts (unmet : List FragmentDefinition) (fields : List Selected)
    (names : List String) :
    comparison ∈ besideStarts schema unmet (Groups.ofList Selected.key fields) names ↔
      (∃ fragment, Stands unmet names fragment ∧ ∃ a ∈ fields,
        ∃ b ∈ fragmentFields schema fragment,
          a.key = b.key ∧ comparison = .fields false a.key a b) ∨
      ∃ name other, [name, other].Sublist names ∧ comparison = .fragments false name other := by
  induction names with
  | nil => simp [besideStarts, stands_nil]
  | cons first rest ih =>
    rw [besideStarts, List.mem_append, List.mem_append, ih, mem_facingAll, List.mem_map]
    constructor
    · rintro ((⟨fragment, member, fields⟩ | ⟨other, member, rfl⟩) | stands | pair)
      · exact .inl ⟨fragment, stands_cons.2 (.inl ((mem_beside _ _).1 member)), fields⟩
      · exact .inr ⟨first, other, (List.singleton_sublist.2 member).cons_cons first, rfl⟩
      · obtain ⟨fragment, stands, fields⟩ := stands
        exact .inl ⟨fragment, stands_cons.2 (.inr stands), fields⟩
      · obtain ⟨name, other, below, rfl⟩ := pair
        exact .inr ⟨name, other, below.cons first, rfl⟩
    · rintro (⟨fragment, stands, fields⟩ | ⟨name, other, below, rfl⟩)
      · rcases stands_cons.1 stands with stands | stands
        · exact .inl (.inl ⟨fragment, (mem_beside _ _).2 stands, fields⟩)
        · exact .inr (.inl ⟨fragment, stands, fields⟩)
      · cases below with
        | cons _ below => exact .inr (.inr ⟨name, other, below, rfl⟩)
        | cons_cons _ below =>
          exact .inl (.inr ⟨other, List.singleton_sublist.1 below, rfl⟩)

/-- What a set starts: its own fields, its fields with the fragments beside them, and those
fragments with each other. -/
theorem mem_starts (visited : Visited) :
    comparison ∈ visited.starts schema document ↔
      (∃ a b, [a, b].Sublist (fieldsOf schema visited.parent visited.set) ∧ a.key = b.key ∧
        comparison = .fields false a.key a b) ∨
      (∃ fragment, Stands
          (document.fragments.filter fun fragment => visited.owner != some fragment.name.text)
          (spreadsOf visited.set) fragment ∧
        ∃ a ∈ fieldsOf schema visited.parent visited.set, ∃ b ∈ fragmentFields schema fragment,
          a.key = b.key ∧ comparison = .fields false a.key a b) ∨
      ∃ name other, [name, other].Sublist (spreadsOf visited.set).eraseDups ∧
        comparison = .fragments false name other := by
  have expansion : Expansion.ofSet schema visited.parent visited.set =
      ⟨Groups.ofList Selected.key (fieldsOf schema visited.parent visited.set),
        (spreadsOf visited.set).eraseDups⟩ := rfl
  rw [Visited.starts, expansion]
  simp only [List.mem_append, mem_facingItself, mem_besideStarts, stands_eraseDups]

end Membership
end GraphQL.Validation.Overlap
