import Mathlib.Data.Prod.Lex
import Mathlib.Order.Lattice
import GraphQL.Proofs.Overlap.Height
import GraphQL.Proofs.Overlap.Termination

/-! Where no fragment spreads itself no comparison of fields leads back to itself: the sets below
the fields that are compared further are lower, or smaller. -/
namespace GraphQL.Validation.Overlap
open Ast (SelectionSet Selection FragmentSpread FragmentDefinition Document mem_spreadsBelow)
open Relation (TransGen)

/-- The height of a set is above all that it spreads. -/
def setHeight (height : String → Nat) (set : SelectionSet) : Nat :=
  (set.spreads.map fun spread => height spread.target + 1).foldr max 0

/-- Sets are compared by height, then by size. -/
noncomputable def weight (height : String → Nat) (set : SelectionSet) : Nat ×ₗ Nat :=
  toLex (setHeight height set, sizeOf set)

section Sets
variable {schema : Schema} {height : String → Nat} {x : Selected} {set : SelectionSet}

theorem le_foldr_max {numbers : List Nat} {number : Nat} (member : number ∈ numbers) :
    number ≤ numbers.foldr max 0 := by
  induction numbers with
  | nil => cases member
  | cons first rest ih =>
    rw [List.foldr_cons]
    rcases List.mem_cons.1 member with rfl | member
    · exact Nat.le_max_left _ _
    · exact Nat.le_trans (ih member) (Nat.le_max_right _ _)

theorem foldr_max_le {numbers : List Nat} {bound : Nat} (below : ∀ number ∈ numbers, number ≤ bound) :
    numbers.foldr max 0 ≤ bound := by
  induction numbers with
  | nil => exact Nat.zero_le _
  | cons first rest ih =>
    rw [List.foldr_cons]
    exact Nat.max_le.2 ⟨below first List.mem_cons_self,
      ih fun number member => below number (List.mem_cons_of_mem _ member)⟩

theorem setHeight_mono (height : String → Nat) {inner outer : SelectionSet}
    (subset : inner.spreads ⊆ outer.spreads) :
    setHeight height inner ≤ setHeight height outer := by
  apply foldr_max_le
  intro number member
  obtain ⟨spread, inside, rfl⟩ := List.mem_map.1 member
  exact le_foldr_max (List.mem_map.2 ⟨spread, subset inside, rfl⟩)

mutual

/-- The set of a field lies inside the set that the field is selected in. -/
theorem fieldsOf_inside (has : x.node.selectionSet = some set) (parent : Option TypeDef) :
    (outer : SelectionSet) → x ∈ fieldsOf schema parent outer →
      set.spreads ⊆ outer.spreads ∧ sizeOf set < sizeOf outer
  | ⟨selections, span⟩ => by
    intro member
    rw [fieldsOf] at member
    obtain ⟨selection, inside, spreads, smaller⟩ := fieldsIn_inside has parent selections member
    rw [SelectionSet.spreads]
    constructor
    · intro spread below
      exact List.mem_append_right _ (mem_spreadsBelow.2 ⟨selection, inside, spreads below⟩)
    · have below := List.sizeOf_lt_of_mem inside
      simp only [SelectionSet.mk.sizeOf_spec]
      omega

theorem fieldsIn_inside (has : x.node.selectionSet = some set) (parent : Option TypeDef) :
    (selections : List Selection) → x ∈ fieldsIn schema parent selections →
      ∃ selection ∈ selections, set.spreads ⊆ selection.spreadsInside ∧ sizeOf set < sizeOf selection
  | [] => fun member => by
    rw [fieldsIn] at member
    cases member
  | selection :: rest => by
    intro member
    rw [fieldsIn] at member
    rcases List.mem_append.1 member with member | member
    · exact ⟨selection, List.mem_cons_self, fieldsBy_inside has parent selection member⟩
    · obtain ⟨other, inside, found⟩ := fieldsIn_inside has parent rest member
      exact ⟨other, List.mem_cons_of_mem _ inside, found⟩

theorem fieldsBy_inside (has : x.node.selectionSet = some set) (parent : Option TypeDef) :
    (selection : Selection) → x ∈ fieldsBy schema parent selection →
      set.spreads ⊆ selection.spreadsInside ∧ sizeOf set < sizeOf selection
  | .field ⟨nickname, name, arguments, directives, inner, span⟩ => by
    intro member
    rw [fieldsBy, List.mem_singleton] at member
    subst member
    cases has
    rw [Selection.spreadsInside]
    refine ⟨fun _ inside => inside, ?_⟩
    simp only [Selection.field.sizeOf_spec, Ast.Field.mk.sizeOf_spec, Option.some.sizeOf_spec]
    omega
  | .spread _ => fun member => by
    rw [fieldsBy] at member
    cases member
  | .inline ⟨some condition, directives, inner, span⟩ => by
    intro member
    rw [fieldsBy] at member
    obtain ⟨spreads, smaller⟩ := fieldsOf_inside has _ inner member
    rw [Selection.spreadsInside]
    refine ⟨spreads, ?_⟩
    simp only [Selection.inline.sizeOf_spec, Ast.InlineFragment.mk.sizeOf_spec]
    omega
  | .inline ⟨none, directives, inner, span⟩ => by
    intro member
    rw [fieldsBy] at member
    obtain ⟨spreads, smaller⟩ := fieldsOf_inside has _ inner member
    rw [Selection.spreadsInside]
    refine ⟨spreads, ?_⟩
    simp only [Selection.inline.sizeOf_spec, Ast.InlineFragment.mk.sizeOf_spec]
    omega

end

/-- The set of a field weighs less than the set that the field is selected in. -/
theorem weight_own {parent : Option TypeDef} {outer : SelectionSet}
    (member : x ∈ fieldsOf schema parent outer) (has : x.node.selectionSet = some set) :
    weight height set < weight height outer := by
  obtain ⟨spreads, smaller⟩ := fieldsOf_inside has parent outer member
  have lower := setHeight_mono height spreads
  rw [weight, weight, Prod.Lex.toLex_lt_toLex]
  dsimp only
  omega

/-- The set of a field weighs less than a set that the field's fragment stands in. -/
theorem weight_beside {document : Document} (graded : Graded document height)
    {outer : SelectionSet} {fragment : FragmentDefinition}
    (stands : Stands document.fragments (spreadsOf outer) fragment)
    (member : x ∈ fragmentFields schema fragment) (has : x.node.selectionSet = some set) :
    weight height set < weight height outer := by
  obtain ⟨spreads, smaller⟩ := fieldsOf_inside has _ _ member
  have inside : setHeight height set ≤ height fragment.name.text := by
    apply foldr_max_le
    intro number known
    obtain ⟨spread, below, rfl⟩ := List.mem_map.1 known
    exact graded _ _ ⟨fragment, stands.named, List.mem_map.2 ⟨spread, spreads below, rfl⟩⟩
  obtain ⟨name, spread, behind⟩ := stands.one
  obtain ⟨first, known, same⟩ := List.mem_map.1 (spreadsOf_spreads outer spread)
  have low := graded.behind behind
  have high : height name + 1 ≤ setHeight height outer := by
    rw [← same]
    exact le_foldr_max (List.mem_map.2 ⟨first, known, rfl⟩)
  rw [weight, weight, Prod.Lex.toLex_lt_toLex]
  dsimp only
  omega

end Sets

/-- The weight of the heavier one of the sets below two fields. -/
noncomputable def Comparison.weight? (height : String → Nat) : Comparison → Option (Nat ×ₗ Nat)
  | fields _ _ a b => a.node.selectionSet.bind fun s => b.node.selectionSet.map fun t =>
      max (weight height s) (weight height t)
  | fragments _ _ _ => none

section Nesting
variable {schema : Schema} {document : Document} {height : String → Nat}

theorem Nests.weight? (height : String → Nat) {outer inner : Comparison}
    (nests : Nests schema document outer inner) :
    ∃ heavy, outer.weight? height = some heavy := by
  obtain ⟨fields, _, member⟩ := nests
  cases outer with
  | fields exclusive key a b =>
    obtain ⟨_, s, t, first, second, _⟩ := mem_fields_parts.1 member
    exact ⟨max (weight height s) (weight height t), by simp [Comparison.weight?, first, second]⟩
  | fragments _ _ _ => cases fields

/-- A comparison weighs more than those that it makes. -/
theorem Nests.lighter (graded : Graded document height) {outer inner : Comparison}
    (nests : Nests schema document outer inner) {heavy light : Nat ×ₗ Nat}
    (first : outer.weight? height = some heavy) (second : inner.weight? height = some light) :
    light < heavy := by
  obtain ⟨fields, innerFields, member⟩ := nests
  cases outer with
  | fragments _ _ _ => cases fields
  | fields exclusive key a b =>
    obtain ⟨_, s, t, hasFirst, hasSecond, member⟩ := mem_fields_parts.1 member
    have heavier : heavy = max (weight height s) (weight height t) := by
      simpa [Comparison.weight?, hasFirst, hasSecond] using first.symm
    cases inner with
    | fragments _ _ _ => cases innerFields
    | fields before key' x y =>
      simp only [Comparison.weight?, Option.bind_eq_some_iff, Option.map_eq_some_iff] at second
      obtain ⟨s', left, t', right, rfl⟩ := second
      rw [heavier]
      rcases (mem_setParts _ _ _ _).1 member with
        ⟨x, inside, y, other, _, same⟩ | ⟨g, stands, x, inside, y, other, _, same⟩ |
        ⟨f, stands, y, other, x, inside, _, same⟩ | ⟨_, _, _, _, same⟩
      · cases same
        exact max_lt_max (weight_own inside left) (weight_own other right)
      · cases same
        exact max_lt_max (weight_own inside left) (weight_beside graded stands other right)
      · cases same
        rw [max_comm]
        exact max_lt_max (weight_beside graded stands inside right) (weight_own other left)
      · cases same

theorem not_circular (acyclic : Acyclic document) (comparison : Comparison) :
    ¬ Circular schema document comparison := by
  obtain ⟨height, graded⟩ := acyclic.graded
  have lighter {inner : Comparison} (path : TransGen (Nests schema document) comparison inner) :
      ∀ heavy light, comparison.weight? height = some heavy → inner.weight? height = some light →
        light < heavy := by
    induction path with
    | single nests => exact fun _ _ => nests.lighter graded
    | tail _ nests ih =>
      intro heavy light first second
      obtain ⟨middle, between⟩ := nests.weight? height
      exact (nests.lighter graded between second).trans (ih heavy middle first between)
  intro circular
  obtain ⟨next, nests, _⟩ := TransGen.head'_iff.1 circular
  obtain ⟨heavy, same⟩ := nests.weight? height
  exact lt_irrefl heavy (lighter circular heavy heavy same same)

/-- The search through a document whose fragments do not spread themselves ends. -/
theorem Acyclic.straight (acyclic : Acyclic document) : ¬ Circles schema document :=
  fun ⟨made, _, circular⟩ => not_circular acyclic made circular

end Nesting
end GraphQL.Validation.Overlap
