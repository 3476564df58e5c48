import GraphQL.Proofs.Execution.Inlining
import GraphQL.Proofs.Overlap.Straight

/-! Documents whose selections come to an end. An object is completed from the sub-selections of
the fields that are collected for it, level by level; fragments are opened once in a level, but
again in every one. The levels come to an end unless a fragment comes back to itself through the
sub-selection of a field. -/
namespace GraphQL.Execution
open Ast (SelectionSet Selection FragmentDefinition FragmentSpread mem_spreadsBelow)
open Validation.Overlap (named? named?_keep mem_of_named? spreadsOf spreadsOf_spreads
  take?_eq_some exists_height setHeight setHeight_mono le_foldr_max foldr_max_le
  weight)
open Relation (TransGen ReflTransGen)

variable {τ : Type}

/-- A field stands in a selection set, perhaps in an inline fragment, but in no other field. -/
inductive Stands (node : Ast.Field) : SelectionSet → Prop
  | field {set : SelectionSet} : .field node ∈ set.selections → Stands node set
  | inline {set : SelectionSet} {inline : Ast.InlineFragment} : .inline inline ∈ set.selections →
      Stands node inline.selectionSet → Stands node set

/-- The names of the fragments that are spread in a selection set, at any depth. -/
def targets (set : SelectionSet) : List String := set.spreads.map FragmentSpread.target

namespace Plan

/-- A fragment spreads another one somewhere in the sub-selection of a field. -/
def SpreadsWithin (plan : Plan τ) (outer inner : String) : Prop :=
  ∃ fragment node set, plan.fragment? outer = some fragment ∧ Stands node fragment.selectionSet ∧
    node.selectionSet = some set ∧ inner ∈ targets set

/-- A fragment, or one that is opened with it, spreads another one in the sub-selection of a
field. -/
def Deepens (plan : Plan τ) (outer inner : String) : Prop :=
  ∃ beside, ReflTransGen plan.SpreadsBeside outer beside ∧ plan.SpreadsWithin beside inner

/-- No fragment comes back to itself through the sub-selection of a field. -/
def Descends (plan : Plan τ) : Prop := ∀ name, ¬ TransGen plan.Deepens name name

end Plan

section Selecting
variable {plan : Plan τ} {object : ObjectType} {node : Ast.Field}

mutual

/-- A field that is selected from an object stands in the selection set. -/
theorem field_stands : (set : SelectionSet) →
    .field node ∈ selected plan object set → Stands node set
  | ⟨selections, span⟩ => fun member => by
    rw [selected] at member
    rcases field_stands_in selections member with here | ⟨inline, here, inside⟩
    · exact .field here
    · exact .inline here inside

theorem field_stands_in : (selections : List Selection) →
    .field node ∈ selectedIn plan object selections → .field node ∈ selections ∨
      ∃ inline, .inline inline ∈ selections ∧ Stands node inline.selectionSet
  | [] => fun member => by
    rw [selectedIn] at member
    cases member
  | selection :: rest => fun member => by
    rw [selectedIn] at member
    rcases List.mem_append.1 member with member | member
    · rcases field_stands_by selection member with rfl | ⟨inline, rfl, inside⟩
      · exact .inl List.mem_cons_self
      · exact .inr ⟨inline, List.mem_cons_self, inside⟩
    · exact (field_stands_in rest member).imp (List.mem_cons_of_mem _)
        fun ⟨inline, here, inside⟩ => ⟨inline, List.mem_cons_of_mem _ here, inside⟩

theorem field_stands_by : (selection : Selection) →
    .field node ∈ selectedBy plan object selection → selection = .field node ∨
      ∃ inline, selection = .inline inline ∧ Stands node inline.selectionSet
  | .field other => fun member => by
    rw [selectedBy] at member
    split at member
    · cases List.mem_singleton.1 member
      exact .inl rfl
    · cases member
  | .spread spread => fun member => by
    rw [selectedBy] at member
    split at member
    · cases List.mem_singleton.1 member
    · cases member
  | .inline ⟨condition, directives, set, span⟩ => fun member => by
    rw [selectedBy] at member
    split at member
    · exact .inr ⟨_, rfl, field_stands set member⟩
    · cases member

end

/-- What a selection of a set holds is smaller than the set, and spreads nothing else. -/
theorem smaller_of_mem {selection : Selection} {set inner : SelectionSet}
    (member : selection ∈ set.selections) (size : sizeOf inner < sizeOf selection)
    (spreads : selection.spreadsInside = inner.spreads) :
    sizeOf inner < sizeOf set ∧ inner.spreads ⊆ set.spreads := by
  obtain ⟨selections, span⟩ := set
  constructor
  · have within : sizeOf selection < sizeOf selections := List.sizeOf_lt_of_mem member
    rw [SelectionSet.mk.sizeOf_spec]
    omega
  · intro spread found
    rw [SelectionSet.spreads]
    exact List.mem_append_right _ (mem_spreadsBelow.2 ⟨selection, member, spreads ▸ found⟩)

/-- The sub-selection of a field is smaller than the set in which the field stands, and spreads
nothing else. -/
theorem Stands.smaller {set inner : SelectionSet} (stands : Stands node set)
    (selects : node.selectionSet = some inner) :
    sizeOf inner < sizeOf set ∧ inner.spreads ⊆ set.spreads := by
  induction stands with
  | field member =>
    obtain ⟨nickname, name, arguments, directives, set, span⟩ := node
    cases selects
    exact smaller_of_mem member (by simp; omega) rfl
  | @inline set inline member _ ih =>
    obtain ⟨condition, directives, within, span⟩ := inline
    have around := smaller_of_mem member (by simp; omega) rfl
    exact ⟨ih.1.trans around.1, List.Subset.trans ih.2 around.2⟩

end Selecting

/-- A property of what is selected that spreads hand on to what their fragments select holds of all
that is collected. -/
theorem expand_closed {plan : Plan τ} {object : ObjectType} {P : Selected → Prop}
    (closed : ∀ name fragment, P (.spread name) → plan.fragment? name = some fragment →
      ∀ item ∈ selected plan object fragment.selectionSet, P item)
    (unopened : List FragmentDefinition) (selections : List Selected)
    (known : ∀ name fragment,
      named? unopened name = some fragment → plan.fragment? name = some fragment)
    (all : ∀ item ∈ selections, P item) {node : Ast.Field}
    (member : node ∈ expand plan object unopened selections) : P (.field node) := by
  fun_induction expand plan object unopened selections with
  | case1 unopened => cases member
  | case2 unopened first rest ih =>
    rcases List.mem_cons.1 member with rfl | member
    · exact all _ List.mem_cons_self
    · exact ih known (fun item here => all item (List.mem_cons_of_mem _ here)) member
  | case3 unopened name rest missing ih =>
    exact ih known (fun item here => all item (List.mem_cons_of_mem _ here)) member
  | case4 unopened name rest fragment others taken inside ih =>
    obtain ⟨found, rfl⟩ := take?_eq_some taken
    refine ih (fun other late below => known other late (named?_keep (· != name) below))
      (fun item here => ?_) member
    rcases List.mem_append.1 here with here | here
    · refine closed name fragment (all _ List.mem_cons_self) (known name fragment found) item ?_
      simp only [inside] at here
      split at here
      · exact here
      · cases here
    · exact all item (List.mem_cons_of_mem _ here)

theorem collect_closed {plan : Plan τ} {object : ObjectType} {P : Selected → Prop}
    (closed : ∀ name fragment, P (.spread name) → plan.fragment? name = some fragment →
      ∀ item ∈ selected plan object fragment.selectionSet, P item) {sets : List SelectionSet}
    (all : ∀ set ∈ sets, ∀ item ∈ selected plan object set, P item) {key : String}
    {nodes : List Ast.Field} (group : (key, nodes) ∈ plan.collect object sets) {node : Ast.Field}
    (member : node ∈ nodes) : P (.field node) := by
  have all : ∀ item ∈ sets.flatMap (selected plan object), P item := fun item here => by
    obtain ⟨set, inside, here⟩ := List.mem_flatMap.1 here
    exact all set inside item here
  refine expand_closed closed plan.fragments.reverse _ (fun _ _ => id) all ?_
  obtain ⟨rfl, _⟩ := (Groups.mem_ofList ..).1 group
  exact (List.mem_filter.1 member).1

section Levels
variable {plan : Plan τ} {height : String → Nat}

/-- The sub-selections of a level weigh less than one of the sets of the level above. -/
def Plan.Lightens (plan : Plan τ) (height : String → Nat) : Prop :=
  ∀ object sets key nodes, (key, nodes) ∈ plan.collect object sets →
    ∀ inner ∈ setsOf nodes, ∃ set ∈ sets, weight height inner < weight height set

/-- What is selected leads to lighter sets: fields to their sub-selections, and spreads to those of
the fragments that are opened with them. -/
def Plan.Leads (plan : Plan τ) (height : String → Nat) (sets : List SelectionSet) : Selected → Prop
  | .field node => ∀ inner, node.selectionSet = some inner →
      ∃ set ∈ sets, weight height inner < weight height set
  | .spread name => ∃ set ∈ sets, ∃ first ∈ targets set, ReflTransGen plan.SpreadsBeside first name

theorem leads_own {object : ObjectType} {sets : List SelectionSet} {set : SelectionSet}
    (inside : set ∈ sets) : ∀ item ∈ selected plan object set, plan.Leads height sets item := by
  intro item member
  cases item with
  | field node =>
    intro inner selects
    obtain ⟨smaller, spreads⟩ := (field_stands set member).smaller selects
    have lower := setHeight_mono height spreads
    refine ⟨set, inside, ?_⟩
    rw [weight, weight, Prod.Lex.toLex_lt_toLex]
    dsimp only
    omega
  | spread name => exact ⟨set, inside, name, spreadsOf_spreads set (spread_seen set member), .refl⟩

/-- Fragments that are opened lead to sets that are lower. -/
theorem leads_opened
    (graded : ∀ outer inner, plan.Deepens outer inner → height inner < height outer)
    {object : ObjectType} {sets : List SelectionSet} (name : String) (fragment : FragmentDefinition)
    (leads : plan.Leads height sets (.spread name)) (found : plan.fragment? name = some fragment) :
    ∀ item ∈ selected plan object fragment.selectionSet, plan.Leads height sets item := by
  obtain ⟨set, inside, first, member, beside⟩ := leads
  intro item here
  cases item with
  | field node =>
    intro inner selects
    have stands := field_stands fragment.selectionSet here
    have low : setHeight height inner ≤ height first := by
      apply foldr_max_le
      intro number known
      obtain ⟨spread, below, rfl⟩ := List.mem_map.1 known
      exact graded _ _ ⟨name, beside, fragment, node, inner, found, stands, selects,
        List.mem_map.2 ⟨spread, below, rfl⟩⟩
    have high : height first + 1 ≤ setHeight height set := by
      obtain ⟨spread, known, same⟩ := List.mem_map.1 member
      exact le_foldr_max (List.mem_map.2 ⟨spread, known, by rw [same]⟩)
    refine ⟨set, inside, ?_⟩
    rw [weight, weight, Prod.Lex.toLex_lt_toLex]
    dsimp only
    omega
  | spread inner =>
    exact ⟨set, inside, first, member, beside.tail ⟨fragment, found, spread_seen _ here⟩⟩

theorem Plan.Descends.lightens (descends : plan.Descends) : ∃ height, plan.Lightens height := by
  have graded : ∃ height : String → Nat, ∀ outer inner,
      plan.Deepens outer inner → height inner < height outer := by
    refine exists_height (plan.fragments.flatMap fun fragment => targets fragment.selectionSet)
      (fun outer inner deepens => ?_) descends
    obtain ⟨beside, _, fragment, node, set, found, stands, selects, member⟩ := deepens
    refine List.mem_flatMap.2 ⟨fragment, List.mem_reverse.1 (mem_of_named? found), ?_⟩
    exact List.map_subset _ (stands.smaller selects).2 member
  obtain ⟨height, graded⟩ := graded
  refine ⟨height, fun object sets key nodes group inner member => ?_⟩
  obtain ⟨node, inside, selects⟩ := List.mem_filterMap.1 member
  exact collect_closed (leads_opened graded) (fun set inside => leads_own inside) group inside
    inner selects

end Levels
end GraphQL.Execution
