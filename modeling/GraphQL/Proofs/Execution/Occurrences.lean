import Mathlib.Data.List.Nodup
import GraphQL.Proofs.Overlap.Beside
import GraphQL.Execution.Collection

/-! Where the field nodes stand that are collected from an object. Nodes that are written alike are
told apart by their places, and no place is collected twice. -/
namespace GraphQL.Execution
open Ast (SelectionSet Selection FragmentDefinition)
open Validation.Overlap (named? named?_keep named?_others name_of_named? take?_eq_some)

variable {τ : Type}

/-- The texts in which selections stand: the selection sets that are collected and the fragments. -/
inductive Origin where
  | set (index : Nat)
  | fragment (name : String)
deriving DecidableEq

/-- The place of a selection: its position in a text, below the positions of the inline fragments
around it. -/
structure Place where
  origin : Origin
  steps : List Nat
deriving DecidableEq

/-- A field node. Two nodes at different places may be written alike. -/
structure Occurrence where
  place : Place
  node : Ast.Field
deriving DecidableEq

/-- A field node or a spread. -/
inductive Mark where
  | field (of : Occurrence)
  | spread (fragment : String)

namespace Mark

def selected : Mark → Selected
  | field occurrence => .field occurrence.node
  | spread name => .spread name

def field? : Mark → Option Occurrence
  | field occurrence => some occurrence
  | spread _ => none

end Mark

/-- The position of a selection inside a place. -/
def Place.inside (place : Place) (position : Nat) : Place :=
  { place with steps := place.steps ++ [position] }

namespace Plan

/-- A selection takes part: it is not skipped, whatever else its directives say, nor left out. -/
def TakesPart (plan : Plan τ) (directives : List Ast.Directive) : Prop :=
  plan.condition "skip" directives ≠ some true ∧ plan.condition "include" directives ≠ some false

/-- A fragment on a type opens for the objects of a type: its own, or one that can stand for it. -/
def Opens (plan : Plan τ) (object : ObjectType) (condition : Ast.NamedType) : Prop :=
  condition.name.text = object.name ∨
    plan.schema.isPossibleType condition.name.text object.name = true

instance (plan : Plan τ) (directives : List Ast.Directive) :
    Decidable (plan.TakesPart directives) :=
  inferInstanceAs (Decidable (_ ∧ _))

instance (plan : Plan τ) (object : ObjectType) (condition : Ast.NamedType) :
    Decidable (plan.Opens object condition) :=
  inferInstanceAs (Decidable (_ ∨ _))

/-- Of several fragments of one name the last one counts. -/
def fragment? (plan : Plan τ) (name : String) : Option FragmentDefinition :=
  named? plan.fragments.reverse name

end Plan

mutual

/-- The field nodes and spreads of a selection set that take part for an object type, inline
fragments opened. -/
def marks (plan : Plan τ) (object : ObjectType) (place : Place) : SelectionSet → List Mark
  | ⟨selections, _⟩ => marksFrom plan object place 0 selections

def marksFrom (plan : Plan τ) (object : ObjectType) (place : Place) (position : Nat) :
    List Selection → List Mark
  | [] => []
  | selection :: rest =>
      marksBy plan object (place.inside position) selection
        ++ marksFrom plan object place (position + 1) rest

def marksBy (plan : Plan τ) (object : ObjectType) (place : Place) : Selection → List Mark
  | .field node => if plan.TakesPart node.directives then [.field ⟨place, node⟩] else []
  | .spread spread => if plan.TakesPart spread.directives then [.spread spread.name.text] else []
  | .inline ⟨condition, directives, selections, _⟩ =>
      if plan.TakesPart directives ∧ ∀ type ∈ condition, plan.Opens object type then
        marks plan object place selections
      else []

end

/-- What a fragment selects from an object. -/
def fragmentMarks (plan : Plan τ) (object : ObjectType) (fragment : FragmentDefinition) :
    List Mark :=
  if plan.Opens object fragment.typeCondition then
    marks plan object ⟨.fragment fragment.name.text, []⟩ fragment.selectionSet
  else []

/-- The field nodes that are collected: `expand` with the places of the nodes. -/
def discover (plan : Plan τ) (object : ObjectType) (unopened : List FragmentDefinition) :
    List Mark → List Occurrence
  | [] => []
  | .field occurrence :: rest => occurrence :: discover plan object unopened rest
  | .spread name :: rest =>
      match _found : FragmentDefinition.take? unopened name with
      | none => discover plan object unopened rest
      | some (fragment, others) =>
          discover plan object others (fragmentMarks plan object fragment ++ rest)
termination_by marks => (unopened.length, marks.length)
decreasing_by
  · exact Prod.Lex.right _ (by simp)
  · exact Prod.Lex.right _ (by simp)
  · exact Prod.Lex.left _ _ (FragmentDefinition.length_of_take? _found)

namespace Plan

/-- The field nodes and spreads of several selection sets. -/
def marksOf (plan : Plan τ) (object : ObjectType) (sets : List SelectionSet) : List Mark :=
  sets.zipIdx.flatMap fun set => marks plan object ⟨.set set.2, []⟩ set.1

/-- The field nodes that selection sets select together from an object. -/
def occurrences (plan : Plan τ) (object : ObjectType) (sets : List SelectionSet) :
    List Occurrence :=
  discover plan object plan.fragments.reverse (plan.marksOf object sets)

end Plan

/-- The field at a place of a selection set. -/
def fieldAt? : List Nat → SelectionSet → Option Ast.Field
  | [], _ => none
  | position :: rest, set =>
      match set.selections[position]? with
      | some (.field node) => if rest = [] then some node else none
      | some (.inline inline) => fieldAt? rest inline.selectionSet
      | _ => none

/-- The field at a place of a selection. -/
def fieldIn? (steps : List Nat) : Selection → Option Ast.Field
  | .field node => if steps = [] then some node else none
  | .inline inline => fieldAt? steps inline.selectionSet
  | .spread _ => none

theorem fieldAt?_cons (position : Nat) (rest : List Nat) (set : SelectionSet) :
    fieldAt? (position :: rest) set = set.selections[position]?.bind (fieldIn? rest) := by
  rw [fieldAt?]
  rcases set.selections[position]? with _ | selection
  · rfl
  · cases selection <;> rfl

/-- The field at a place of the selection sets, or of the fragments. -/
def Plan.nodeAt? (plan : Plan τ) (sets : List SelectionSet) (place : Place) : Option Ast.Field :=
  match place.origin with
  | .set index => sets[index]?.bind (fieldAt? place.steps)
  | .fragment name =>
      (plan.fragment? name).bind fun fragment => fieldAt? place.steps fragment.selectionSet

section Selecting
variable (plan : Plan τ) (object : ObjectType)

theorem includes_iff (directives : List Ast.Directive) :
    plan.includes directives = true ↔ plan.TakesPart directives := by
  simp [Plan.includes, Plan.TakesPart]

theorem applies_iff (condition : Ast.NamedType) :
    plan.applies object condition = true ↔ plan.Opens object condition := by
  simp [Plan.applies, Plan.Opens]

mutual

/-- Without the places, the marks are what is selected. -/
theorem marks_selected (place : Place) : (set : SelectionSet) →
    (marks plan object place set).map Mark.selected = selected plan object set
  | ⟨selections, _⟩ => by
    rw [marks, selected]
    exact marksFrom_selected place 0 selections

theorem marksFrom_selected (place : Place) (position : Nat) : (selections : List Selection) →
    (marksFrom plan object place position selections).map Mark.selected =
      selectedIn plan object selections
  | [] => by rw [marksFrom, selectedIn, List.map_nil]
  | selection :: rest => by
    rw [marksFrom, selectedIn, List.map_append, marksBy_selected (place.inside position) selection,
      marksFrom_selected place (position + 1) rest]

theorem marksBy_selected (place : Place) : (selection : Selection) →
    (marksBy plan object place selection).map Mark.selected = selectedBy plan object selection
  | .field node => by
    rw [marksBy, selectedBy]
    simp only [includes_iff]
    split <;> rfl
  | .spread spread => by
    rw [marksBy, selectedBy]
    simp only [includes_iff]
    split <;> rfl
  | .inline ⟨condition, directives, set, span⟩ => by
    have same : (plan.includes directives && condition.all (plan.applies object)) = true ↔
        plan.TakesPart directives ∧ ∀ type ∈ condition, plan.Opens object type := by
      simp only [Bool.and_eq_true, includes_iff, Option.all_eq_true, applies_iff, Option.mem_def]
    rw [marksBy, selectedBy]
    simp only [same]
    split
    · exact marks_selected place set
    · rfl

end

theorem fragmentMarks_selected (fragment : FragmentDefinition) :
    (fragmentMarks plan object fragment).map Mark.selected =
      if plan.applies object fragment.typeCondition then selected plan object fragment.selectionSet
      else [] := by
  rw [fragmentMarks]
  simp only [applies_iff]
  split
  · exact marks_selected plan object _ _
  · rfl

theorem marksOf_selected (sets : List SelectionSet) :
    (plan.marksOf object sets).map Mark.selected = sets.flatMap (selected plan object) := by
  rw [Plan.marksOf, List.map_flatMap]
  simp only [marks_selected]
  rw [← List.flatMap_map Prod.fst (selected plan object), List.zipIdx_map_fst]

/-- Without the places, what is discovered is what the selection expands to. -/
theorem discover_expand (unopened : List FragmentDefinition) (marks : List Mark) :
    (discover plan object unopened marks).map Occurrence.node =
      expand plan object unopened (marks.map Mark.selected) := by
  fun_induction discover plan object unopened marks with
  | case1 unopened => rw [List.map_nil, List.map_nil, expand]
  | case2 unopened occurrence rest ih =>
    rw [List.map_cons, List.map_cons, Mark.selected, expand, ih]
  | case3 unopened name rest missing ih =>
    rw [List.map_cons, Mark.selected, expand, ih]
    split
    · rfl
    · rename_i fragment others taken
      rw [missing] at taken
      cases taken
  | case4 unopened name rest fragment others taken ih =>
    rw [List.map_cons, Mark.selected, expand, ih, List.map_append]
    split
    · rename_i missing
      rw [taken] at missing
      cases missing
    · rename_i found rest here
      rw [taken] at here
      cases here
      rw [fragmentMarks_selected]

theorem collect_occurrences (sets : List SelectionSet) :
    plan.collect object sets =
      Groups.ofList Ast.Field.responseKey ((plan.occurrences object sets).map Occurrence.node) := by
  rw [Plan.collect, Plan.occurrences, discover_expand, marksOf_selected]

/-! Where the field nodes stand -/

mutual

/-- The marks of a selection set stand at their places in it. -/
theorem marks_stand (place : Place) {occurrence : Occurrence} : (set : SelectionSet) →
    .field occurrence ∈ marks plan object place set →
      occurrence.place.origin = place.origin ∧ ∃ rest,
        occurrence.place.steps = place.steps ++ rest ∧ fieldAt? rest set = some occurrence.node
  | ⟨selections, span⟩ => fun member => by
    rw [marks] at member
    obtain ⟨origin, position, rest, steps, _, stands⟩ := marksFrom_stand place 0 selections member
    exact ⟨origin, position :: rest, steps, by rw [fieldAt?_cons]; exact stands⟩

/-- What the rest of a selection set selects stands behind the positions that have passed. -/
theorem marksFrom_stand (place : Place) (start : Nat) {occurrence : Occurrence} :
    (selections : List Selection) →
    .field occurrence ∈ marksFrom plan object place start selections →
      occurrence.place.origin = place.origin ∧ ∃ position rest,
        occurrence.place.steps = place.steps ++ position :: rest ∧ start ≤ position ∧
        (selections[position - start]?.bind (fieldIn? rest)) = some occurrence.node
  | [] => fun member => by
    rw [marksFrom] at member
    cases member
  | selection :: others => fun member => by
    rw [marksFrom] at member
    rcases List.mem_append.1 member with member | member
    · obtain ⟨origin, rest, steps, stands⟩ := marksBy_stand (place.inside start) selection member
      rw [Place.inside, List.append_assoc] at steps
      refine ⟨origin, start, rest, steps, Nat.le_refl _, ?_⟩
      rw [Nat.sub_self, List.getElem?_cons_zero]
      exact stands
    · obtain ⟨origin, position, rest, steps, behind, stands⟩ :=
        marksFrom_stand place (start + 1) others member
      refine ⟨origin, position, rest, steps, by omega, ?_⟩
      rwa [show position - start = position - (start + 1) + 1 by omega, List.getElem?_cons_succ]

theorem marksBy_stand (place : Place) {occurrence : Occurrence} : (selection : Selection) →
    .field occurrence ∈ marksBy plan object place selection →
      occurrence.place.origin = place.origin ∧ ∃ rest,
        occurrence.place.steps = place.steps ++ rest ∧
          fieldIn? rest selection = some occurrence.node
  | .field node => fun member => by
    rw [marksBy] at member
    split at member
    · cases List.mem_singleton.1 member
      exact ⟨rfl, [], (List.append_nil _).symm, rfl⟩
    · cases member
  | .spread spread => fun member => by
    rw [marksBy] at member
    split at member
    · cases List.mem_singleton.1 member
    · cases member
  | .inline ⟨condition, directives, set, span⟩ => fun member => by
    rw [marksBy] at member
    split at member
    · obtain ⟨origin, rest, steps, stands⟩ := marks_stand place set member
      exact ⟨origin, rest, steps, stands⟩
    · cases member

end

/-- The places of the field nodes among marks. -/
def placesOf (marks : List Mark) : List Place :=
  (marks.filterMap Mark.field?).map Occurrence.place

@[simp] theorem placesOf_nil : placesOf [] = [] := rfl

@[simp] theorem placesOf_field (occurrence : Occurrence) (marks : List Mark) :
    placesOf (.field occurrence :: marks) = occurrence.place :: placesOf marks := rfl

@[simp] theorem placesOf_spread (name : String) (marks : List Mark) :
    placesOf (.spread name :: marks) = placesOf marks := rfl

@[simp] theorem placesOf_append (front back : List Mark) :
    placesOf (front ++ back) = placesOf front ++ placesOf back := by
  rw [placesOf, List.filterMap_append, List.map_append, placesOf, placesOf]

theorem mem_placesOf {place : Place} {marks : List Mark} :
    place ∈ placesOf marks ↔
      ∃ occurrence, .field occurrence ∈ marks ∧ occurrence.place = place := by
  induction marks with
  | nil => simp
  | cons mark rest ih => cases mark <;> simp [ih, eq_comm]

mutual

/-- No two field nodes of a selection set stand at one place. -/
theorem places_apart (place : Place) : (set : SelectionSet) →
    (placesOf (marks plan object place set)).Nodup
  | ⟨selections, _⟩ => by
    rw [marks]
    exact placesFrom_apart place 0 selections

theorem placesFrom_apart (place : Place) (start : Nat) : (selections : List Selection) →
    (placesOf (marksFrom plan object place start selections)).Nodup
  | [] => by
    rw [marksFrom]
    exact .nil
  | selection :: rest => by
    rw [marksFrom, placesOf_append]
    refine (placesBy_apart (place.inside start) selection).append
      (placesFrom_apart place (start + 1) rest) fun other here there => ?_
    obtain ⟨first, member, rfl⟩ := mem_placesOf.1 here
    obtain ⟨second, known, same⟩ := mem_placesOf.1 there
    obtain ⟨_, inside, steps, _⟩ := marksBy_stand plan object _ selection member
    obtain ⟨_, position, below, others, behind, _⟩ := marksFrom_stand plan object _ _ rest known
    rw [← same, others, Place.inside, List.append_assoc] at steps
    have equal : position = start := (List.cons.inj (List.append_cancel_left steps)).1
    omega

theorem placesBy_apart (place : Place) : (selection : Selection) →
    (placesOf (marksBy plan object place selection)).Nodup
  | .field node => by
    rw [marksBy]
    split
    · exact List.nodup_singleton _
    · exact .nil
  | .spread spread => by
    rw [marksBy]
    split <;> exact .nil
  | .inline ⟨_, _, set, _⟩ => by
    rw [marksBy]
    split
    · exact places_apart place set
    · exact .nil

end

theorem fragmentMarks_stand {fragment : FragmentDefinition} {occurrence : Occurrence}
    (member : .field occurrence ∈ fragmentMarks plan object fragment) :
    occurrence.place.origin = .fragment fragment.name.text ∧
      fieldAt? occurrence.place.steps fragment.selectionSet = some occurrence.node := by
  rw [fragmentMarks] at member
  split at member
  · obtain ⟨origin, rest, steps, stands⟩ := marks_stand plan object _ _ member
    exact ⟨origin, steps ▸ stands⟩
  · cases member

theorem fragmentMarks_apart (fragment : FragmentDefinition) :
    (placesOf (fragmentMarks plan object fragment)).Nodup := by
  rw [fragmentMarks]
  split
  · exact places_apart plan object _ _
  · exact .nil

theorem marksOf_stand {sets : List SelectionSet} {occurrence : Occurrence}
    (member : .field occurrence ∈ plan.marksOf object sets) : ∃ index set, sets[index]? = some set ∧
      occurrence.place.origin = .set index ∧
        fieldAt? occurrence.place.steps set = some occurrence.node := by
  obtain ⟨⟨set, index⟩, here, inside⟩ := List.mem_flatMap.1 member
  obtain ⟨origin, rest, steps, stands⟩ := marks_stand plan object _ set inside
  exact ⟨index, set, List.mem_zipIdx_iff_getElem?.1 here, origin, steps ▸ stands⟩

theorem marksOf_apart (sets : List SelectionSet) : (placesOf (plan.marksOf object sets)).Nodup := by
  have apart (start : Nat) : (placesOf ((sets.zipIdx start).flatMap fun set =>
      marks plan object ⟨.set set.2, []⟩ set.1)).Nodup := by
    induction sets generalizing start with
    | nil => exact .nil
    | cons set rest ih =>
      rw [List.zipIdx_cons, List.flatMap_cons, placesOf_append]
      refine (places_apart plan object _ set).append (ih (start + 1)) fun other here there => ?_
      obtain ⟨first, member, rfl⟩ := mem_placesOf.1 here
      obtain ⟨second, known, same⟩ := mem_placesOf.1 there
      obtain ⟨⟨later, index⟩, found, inside⟩ := List.mem_flatMap.1 known
      have origin := (marks_stand plan object _ set member).1
      rw [← same, (marks_stand plan object _ later inside).1] at origin
      have behind := (List.mem_zipIdx found).1
      cases origin
      omega
  exact apart 0

/-- The field nodes among marks stand apart, and away from the fragments that are not yet opened. -/
structure Fresh (unopened : List FragmentDefinition) (marks : List Mark) : Prop where
  apart : (placesOf marks).Nodup
  away : ∀ place ∈ placesOf marks, ∀ name,
    place.origin = .fragment name → named? unopened name = none

theorem named?_without (fragments : List FragmentDefinition) (name other : String) :
    named? (fragments.filter fun fragment => fragment.name.text != name) other =
      if other = name then none else named? fragments other := by
  split
  · rename_i same
    subst same
    simp [named?]
  · exact named?_others ‹_›

/-- Opening a fragment keeps the field nodes apart. -/
theorem Fresh.opened {unopened others : List FragmentDefinition} {name : String} {rest : List Mark}
    {fragment : FragmentDefinition} (fresh : Fresh unopened (.spread name :: rest))
    (taken : FragmentDefinition.take? unopened name = some (fragment, others)) :
    Fresh others (fragmentMarks plan object fragment ++ rest) := by
  obtain ⟨found, rfl⟩ := take?_eq_some taken
  have called := name_of_named? found
  constructor
  · rw [placesOf_append]
    refine (fragmentMarks_apart plan object fragment).append fresh.apart fun place here there => ?_
    obtain ⟨occurrence, member, rfl⟩ := mem_placesOf.1 here
    have origin := (fragmentMarks_stand plan object member).1
    rw [called] at origin
    rw [fresh.away _ there name origin] at found
    cases found
  · intro place member other origin
    rw [placesOf_append] at member
    rcases List.mem_append.1 member with here | there
    · obtain ⟨occurrence, inside, rfl⟩ := mem_placesOf.1 here
      rw [(fragmentMarks_stand plan object inside).1, called] at origin
      cases origin
      rw [named?_without, if_pos rfl]
    · rw [named?_without, fresh.away place there other origin, ite_self]

/-- What is discovered stands among the marks, or in a fragment that was not yet opened. -/
theorem mem_discover {occurrence : Occurrence} (unopened : List FragmentDefinition)
    (marks : List Mark) (member : occurrence ∈ discover plan object unopened marks) :
    .field occurrence ∈ marks ∨ ∃ name fragment, named? unopened name = some fragment ∧
      occurrence.place.origin = .fragment name ∧
      fieldAt? occurrence.place.steps fragment.selectionSet = some occurrence.node := by
  fun_induction discover plan object unopened marks with
  | case1 unopened => cases member
  | case2 unopened first rest ih =>
    rcases List.mem_cons.1 member with rfl | member
    · exact .inl List.mem_cons_self
    · exact (ih member).imp_left (List.mem_cons_of_mem _)
  | case3 unopened name rest missing ih => exact (ih member).imp_left (List.mem_cons_of_mem _)
  | case4 unopened name rest fragment others taken ih =>
    obtain ⟨found, rfl⟩ := take?_eq_some taken
    rcases ih member with here | ⟨other, late, below, stands⟩
    · rcases List.mem_append.1 here with inside | behind
      · obtain ⟨origin, stands⟩ := fragmentMarks_stand plan object inside
        rw [name_of_named? found] at origin
        exact .inr ⟨name, fragment, found, origin, stands⟩
      · exact .inl (List.mem_cons_of_mem _ behind)
    · exact .inr ⟨other, late, named?_keep (· != name) below, stands⟩

/-- No field node is discovered twice. -/
theorem discover_apart (unopened : List FragmentDefinition) (marks : List Mark)
    (fresh : Fresh unopened marks) :
    ((discover plan object unopened marks).map Occurrence.place).Nodup := by
  fun_induction discover plan object unopened marks with
  | case1 unopened => exact .nil
  | case2 unopened first rest ih =>
    obtain ⟨apart, away⟩ := fresh
    rw [placesOf_field] at apart away
    obtain ⟨alone, apart⟩ := List.nodup_cons.1 apart
    refine List.nodup_cons.2 ⟨fun again => ?_,
      ih ⟨apart, fun place member => away place (List.mem_cons_of_mem _ member)⟩⟩
    obtain ⟨other, member, same⟩ := List.mem_map.1 again
    rcases mem_discover plan object unopened rest member with here | ⟨name, _, below, origin, _⟩
    · exact alone (mem_placesOf.2 ⟨other, here, same⟩)
    · rw [away _ List.mem_cons_self name (same ▸ origin)] at below
      cases below
  | case3 unopened name rest missing ih => exact ih ⟨fresh.apart, fresh.away⟩
  | case4 unopened name rest fragment others taken ih => exact ih (fresh.opened plan object taken)

theorem marksOf_fresh (sets : List SelectionSet) :
    Fresh plan.fragments.reverse (plan.marksOf object sets) where
  apart := marksOf_apart plan object sets
  away place member name origin := by
    obtain ⟨occurrence, here, rfl⟩ := mem_placesOf.1 member
    obtain ⟨_, _, _, stands, _⟩ := marksOf_stand plan object here
    rw [origin] at stands
    cases stands

/-- Every field node that is collected stands where its place says. -/
theorem occurrences_stand (sets : List SelectionSet) {occurrence : Occurrence}
    (member : occurrence ∈ plan.occurrences object sets) :
    plan.nodeAt? sets occurrence.place = some occurrence.node := by
  rw [Plan.nodeAt?]
  rcases mem_discover plan object _ _ member with here | ⟨name, fragment, found, origin, stands⟩
  · obtain ⟨index, set, found, origin, stands⟩ := marksOf_stand plan object here
    rw [origin]
    simp only [found, Option.bind_some, stands]
  · rw [origin]
    simp only [Plan.fragment?, found, Option.bind_some, stands]

end Selecting
end GraphQL.Execution
