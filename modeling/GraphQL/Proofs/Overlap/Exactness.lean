import GraphQL.Proofs.Overlap.Completeness
import GraphQL.Proofs.Overlap.Straight
import GraphQL.Proofs.Validation.Problems

/-! The rule about merging has problems to report exactly in the documents that conflict plainly. -/
namespace GraphQL.Validation.Overlap
open Ast (SelectionSet Selection FragmentDefinition Definition Document)

section Stops
variable {schema : Schema} {around : Option String} {parent : Option TypeDef} {set : SelectionSet}

/-- Every set that the walk comes to is searched. -/
theorem visitedAfter_of_stop {stops : List Stop} (member : .set around parent set ∈ stops)
    (entered : List String) :
    ∃ visited ∈ visitedAfter entered stops, visited.parent = parent ∧ visited.set = set := by
  induction stops generalizing entered with
  | nil => cases member
  | cons stop rest ih =>
    cases stop with
    | fragment name => exact ih ((List.mem_cons.1 member).resolve_left nofun) (name :: entered)
    | set here type inner =>
      rcases List.mem_cons.1 member with same | member
      · cases same
        exact ⟨_, List.mem_cons_self, rfl, rfl⟩
      · obtain ⟨visited, known, same⟩ := ih member entered
        exact ⟨visited, List.mem_cons_of_mem _ known, same⟩

/-- A set with no fragment directly around it. -/
def Loose : Stop → Prop
  | .set none _ _ => True
  | _ => False

mutual

theorem setStops_loose (type : Option TypeRef) : (set : SelectionSet) →
    ∀ stop ∈ setStops schema none type set, Loose stop
  | ⟨selections, span⟩ => by
    intro stop member
    rw [setStops] at member
    rcases List.mem_cons.1 member with rfl | member
    · trivial
    · exact selectionsStops_loose type _ selections stop member

theorem selectionsStops_loose (type : Option TypeRef) (parent : Option TypeDef) :
    (selections : List Selection) →
      ∀ stop ∈ selectionsStops schema type parent selections, Loose stop
  | [] => fun _ member => by
    rw [selectionsStops] at member
    cases member
  | selection :: rest => by
    intro stop member
    rw [selectionsStops] at member
    rcases List.mem_append.1 member with member | member
    · exact selectionStops_loose type parent selection stop member
    · exact selectionsStops_loose type parent rest stop member

theorem selectionStops_loose (type : Option TypeRef) (parent : Option TypeDef) :
    (selection : Selection) → ∀ stop ∈ selectionStops schema type parent selection, Loose stop
  | .field ⟨_, _, _, _, some set, _⟩ => by
    rw [selectionStops]
    exact setStops_loose _ set
  | .field ⟨_, _, _, _, none, _⟩ => fun _ member => by
    rw [selectionStops] at member
    cases member
  | .spread _ => fun _ member => by
    rw [selectionStops] at member
    cases member
  | .inline ⟨some _, _, set, _⟩ => by
    rw [selectionStops]
    exact setStops_loose _ set
  | .inline ⟨none, _, set, _⟩ => by
    rw [selectionStops]
    exact setStops_loose _ set

end

theorem visitedAfter_loose {stops : List Stop} (loose : ∀ stop ∈ stops, Loose stop)
    (entered : List String) (rest : List Stop) {visited : Visited}
    (member : visited ∈ visitedAfter entered (stops ++ rest)) :
    visited.owner = none ∨ visited ∈ visitedAfter entered rest := by
  induction stops with
  | nil => exact .inr member
  | cons stop stops ih =>
    have first := loose stop List.mem_cons_self
    have later := ih fun stop inside => loose stop (List.mem_cons_of_mem _ inside)
    cases stop with
    | fragment name => cases first
    | set around parent set =>
      cases around with
      | some name => cases first
      | none =>
        rw [List.cons_append, visitedAfter] at member
        rcases List.mem_cons.1 member with rfl | member
        · exact .inl rfl
        · exact later member

end Stops

section Owners
variable {schema : Schema} {document : Document} {visited : Visited} {name : String}

/-- The owner of a set is the first fragment of its name, and the set is its own. -/
theorem definitions_owner (definitions : List Definition) (entered : List String)
    (member : visited ∈ visitedAfter entered (definitions.flatMap (definitionStops schema)))
    (owner : visited.owner = some name) : entered.count name = 0 ∧
      ∃ fragment, named? (definitions.filterMap Definition.fragment?) name = some fragment ∧
        fragment.selectionSet = visited.set := by
  induction definitions generalizing entered with
  | nil => cases member
  | cons definition rest ih =>
    rw [List.flatMap_cons] at member
    cases definition with
    | operation operation =>
      rcases visitedAfter_loose (setStops_loose _ _) entered _ member with none | member
      · rw [none] at owner
        cases owner
      · exact ih entered member
    | typeSystem _ => exact ih entered member
    | fragment fragment =>
      obtain ⟨called, condition, directives, ⟨selections, span⟩, place⟩ := fragment
      rw [definitionStops, List.cons_append, visitedAfter] at member
      dsimp only at member
      rw [setStops, List.cons_append, visitedAfter] at member
      rw [List.filterMap_cons_some (by rfl)]
      rcases List.mem_cons.1 member with rfl | member
      · dsimp only at owner
        obtain ⟨same, first⟩ := Option.filter_eq_some_iff.1 owner
        cases same
        have fresh : entered.count called.text = 0 := by simpa using first
        have found := List.find?_cons_of_pos (l := rest.filterMap Definition.fragment?)
          (a := (⟨called, condition, directives, ⟨selections, span⟩, place⟩ : FragmentDefinition))
          (p := fun fragment => fragment.name.text == called.text) (by simp)
        exact ⟨fresh, _, found, rfl⟩
      · rcases visitedAfter_loose (selectionsStops_loose _ _ _) _ _ member with none | member
        · rw [none] at owner
          cases owner
        · obtain ⟨fresh, fragment, found, same⟩ := ih _ member
          have apart : called.text ≠ name := by
            rintro rfl
            simp at fresh
          rw [List.count_cons_of_ne apart] at fresh
          refine ⟨fresh, fragment, ?_, same⟩
          rwa [named?, List.find?_cons_of_neg (by simpa using apart)]

theorem unowned_of_acyclic (acyclic : Acyclic document)
    (member : visited ∈ Overlap.visited schema document) : Unowned document visited := by
  obtain ⟨height, graded⟩ := acyclic.graded
  intro fragment stands
  rw [bne_iff_ne]
  intro owner
  obtain ⟨_, outer, found, same⟩ := definitions_owner document.definitions [] member owner
  rw [← same] at stands
  exact Nat.lt_irrefl _ (graded.beside found stands)

theorem starts_subset (member : visited ∈ Overlap.visited schema document) :
    visited.starts schema document ⊆ documentStarts schema document :=
  fun _ starts => List.mem_flatMap.2 ⟨visited, member, starts⟩

/-- The walk comes to the set of each fragment. -/
theorem fragment_visit (built : schema.Built) (acyclic : Acyclic document)
    {fragment : FragmentDefinition} (found : document.fragment? name = some fragment) :
    ∃ visited, FragmentVisit schema document (documentStarts schema document) fragment visited := by
  obtain ⟨definition, known, same⟩ := List.mem_filterMap.1 (mem_of_named? found)
  cases definition with
  | fragment _ =>
    cases same
    have stop : .set (some fragment.name.text)
        (selectable schema (Scope.conditionType schema fragment.typeCondition))
        fragment.selectionSet ∈ documentStops schema document := by
      refine List.mem_flatMap.2 ⟨_, known, List.mem_cons_of_mem _ ?_⟩
      obtain ⟨_, _, _, ⟨selections, span⟩, _⟩ := fragment
      dsimp only
      rw [setStops]
      exact List.mem_cons_self
    obtain ⟨visited, member, parent, set⟩ := visitedAfter_of_stop stop []
    refine ⟨visited, set, ?_, starts_subset member, unowned_of_acyclic acyclic member⟩
    have agree := (agree_selectable built (Scope.conditionType schema fragment.typeCondition)).trans
      (agree_condition built fragment.typeCondition)
    rw [parent, set]
    exact fieldsOf_alike agree.symm _
  | _ => cases same

theorem expands_owned (built : schema.Built) (member : visited ∈ Overlap.visited schema document)
    {source : Option String} {fields : List Selected}
    (expands : Expands schema document visited.parent visited.set source fields) {x : Selected}
    (inside : x ∈ fields) : Owned schema document x := by
  cases expands with
  | own => exact owned_visited built member inside
  | spread stands => exact owned_of_mem (fragment_inventory stands.member inside)

/-- A search that finds nothing leaves no plain conflict. -/
theorem search_complete (built : schema.Built) (arguments : DistinctArguments document)
    (acyclic : Acyclic document) {last : Compared}
    (ends : Ends schema document (documentStarts schema document) [] [] last) :
    ¬ PlainlyConflicts schema document := by
  obtain ⟨height, graded⟩ := acyclic.graded
  have closed := ends.closed
  have faced (a b : String) (exclusive : Bool) (handled : Handled _ (.fragments exclusive a b)) :=
    faced_of_handled closed graded (fun _ _ found => fragment_visit built acyclic found) _
      (Nat.le_refl _) handled
  rintro ⟨around, parent, set, stop, source, other, fields, others, x, y, first, second, left,
    right, apart, key, conflicting⟩
  obtain ⟨visited, member, rfl, rfl⟩ := visitedAfter_of_stop stop []
  have inside := starts_subset member
  have met := set_met closed inside (unowned_of_acyclic acyclic member)
    (fun a spread b beside => faced a b false (spreads_handled closed inside spread beside))
    first second left right apart key
  exact unmet_of_conflicting arguments closed faced conflicting (expands_owned built member first left)
    (expands_owned built member second right) met

end Owners

section Verdict
variable {schema : Schema} {document : Document}

theorem problems?_finding (found : List Conflict) :
    ∃ problems, Finding.problems? (found.map finding) = some problems ∧
      (problems = [] ↔ found = []) := by
  induction found with
  | nil => exact ⟨[], rfl, Iff.rfl.trans (by simp)⟩
  | cons conflict rest ih =>
    obtain ⟨problems, same, _⟩ := ih
    rw [List.map_cons, finding, Finding.violation, Finding.problems?, same]
    exact ⟨_, rfl, by simp⟩

/-- The search through an acyclic document ends, and finds exactly what conflicts plainly. -/
theorem search_exact (built : schema.Built) (arguments : DistinctArguments document)
    (acyclic : Acyclic document) :
    ∃ found last, searchThrough schema document (depth document) (visited schema document) [] =
      some (found, last) ∧ (found ≠ [] ↔ PlainlyConflicts schema document) := by
  obtain ⟨found, last, run⟩ := (search_ends_iff built).2 acyclic.straight
  have ends := run
  rw [searchThrough_run] at ends
  have ends := ends_of_runAll _ _ ends
  refine ⟨found, last, run, search_sound built arguments ends, fun conflicts none => ?_⟩
  rw [none] at ends
  exact search_complete built arguments acyclic ends conflicts

/-- The rule by itself has problems to report exactly where fields conflict plainly. -/
theorem merging_exact (built : schema.Built) (arguments : DistinctArguments document)
    (acyclic : Acyclic document) :
    ∃ problems, schema.validateWith [Rule.overlappingFieldsCanBeMerged] document = some problems ∧
      (problems ≠ [] ↔ PlainlyConflicts schema document) := by
  obtain ⟨found, last, run, exact_⟩ := search_exact built arguments acyclic
  have reported := reported_document schema document
  rw [run] at reported
  obtain ⟨problems, same, none⟩ := problems?_finding found
  refine ⟨problems, ?_, (not_congr none).trans exact_⟩
  rw [Schema.validateWith, findings_singleton, ← same]
  exact congrArg _ reported

end Verdict
end GraphQL.Validation.Overlap
