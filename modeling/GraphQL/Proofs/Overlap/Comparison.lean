import GraphQL.Proofs.Validation.Visits

/-! The rule about merging as one search: through the selection sets of the document in their
order, with one memory of the fragments compared. -/
namespace GraphQL.Validation.Overlap
open Ast (Node Document Call SelectionSet)

/-- A selection set with the type it selects from. If it is the set of a fragment that is the
first one of its name, that name is its owner. -/
structure Visited where
  owner : Option String
  parent : Option TypeDef
  set : SelectionSet

/-- The sets at some stops; `entered` holds the names of the fragments before them. -/
def visitedAfter (entered : List String) : List Stop → List Visited
  | [] => []
  | .fragment name :: rest => visitedAfter (name :: entered) rest
  | .set around parent set :: rest =>
      ⟨around.filter fun name => entered.count name == 1, parent, set⟩ :: visitedAfter entered rest

/-- The selection sets of a document in the order of the walk. -/
def visited (schema : Schema) (document : Document) : List Visited :=
  visitedAfter [] (documentStops schema document)

def Visited.search (schema : Schema) (document : Document) (fuel : Nat) (visited : Visited) :
    Search (List Conflict) :=
  conflicts schema document fuel visited.owner visited.parent visited.set

/-- The search through several selection sets. -/
def searchThrough (schema : Schema) (document : Document) (fuel : Nat) (sets : List Visited) :
    Search (List Conflict) :=
  forEach sets (Visited.search schema document fuel)

theorem owner_eq (memory : Memory) (ancestors : List Node) : owner? memory ancestors =
    (around? ancestors).filter fun name => memory.entered.count name == 1 := by
  unfold owner? around?
  cases ancestors with
  | nil => rfl
  | cons node rest => cases node <;> simp [Option.filter]

theorem search_bind {α β : Type} (search : Search α) (next : α → Search β) (compared : Compared) :
    (search >>= next) compared =
      (search compared).bind fun answer => next answer.1 answer.2 := rfl

section Reports
variable {schema : Schema} {document : Document}

/-- What the rule does from a memory on. -/
abbrev reportsFrom (memory : Memory) (turns : List Turn) : List Finding :=
  @Watch.reports _ Rule.overlappingFieldsCanBeMerged (memory, .watching) turns

theorem reports_other {turn : Turn} (other : stop? turn = none) (memory : Memory)
    (rest : List Turn) : reportsFrom memory (turn :: rest) = reportsFrom memory rest := by
  obtain ⟨leaving, schema, document, scope, node, ancestors⟩ := turn
  cases leaving with
  | true => rfl
  | false => cases node <;> first | rfl | cases other

/-- What the rule reports where its search has this outcome. -/
def Reported (outcome : Option (List Conflict × Compared)) (reports : List Finding) : Prop :=
  match outcome with
  | some (found, _) => reports = found.map finding
  | none => .endless ∈ reports

theorem enter_set (schema : Schema) (document : Document) (scope : Scope) (ancestors : List Node) (set : SelectionSet) (memory : Memory) :
    Rule.overlappingFieldsCanBeMerged.enter
        ⟨schema, document, scope, .selectionSet set, ancestors⟩ memory =
      match conflicts schema document (depth document) (owner? memory ancestors) scope.parent set
          memory.compared with
      | some (found, compared) => (.report (found.map finding), { memory with compared })
      | none => (⟨[.endless], .stop⟩, memory) := rfl

theorem reported_set (schema : Schema) (document : Document) (scope : Scope) (ancestors : List Node) (set : SelectionSet)
    (memory : Memory) (rest : List Turn) (sets : List Visited)
    (later : ∀ compared, Reported (searchThrough schema document (depth document) sets compared)
      (reportsFrom { memory with compared } rest)) :
    Reported (searchThrough schema document (depth document)
        (⟨owner? memory ancestors, scope.parent, set⟩ :: sets) memory.compared)
      (reportsFrom memory ((false, ⟨schema, document, scope, .selectionSet set, ancestors⟩) ::
        rest)) := by
  have step : searchThrough schema document (depth document)
      (⟨owner? memory ancestors, scope.parent, set⟩ :: sets) memory.compared =
        (conflicts schema document (depth document) (owner? memory ancestors) scope.parent set
          memory.compared).bind fun first =>
            (searchThrough schema document (depth document) sets first.2).bind fun others =>
              some (first.1 ++ others.1, others.2) := rfl
  cases first : conflicts schema document (depth document) (owner? memory ancestors) scope.parent
      set memory.compared with
  | none =>
    have entered := enter_set schema document scope ancestors set memory
    rw [first] at entered
    rw [step, first, reportsFrom, Watch.reports, Watch.turn]
    simp [Reported, Watch.enter, entered]
  | some answer =>
    obtain ⟨found, compared⟩ := answer
    have entered := enter_set schema document scope ancestors set memory
    rw [first] at entered
    have reported := later compared
    have split : reportsFrom memory
        ((false, ⟨schema, document, scope, .selectionSet set, ancestors⟩) :: rest) =
          found.map finding ++ reportsFrom { memory with compared } rest := by
      rw [reportsFrom, Watch.reports, Watch.turn]
      simp [Watch.enter, entered, Verdict.report]
    rw [step, first, split, Option.bind_some]
    cases others : searchThrough schema document (depth document) sets compared with
    | none =>
      rw [others] at reported
      exact List.mem_append_right _ reported
    | some answer =>
      rw [others] at reported
      simp only [Reported] at reported
      simp [Reported, reported]

theorem reported_turns (turns : List Turn)
    (here : ∀ turn ∈ turns, turn.2.schema = schema ∧ turn.2.document = document)
    (memory : Memory) :
    Reported (searchThrough schema document (depth document)
      (visitedAfter memory.entered (turns.filterMap stop?)) memory.compared)
      (reportsFrom memory turns) := by
  induction turns generalizing memory with
  | nil => rfl
  | cons turn rest ih =>
    have later := ih fun turn member => here turn (List.mem_cons_of_mem _ member)
    obtain ⟨leaving, site⟩ := turn
    obtain ⟨schema', document', scope, node, ancestors⟩ := site
    obtain ⟨sameSchema, sameDocument⟩ := here _ List.mem_cons_self
    dsimp only at sameSchema sameDocument
    subst sameSchema sameDocument
    cases met : stop? (leaving, ⟨schema', document', scope, node, ancestors⟩) with
    | none =>
      rw [List.filterMap_cons_none met, reports_other met]
      exact later memory
    | some stop =>
      cases leaving with
      | true => cases met
      | false =>
        cases node with
        | fragment fragment =>
          cases met
          exact later { memory with entered := fragment.name.text :: memory.entered }
        | selectionSet set =>
          cases met
          have reported := reported_set schema' document' scope ancestors set memory rest
            (visitedAfter memory.entered (rest.filterMap stop?)) fun compared =>
              later { memory with compared }
          rw [owner_eq] at reported
          exact reported
        | _ => cases met

theorem turns_here (scope : Scope) (calls : List Call) :
    ∀ turn ∈ turns schema document scope calls,
      turn.2.schema = schema ∧ turn.2.document = document := by
  induction calls generalizing scope with
  | nil => simp [turns]
  | cons call calls ih =>
    obtain ⟨leaving, node, ancestors⟩ := call
    cases leaving <;> simpa [turns] using fun leaving site => ih _ (leaving, site)

/-- The rule searches through the selection sets of the document. -/
theorem reported_document (schema : Schema) (document : Document) :
    Reported (searchThrough schema document (depth document) (visited schema document) [])
      (Rule.overlappingFieldsCanBeMerged.reports (documentTurns schema document)) := by
  have reported := reported_turns (documentTurns schema document) (turns_here {} _) {}
  rwa [documentTurns_stops] at reported

end Reports
end GraphQL.Validation.Overlap

/-! The search for conflicts as comparisons that make further comparisons. Which ones a
comparison makes depends on the document alone; only whether two fragments are compared at all
depends on what has been compared before. -/
namespace GraphQL.Validation.Overlap
open Ast (SelectionSet FragmentDefinition Document)

/-- A comparison of two fields under a key, or of two fragments. -/
inductive Comparison where
  | fields (exclusive : Bool) (key : String) (a b : Selected)
  | fragments (exclusive : Bool) (a b : String)

/-- The fields of two sets that stand under the same keys. -/
def facing (exclusive : Bool) (first second : Groups Selected) : List Comparison :=
  first.flatMap fun (key, fields) =>
    fields.flatMap fun a => (second.get key).map fun b => .fields exclusive key a b

/-- The fields of a set and those of each of some fragments. -/
def facingAll (schema : Schema) (exclusive : Bool) (fields : Groups Selected)
    (fragments : List FragmentDefinition) : List Comparison :=
  fragments.flatMap fun fragment =>
    facing exclusive fields (Expansion.ofFragment schema fragment).fields

/-- The pairs of a list, the earlier item first. -/
def pairings (exclusive : Bool) (key : String) : List Selected → List Comparison
  | [] => []
  | a :: rest => rest.map (.fields exclusive key a) ++ pairings exclusive key rest

/-- The fields of one set under the same keys. -/
def facingItself (fields : Groups Selected) : List Comparison :=
  fields.flatMap fun (key, fields) => pairings false key fields

section Parts
variable (schema : Schema) (document : Document)

/-- The comparisons of two selection sets. -/
def setParts (exclusive : Bool) (first second : Expansion) : List Comparison :=
  facing exclusive first.fields second.fields ++
    facingAll schema exclusive first.fields (beside document.fragments second.spreads) ++
    facingAll schema exclusive second.fields (beside document.fragments first.spreads) ++
    first.spreads.flatMap fun name => second.spreads.map fun other => .fragments exclusive name other

/-- The comparisons of two fragments. -/
def fragmentParts (exclusive : Bool) (a b : String) (f g : FragmentDefinition) : List Comparison :=
  let first := Expansion.ofFragment schema f
  let second := Expansion.ofFragment schema g
  facing exclusive first.fields second.fields ++
    (second.spreads.map fun name => .fragments exclusive a name) ++
    first.spreads.map fun name => .fragments exclusive name b

namespace Comparison

/-- The comparisons that a comparison makes. -/
def parts : Comparison → List Comparison
  | fields exclusive _ a b =>
      let exclusive := exclusive || differentObjects a.parent b.parent
      match ownReason? schema exclusive a b, a.node.selectionSet, b.node.selectionSet with
      | none, some s, some t =>
          setParts schema document exclusive (Expansion.ofSet schema (a.type.bind schema.named?) s)
            (Expansion.ofSet schema (b.type.bind schema.named?) t)
      | _, _, _ => []
  | fragments exclusive a b =>
      match document.fragment? a, document.fragment? b with
      | some f, some g => fragmentParts schema exclusive a b f g
      | _, _ => []

/-- What a comparison answers, given what its parts have found. -/
def answer : Comparison → List Conflict → List Conflict
  | fields exclusive key a b, found =>
      let exclusive := exclusive || differentObjects a.parent b.parent
      match ownReason? schema exclusive a b with
      | some reason => [⟨key, reason, [a.node], [b.node]⟩]
      | none => ofSubfields key a.node b.node found
  | fragments _ _ _, found => found

/-- Whether a comparison is left out. -/
def skips (compared : Compared) : Comparison → Bool
  | fields _ _ _ _ => false
  | fragments exclusive a b => a == b || compared.covers a b exclusive

/-- The memory that the parts of a comparison start from. -/
def noted (compared : Compared) : Comparison → Compared
  | fields _ _ _ _ => compared
  | fragments exclusive a b => compared.add a b exclusive

def run (fuel : Nat) : Comparison → Search (List Conflict)
  | fields exclusive key a b => conflict schema document fuel exclusive key a b
  | fragments exclusive a b => Overlap.fragments schema document fuel exclusive a b

end Comparison

/-- The comparisons of fragments beside the fields of a set, with the fields and with each other. -/
def besideStarts (unmet : List FragmentDefinition) (fields : Groups Selected) :
    List String → List Comparison
  | [] => []
  | name :: rest =>
      facingAll schema false fields (beside unmet [name]) ++
        rest.map (.fragments false name) ++ besideStarts unmet fields rest

/-- The comparisons that a selection set starts. -/
def Visited.starts (visited : Visited) : List Comparison :=
  let expansion := Expansion.ofSet schema visited.parent visited.set
  let unmet := document.fragments.filter fun fragment => visited.owner != some fragment.name.text
  facingItself expansion.fields ++ besideStarts schema unmet expansion.fields expansion.spreads

end Parts

section ForEach
variable {α β : Type}

theorem forEach_append (first second : List α) (search : α → Search (List β)) :
    forEach (first ++ second) search = (do
      let found ← forEach first search
      let others ← forEach second search
      return found ++ others) := by
  induction first with
  | nil => simp [forEach]
  | cons item rest ih =>
    simp only [List.cons_append, forEach, ih, bind_assoc, pure_bind, List.append_assoc]

theorem forEach_flatMap {γ : Type} (items : List γ) (f : γ → List α)
    (search : α → Search (List β)) :
    forEach (items.flatMap f) search = forEach items fun item => forEach (f item) search := by
  induction items with
  | nil => rfl
  | cons item rest ih => rw [List.flatMap_cons, forEach_append, ih, forEach]

theorem forEach_map {γ : Type} (items : List γ) (f : γ → α) (search : α → Search (List β)) :
    forEach (items.map f) search = forEach items fun item => search (f item) := by
  induction items with
  | nil => rfl
  | cons item rest ih => rw [List.map_cons, forEach, forEach, ih]

end ForEach

section Run
variable {schema : Schema} {document : Document}

/-- The comparisons one after the other. -/
abbrev runAll (schema : Schema) (document : Document) (fuel : Nat) (comparisons : List Comparison) :
    Search (List Conflict) := forEach comparisons (Comparison.run schema document fuel)

theorem between_run (fuel : Nat) (exclusive : Bool) (first second : Groups Selected) :
    between (conflict schema document fuel exclusive) first second =
      runAll schema document fuel (facing exclusive first second) := by
  simp only [between, runAll, facing, forEach_flatMap, forEach_map, Comparison.run]

theorem withFragments_run (fuel : Nat) (exclusive : Bool) (fields : Groups Selected)
    (fragments : List FragmentDefinition) :
    withFragments schema (conflict schema document fuel exclusive) fields fragments =
      runAll schema document fuel (facingAll schema exclusive fields fragments) := by
  simp only [withFragments, between_run, runAll, facingAll, forEach_flatMap]

theorem pairs_run (fuel : Nat) (key : String) (fields : List Selected) :
    pairs (conflict schema document fuel false key) fields =
      runAll schema document fuel (pairings false key fields) := by
  induction fields with
  | nil => rfl
  | cons a rest ih =>
    rw [pairs, ih, pairings]
    simp only [runAll, forEach_append, forEach_map, Comparison.run]

theorem within_run (fuel : Nat) (fields : Groups Selected) :
    within (conflict schema document fuel false) fields =
      runAll schema document fuel (facingItself fields) := by
  simp only [within, pairs_run, runAll, facingItself, forEach_flatMap]

theorem besideConflicts_run (fuel : Nat) (unmet : List FragmentDefinition)
    (fields : Groups Selected) (names : List String) :
    besideConflicts schema document fuel unmet fields names =
      runAll schema document fuel (besideStarts schema unmet fields names) := by
  induction names with
  | nil => rfl
  | cons name rest ih =>
    rw [besideConflicts, ih, withFragments_run, besideStarts]
    simp only [runAll, forEach_append, forEach_map, bind_assoc, pure_bind, Comparison.run]

/-- A selection set is searched by its comparisons. -/
theorem search_run (fuel : Nat) (visited : Visited) :
    visited.search schema document fuel = runAll schema document fuel (visited.starts schema document) := by
  rw [Visited.search, conflicts, within_run, besideConflicts_run, Visited.starts]
  simp only [runAll, forEach_append]

theorem searchThrough_run (fuel : Nat) (sets : List Visited) :
    searchThrough schema document fuel sets =
      runAll schema document fuel (sets.flatMap (Visited.starts schema document)) := by
  rw [runAll, forEach_flatMap, searchThrough]
  congr
  funext visited
  exact search_run fuel visited

theorem search_map {α β : Type} (f : α → β) (search : Search α) (compared : Compared) :
    (f <$> search) compared = (search compared).map fun outcome => (f outcome.1, outcome.2) := by
  change (search compared >>= fun outcome => pure (f outcome.1, outcome.2)) = _
  cases search compared <;> rfl

theorem setParts_run (fuel : Nat) (exclusive : Bool) (first second : Expansion) :
    (do
      let own ← between (conflict schema document fuel exclusive) first.fields second.fields
      let left ← withFragments schema (conflict schema document fuel exclusive) first.fields
        (beside document.fragments second.spreads)
      let right ← withFragments schema (conflict schema document fuel exclusive) second.fields
        (beside document.fragments first.spreads)
      let both ← forEach first.spreads fun name =>
        forEach second.spreads fun other => fragments schema document fuel exclusive name other
      return own ++ left ++ right ++ both) =
      runAll schema document fuel (setParts schema document exclusive first second) := by
  simp only [between_run, withFragments_run, setParts, runAll, forEach_append, forEach_flatMap,
    forEach_map, bind_assoc, pure_bind, Comparison.run]

theorem fields_run (fuel : Nat) (exclusive : Bool) (key : String) (a b : Selected)
    (compared : Compared) :
    conflict schema document (fuel + 1) exclusive key a b compared =
      (runAll schema document fuel ((Comparison.fields exclusive key a b).parts schema document)
        compared).map fun outcome =>
          ((Comparison.fields exclusive key a b).answer schema outcome.1, outcome.2) := by
  rw [conflict, Comparison.parts]
  dsimp only
  cases reason : ownReason? schema (exclusive || differentObjects a.parent b.parent) a b with
  | some found => simp [Comparison.answer, reason]; rfl
  | none =>
    cases first : a.node.selectionSet with
    | none => simp [Comparison.answer, reason, ofSubfields]; rfl
    | some s =>
      cases second : b.node.selectionSet with
      | none => simp [Comparison.answer, reason, ofSubfields]; rfl
      | some t =>
        simp only [Comparison.answer, reason]
        rw [← search_map, ← setParts_run]
        simp only [map_bind, map_pure]

theorem fragments_run (fuel : Nat) (exclusive : Bool) (a b : String) (compared : Compared) :
    fragments schema document (fuel + 1) exclusive a b compared =
      if (Comparison.fragments exclusive a b).skips compared then some ([], compared)
      else (runAll schema document fuel ((Comparison.fragments exclusive a b).parts schema document)
        (compared.add a b exclusive)).map fun outcome =>
          ((Comparison.fragments exclusive a b).answer schema outcome.1, outcome.2) := by
  have step : fragments schema document (fuel + 1) exclusive a b compared =
      (if (a = b || compared.covers a b exclusive) = true then return []
        else do
          modify fun compared => compared.add a b exclusive
          match document.fragment? a, document.fragment? b with
          | some f, some g => runAll schema document fuel (fragmentParts schema exclusive a b f g)
          | _, _ => return [] : Search (List Conflict)) compared := by
    rw [fragments, search_bind]
    simp only [runAll, fragmentParts, forEach_append, forEach_map, between_run, Comparison.run,
      bind_assoc, pure_bind]
    rfl
  have skips : (Comparison.fragments exclusive a b).skips compared =
      (a = b || compared.covers a b exclusive) := by
    simp [Comparison.skips, beq_eq_decide]
  rw [step, skips]
  split
  · rfl
  · have identity : (fun outcome : List Conflict × Compared =>
        ((Comparison.fragments exclusive a b).answer schema outcome.1, outcome.2)) = id := rfl
    rw [identity, Option.map_id, Comparison.parts]
    cases document.fragment? a with
    | none => rfl
    | some f =>
      cases document.fragment? b with
      | none => rfl
      | some g => rfl

/-- A comparison is left out, or makes its parts in the memory that it has noted itself in. -/
theorem run_succ (fuel : Nat) (comparison : Comparison) (compared : Compared) :
    comparison.run schema document (fuel + 1) compared =
      if comparison.skips compared then some ([], compared)
      else (runAll schema document fuel (comparison.parts schema document)
          (comparison.noted compared)).map fun outcome =>
        (comparison.answer schema outcome.1, outcome.2) := by
  cases comparison with
  | fields exclusive key a b => exact fields_run fuel exclusive key a b compared
  | fragments exclusive a b => exact fragments_run fuel exclusive a b compared

end Run
end GraphQL.Validation.Overlap
