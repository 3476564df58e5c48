import GraphQL.Parser.TypeSystem
import GraphQL.Proofs.Overlap.Termination
import GraphQL.Proofs.Validation.Problems
import GraphQL.Proofs.Overlap.Rearrangement

/-! When validation returns. All rules come to an end, but the one about merging only where no
two fields come to be compared again through comparing them. Fragments that spread themselves
below a field can bring that about. -/
namespace GraphQL
open Validation Validation.Overlap

section Returning
variable {schema : Schema}

theorem validate_isSome_iff (built : schema.Built) (document : Ast.Document) :
    (schema.validate document).isSome = true ↔ ¬ Circles schema document := by
  rw [validate_isSome, ← search_ends_iff built]
  have reported := reported_document schema document
  cases outcome : searchThrough schema document (depth document) (visited schema document) [] with
  | none =>
    rw [outcome] at reported
    refine ⟨fun none => absurd reported none, ?_⟩
    rintro ⟨_, _, same⟩
    cases same
  | some answer =>
    rw [outcome] at reported
    refine ⟨fun _ => ⟨answer.1, answer.2, rfl⟩, fun _ => ?_⟩
    rw [show Rule.reports _ _ = _ from reported]
    simp [finding]

/-- A search that circles has no end, however deep it may go. -/
theorem Circles.endless {document : Ast.Document} (circles : Circles schema document)
    (fuel : Nat) : searchThrough schema document fuel (visited schema document) [] = none := by
  obtain ⟨made, makes, circular⟩ := circles
  rw [searchThrough_run]
  cases run : runAll schema document fuel (documentStarts schema document) [] with
  | none => exact run
  | some answer => exact absurd circular ((ends_of_runAll fuel _ run).not_circular makes)

/-- A circular comparison is come to wherever a set starts it. -/
theorem circles_of_mem (built : schema.Built) {document : Ast.Document} {made : Comparison}
    (starts : made ∈ documentStarts schema document) (fields : made.isFields = true)
    (circular : Circular schema document made) : Circles schema document := by
  by_contra straight
  obtain ⟨found, last, run⟩ := (search_ends_iff built).2 straight
  rw [searchThrough_run] at run
  exact straight ⟨made, (ends_of_runAll _ _ run).makes starts fields, circular⟩

/-- Validation returns exactly if its search for conflicts does not circle. If it does circle,
no depth would be enough. -/
theorem validate_returns_iff (built : schema.Built) (document : Ast.Document) :
    ((∃ problems, schema.validate document = some problems) ↔ ¬ Circles schema document) ∧
      (Circles schema document →
        ∀ fuel, searchThrough schema document fuel (visited schema document) [] = none) := by
  rw [← Option.isSome_iff_exists]
  exact ⟨validate_isSome_iff built document, Circles.endless⟩

end Returning

section Loop

/-- An object type with a field of the same type. -/
def loopType : ObjectType :=
  { name := "T", fields := ⟨[{ name := "a", type := .named "T" }], []⟩ }

def loopBuilder : SchemaBuilder := { query := some "T", types := [.object loopType] }

theorem loop_built : ∃ schema : Schema, schema.Built ∧ schema.query = loopType := by
  have accepted : loopBuilder.build.toOption.isSome = true := by decide +kernel
  cases built : loopBuilder.build with
  | error _ =>
    rw [built] at accepted
    cases accepted
  | ok schema =>
    obtain ⟨name, named, _, query, _⟩ := SchemaBuilder.build_ok built
    cases named
    have root : loopBuilder.root "T" = .ok loopType := by rfl
    rw [root] at query
    exact ⟨schema, ⟨loopBuilder, built⟩, (Except.ok.inj query).symm⟩

def loopSpread : Ast.Selection := .spread ⟨⟨"F", none⟩, [], none⟩

def loopInner : Ast.Field := ⟨none, ⟨"a", none⟩, [], [], some ⟨[loopSpread], none⟩, none⟩

def loopMiddle : Ast.SelectionSet := ⟨[.field loopInner, loopSpread], none⟩

def loopOuter : Ast.Field := ⟨none, ⟨"a", none⟩, [], [], some loopMiddle, none⟩

def loopFragment : Ast.FragmentDefinition :=
  ⟨⟨"F", none⟩, ⟨⟨"T", none⟩, none⟩, [], ⟨[.field loopOuter], none⟩, none⟩

/-- A fragment that spreads itself twice below a field, at different depths. -/
def loopDocument : Ast.Document := ⟨[.fragment loopFragment], none⟩

variable {schema : Schema}

theorem loop_type (built : schema.Built) (query : schema.query = loopType) :
    schema.type? "T" = some (.object loopType) := by
  have root := built.rootType .query rfl
  rwa [query] at root

theorem loop_field (schema : Schema) :
    schema.field? (.object loopType) "a" = some { name := "a", type := .named "T" } := by
  simp [Schema.field?, Schema.metaField?, TypeDef.field?, TypeDef.fields?, Definitions.find?,
    loopType, Named.name]

theorem loop_below (built : schema.Built) (query : schema.query = loopType) (node : Ast.Field)
    (same : node.name.text = "a") :
    (select schema (some (.object loopType)) node).below schema = some (.object loopType) := by
  have found : (select schema (some (.object loopType)) node).definition =
      some { name := "a", type := .named "T" } := by
    rw [select, Option.bind_some, same, loop_field]
  rw [Selected.below, Selected.type, found]
  exact loop_type built query

/-- The comparison of the inner field with the outer one. -/
def loopComparison (schema : Schema) : Comparison :=
  .fields false "a" (select schema (some (.object loopType)) loopInner)
    (select schema (some (.object loopType)) loopOuter)

theorem loop_circular (built : schema.Built) (query : schema.query = loopType) :
    Circular schema loopDocument (loopComparison schema) := by
  have inner := loop_below built query loopInner rfl
  have outer := loop_below built query loopOuter rfl
  refine .single ⟨rfl, rfl, mem_fields_parts.2 ⟨?_, ⟨[loopSpread], none⟩, loopMiddle, rfl, rfl, ?_⟩⟩
  · have same : typesConflict schema (.named "T") (.named "T") = false := by
      simp [typesConflict]
    have type (node : Ast.Field) (named : node.name.text = "a") :
        (select schema (some (.object loopType)) node).type = some (.named "T") := by
      rw [Selected.type, select, Option.bind_some, named, loop_field]
      rfl
    rw [ownReason?, type loopInner rfl, type loopOuter rfl]
    simp [same, select, loopInner, loopOuter, sameArguments]
  · refine (mem_setParts _ _ _ _).2 (.inr (.inr (.inl ⟨loopFragment, ?_, ?_⟩)))
    · exact .spread List.mem_cons_self rfl
    · refine ⟨select schema (some (.object loopType)) loopInner, ?_,
        select schema (some (.object loopType)) loopOuter, ?_, rfl, rfl⟩
      · rw [outer]
        exact List.mem_cons_self
      · rw [fragmentFields, loopFragment, loop_type built query]
        exact List.mem_cons_self

theorem loop_starts (built : schema.Built) (query : schema.query = loopType) :
    loopComparison schema ∈ documentStarts schema loopDocument := by
  have type := loop_type built query
  have condition : Scope.conditionType schema ⟨⟨"T", none⟩, none⟩ = some (.named "T") := by
    rw [Scope.conditionType, type]
    rfl
  have parent : selectable schema (some (.named "T")) = some (.object loopType) := by
    rw [selectable, Option.bind_some, Schema.named?, TypeRef.innermost, type]
    rfl
  have visited : (⟨none, some (.object loopType), loopMiddle⟩ : Visited) ∈
      visited schema loopDocument := by
    simp [visited, visitedAfter, documentStops, loopDocument, definitionStops, loopFragment,
      setStops, selectionsStops, selectionStops, loopOuter, loopMiddle, loopInner, loopSpread,
      condition, parent, loop_field]
  refine List.mem_flatMap.2 ⟨_, visited, (mem_starts _).2 (.inr (.inl ⟨loopFragment, ?_, ?_⟩))⟩
  · exact .spread List.mem_cons_self rfl
  · refine ⟨select schema (some (.object loopType)) loopInner, List.mem_cons_self,
      select schema (some (.object loopType)) loopOuter, ?_, rfl, rfl⟩
    rw [fragmentFields, loopFragment, type]
    exact List.mem_cons_self

theorem loop_circles (built : schema.Built) (query : schema.query = loopType) :
    Circles schema loopDocument :=
  circles_of_mem built (loop_starts built query) rfl (loop_circular built query)

/-- No depth is enough for this document. -/
theorem validate_returns_iff_loop : ∃ schema : Schema, schema.Built ∧
    ¬ (∃ problems, schema.validate loopDocument = some problems) ∧
    ∀ fuel, searchThrough schema loopDocument fuel (visited schema loopDocument) [] = none := by
  obtain ⟨schema, built, query⟩ := loop_built
  obtain ⟨returns, endless⟩ := validate_returns_iff built loopDocument
  have circles := loop_circles built query
  exact ⟨schema, built, fun ends => returns.1 ends circles, endless circles⟩

theorem ok_of_toOption {ε α : Type} {result : Except ε α} {value : α}
    (same : result.toOption = some value) : result = .ok value := by
  cases result with
  | error _ => cases same
  | ok _ => exact congrArg Except.ok (Option.some.inj same)

/-- Validation does not return for every document: here it compares two fields forever. -/
theorem validate_endless : ∃ (schema : Schema) (document : Ast.Document), schema.Built ∧
    Source.parseDocument ⟨"fragment F on T \x7b a \x7b a \x7b ...F \x7d ...F \x7d \x7d", "GraphQL"⟩
      false = .ok document ∧ schema.validate document = none := by
  obtain ⟨schema, built, query⟩ := loop_built
  refine ⟨schema, loopDocument, built, ok_of_toOption (by decide +kernel), ?_⟩
  have none := mt (validate_isSome_iff built loopDocument).1 (not_not.2 (loop_circles built query))
  simpa using none

end Loop
end GraphQL

/-! What the rule about merging reports, by itself: something where fields conflict plainly, and
nothing elsewhere. Of several fragments of one name it knows the first one only, so that the order
of those matters, and no other. -/
namespace GraphQL
open Validation Validation.Overlap

section Merging
variable {schema : Schema} {document : Ast.Document}

/-- The rule by itself ends, reports exactly the plain conflicts, and its answer does not depend
on the order of selections and definitions. -/
theorem validateWith_merging (built : schema.Built) (arguments : DistinctArguments document)
    (acyclic : Acyclic document) :
    ∃ problems, schema.validateWith [Rule.overlappingFieldsCanBeMerged] document = some problems ∧
      (problems ≠ [] ↔ PlainlyConflicts schema document) ∧
      ∀ other : Ast.Document, Rearranged document.definitions other.definitions →
        ∃ others, schema.validateWith [Rule.overlappingFieldsCanBeMerged] other = some others ∧
          (others ≠ [] ↔ problems ≠ []) := by
  obtain ⟨problems, same, exact_⟩ := merging_exact built arguments acyclic
  refine ⟨problems, same, exact_, fun other rearranged => ?_⟩
  obtain ⟨others, answer, verdict⟩ :=
    merging_exact built (rearranged.distinct arguments) (rearranged.acyclic acyclic)
  refine ⟨others, answer, ?_⟩
  rw [verdict, exact_]
  exact ⟨rearranged.symm.conflicts, rearranged.conflicts⟩

end Merging

section Clash
variable {schema : Schema} {document : Ast.Document}

/-- A field without arguments or selections under the key `x`. -/
def clashField (name : String) : Ast.Field := ⟨some ⟨"x", none⟩, ⟨name, none⟩, [], [], none, none⟩

def clashFragment (name : String) : Ast.FragmentDefinition :=
  ⟨⟨"F", none⟩, ⟨⟨"T", none⟩, none⟩, [], ⟨[.field (clashField name)], none⟩, none⟩

/-- A query for the field `a` beside the fields of the fragment. -/
def clashQuery : Ast.OperationDefinition :=
  ⟨.query, none, [], [], ⟨[.field (clashField "a"), .spread ⟨⟨"F", none⟩, [], none⟩], none⟩, none⟩

/-- Fragments of one name with different fields, and the query. -/
def clashDocument (names : List String) : Ast.Document :=
  ⟨names.map (fun name => .fragment (clashFragment name)) ++ [.operation clashQuery], none⟩

theorem acyclic_of_flat (flat : ∀ fragment ∈ document.fragments, fragment.selectionSet.spreads = []) :
    Acyclic document := by
  intro name cycle
  obtain ⟨next, ⟨fragment, found, member⟩, _⟩ := Relation.TransGen.head'_iff.1 cycle
  rw [flat fragment (mem_of_named? found)] at member
  cases member

theorem clash_fragments (names : List String) :
    (clashDocument names).fragments = names.map clashFragment := by
  simp [clashDocument, Ast.Document.fragments, List.filterMap_append, List.filterMap_map,
    Function.comp_def, Ast.Definition.fragment?]

theorem clash_acyclic (names : List String) : Acyclic (clashDocument names) := by
  apply acyclic_of_flat
  rw [clash_fragments]
  intro fragment member
  obtain ⟨name, _, rfl⟩ := List.mem_map.1 member
  rfl

theorem clash_distinct (names : List String) : DistinctArguments (clashDocument names) := by
  intro field member
  obtain ⟨definition, known, has⟩ := (Ast.Tree.field_mem_document _).1 member
  have bare : ∃ name, field = clashField name := by
    rcases List.mem_append.1 known with known | known
    · obtain ⟨name, _, rfl⟩ := List.mem_map.1 known
      have has := Ast.Selection.hasField_field.1 has
      exact ⟨name, has.resolve_right (or_self_iff.not.2 Ast.Selection.hasField_nil)⟩
    · cases List.mem_singleton.1 known
      have has := Ast.Selection.hasField_field.1 has
      refine ⟨"a", has.resolve_right (not_or.2 ⟨Ast.Selection.hasField_nil, ?_⟩)⟩
      rw [Ast.Selection.hasField_spread]
      exact Ast.Selection.hasField_nil
  obtain ⟨name, rfl⟩ := bare
  exact List.nodup_nil

theorem typesConflict_self (schema : Schema) (type : TypeRef) :
    typesConflict schema type type = false := by
  induction type with
  | named name => simp [typesConflict]
  | list item ih => rwa [typesConflict]
  | nonNull type ih => rwa [typesConflict]

theorem not_conflicting_self {exclusive : Bool} {a : Selected} (bare : a.node.selectionSet = none) :
    ¬ Conflicting schema document exclusive a a := by
  intro conflicting
  cases conflicting with
  | names _ differ => exact differ rfl
  | arguments _ differ => exact differ fun _ _ => Iff.rfl
  | types left right conflict =>
    rw [left] at right
    cases right
    rw [typesConflict_self] at conflict
    cases conflict
  | inside has => cases bare.symm.trans has

theorem clash_parent (built : schema.Built) (query : schema.query = loopType) :
    selectable schema (some (.named "T")) = some (.object loopType) := by
  rw [selectable, Option.bind_some, Schema.named?, TypeRef.innermost, loop_type built query]
  rfl

/-- Where the first fragment has another field than the query, they conflict. -/
theorem clash_conflicts (built : schema.Built) (query : schema.query = loopType) {name : String}
    (differ : "a" ≠ name) (rest : List String) :
    PlainlyConflicts schema (clashDocument (name :: rest)) := by
  have root : (schema.rootType? clashQuery.operation).map (fun root => TypeRef.named root.name) =
      some (.named "T") := by
    rw [clashQuery, Schema.rootType?, query]
    rfl
  have stop : .set none (some (.object loopType)) clashQuery.selectionSet ∈
      documentStops schema (clashDocument (name :: rest)) := by
    refine List.mem_flatMap.2 ⟨.operation clashQuery, by simp [clashDocument], ?_⟩
    rw [definitionStops, root, ← clash_parent built query]
    exact List.mem_cons_self
  have stands : Stands (clashDocument (name :: rest)).fragments
      (spreadsOf clashQuery.selectionSet) (clashFragment name) := by
    refine .spread List.mem_cons_self ?_
    rw [clash_fragments]
    rfl
  have field : select schema (some (.object loopType)) (clashField name) ∈
      fragmentFields schema (clashFragment name) := by
    rw [fragmentFields, clashFragment, loop_type built query]
    exact List.mem_cons_self
  have together : (false || differentObjects (some (.object loopType)) (some (.object loopType))) =
      false := by simp [differentObjects]
  exact ⟨none, _, _, stop, none, some "F", _, _,
    select schema (some (.object loopType)) (clashField "a"), _, .own, .spread stands,
    List.mem_cons_self, field, .inl (Option.some_ne_none "F").symm, rfl, .names together differ⟩

/-- Where it has the same one, they do not. -/
theorem clash_agrees (built : schema.Built) (query : schema.query = loopType) (rest : List String) :
    ¬ PlainlyConflicts schema (clashDocument ("a" :: rest)) := by
  rintro ⟨around, parent, set, stop, source, other, fields, others, x, y, first, second, left, right,
    _, _, conflicting⟩
  have uniform : ∃ name, ∀ source fields,
      Expands schema (clashDocument ("a" :: rest)) parent set source fields →
        ∀ x ∈ fields, x = select schema parent (clashField name) := by
    obtain ⟨definition, known, stop⟩ := List.mem_flatMap.1 stop
    rcases List.mem_append.1 known with known | known
    · obtain ⟨name, _, rfl⟩ := List.mem_map.1 known
      have stop := (List.mem_cons.1 stop).resolve_left nofun
      cases List.mem_singleton.1 stop
      refine ⟨name, fun source fields expands x member => ?_⟩
      cases expands with
      | own => exact List.mem_singleton.1 member
      | spread stands => exact absurd stands stands_nil
    · cases List.mem_singleton.1 known
      have root : (schema.rootType? clashQuery.operation).map
          (fun root => TypeRef.named root.name) = some (.named "T") := by
        rw [clashQuery, Schema.rootType?, query]
        rfl
      rw [definitionStops, root] at stop
      cases List.mem_singleton.1 stop
      refine ⟨"a", fun source fields expands x member => ?_⟩
      cases expands with
      | own => exact List.mem_singleton.1 member
      | spread stands =>
        obtain ⟨name, spread, behind⟩ := stands.one
        obtain ⟨outer, found, same⟩ := behind.first
        cases List.mem_singleton.1 spread
        rw [clash_fragments] at found
        cases found
        have same := same.resolve_right stands_nil
        subst same
        rw [fragmentFields, clashFragment, loop_type built query] at member
        rw [clash_parent built query]
        exact List.mem_singleton.1 member
  obtain ⟨name, all⟩ := uniform
  rw [all _ _ first x left, all _ _ second y right] at conflicting
  exact not_conflicting_self rfl conflicting

/-- The conflict is reported before the fragment and after it. -/
theorem validateWith_merging_clash : ∃ schema : Schema, schema.Built ∧
    DistinctArguments (clashDocument ["__typename"]) ∧ Acyclic (clashDocument ["__typename"]) ∧
    ∃ problems, schema.validateWith [Rule.overlappingFieldsCanBeMerged]
        (clashDocument ["__typename"]) = some problems ∧ problems ≠ [] ∧
      ∃ others, schema.validateWith [Rule.overlappingFieldsCanBeMerged]
          ⟨[.operation clashQuery, .fragment (clashFragment "__typename")], none⟩ = some others ∧
        others ≠ [] := by
  obtain ⟨schema, built, query⟩ := loop_built
  have distinct := clash_distinct ["__typename"]
  have acyclic := clash_acyclic ["__typename"]
  obtain ⟨problems, same, verdict, unordered⟩ := validateWith_merging built distinct acyclic
  have some_ := verdict.2 (clash_conflicts built query (by decide) [])
  obtain ⟨others, answer, also⟩ :=
    unordered ⟨[.operation clashQuery, .fragment (clashFragment "__typename")], none⟩
      (.swap [] fun _ _ _ found => nomatch found)
  exact ⟨schema, built, distinct, acyclic, problems, same, some_, others, answer, also.2 some_⟩

/-- The order of the definitions does matter where two fragments have one name: the first one
counts, and the other one may conflict. -/
theorem validateWith_merging_ordered : ∃ (schema : Schema) (first second : Ast.Document),
    schema.Built ∧
    Source.parseDocument ⟨"fragment F on T \x7b x: a \x7d " ++
      "fragment F on T \x7b x: __typename \x7d \x7b x: a ...F \x7d", "GraphQL"⟩ false = .ok first ∧
    Source.parseDocument ⟨"fragment F on T \x7b x: __typename \x7d " ++
      "fragment F on T \x7b x: a \x7d \x7b x: a ...F \x7d", "GraphQL"⟩ false = .ok second ∧
    first.definitions.Perm second.definitions ∧ DistinctArguments first ∧ Acyclic first ∧
    DistinctArguments second ∧ Acyclic second ∧
    schema.validateWith [Rule.overlappingFieldsCanBeMerged] first = some [] ∧
    ∃ problems, schema.validateWith [Rule.overlappingFieldsCanBeMerged] second = some problems ∧
      problems ≠ [] := by
  obtain ⟨schema, built, query⟩ := loop_built
  obtain ⟨problems, same, verdict⟩ := merging_exact built (clash_distinct ["a", "__typename"])
    (clash_acyclic ["a", "__typename"])
  obtain ⟨others, answer, also⟩ := merging_exact built (clash_distinct ["__typename", "a"])
    (clash_acyclic ["__typename", "a"])
  have nothing : problems = [] := by
    by_contra some_
    exact clash_agrees built query ["__typename"] (verdict.1 some_)
  rw [nothing] at same
  exact ⟨schema, clashDocument ["a", "__typename"], clashDocument ["__typename", "a"], built,
    ok_of_toOption (by decide +kernel), ok_of_toOption (by decide +kernel), .swap _ _ _,
    clash_distinct _, clash_acyclic _, clash_distinct _, clash_acyclic _, same, others, answer,
    also.2 (clash_conflicts built query (by decide) ["a"])⟩

end Clash
end GraphQL
