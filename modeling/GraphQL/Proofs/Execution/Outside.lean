import GraphQL.Proofs.Execution.Completions
import GraphQL.Proofs.Execution.Verdicts

/-! What is the same outside a path: values that differ in what the path leads to at most, and
verdicts on a position whose values do and whose errors from elsewhere are the same. -/
namespace GraphQL

/-- Two values differ at most in what a path leads to, and it leads to something in both of them
or in neither. -/
inductive Value.SameOutside : Path → Value → Value → Prop
  | same {path : Path} {value : Value} : SameOutside path value value
  | here {value other : Value} : SameOutside [] value other
  | key {name : String} {rest : Path} {before after : Entries Value} {value other : Value} :
      name ∉ before.keys → SameOutside rest value other →
      SameOutside (.key name :: rest) (.object (before ++ (name, value) :: after))
        (.object (before ++ (name, other) :: after))
  | index {rest : Path} {before after : List Value} {value other : Value} :
      SameOutside rest value other →
      SameOutside (.index before.length :: rest) (.list (before ++ value :: after))
        (.list (before ++ other :: after))

/-- The error arose neither at the end of a path nor below it. -/
def ResponseError.outside (path : Path) (error : ResponseError) : Bool :=
  !error.path.any fun other => path.isPrefixOf other

section Values
variable {value other inner : Value} {path rest : Path}

/-- The path leads to something in both values or in neither. -/
theorem Value.SameOutside.at?_isSome (same : value.SameOutside path other) :
    (value.at? path).isSome = (other.at? path).isSome := by
  induction same with
  | same => rfl
  | here => rfl
  | @key name rest before after value other fresh _ ih =>
    have found (inner : Value) :
        (Value.object (before ++ (name, inner) :: after)).get? name = some inner := by
      have absent : before.find? (fun entry => entry.1 == name) = none :=
        Option.map_eq_none_iff.1 (Entries.get?_of_not_mem fresh)
      rw [Value.get?, Value.object?, Option.bind_some, Entries.get?, List.find?_append, absent]
      simp
    rw [Value.at?, Value.at?, found, found]
    exact ih
  | @index rest before after value other _ ih =>
    have found (inner : Value) : (before ++ inner :: after)[before.length]? = some inner := by simp
    rw [Value.at?, Value.at?, Value.list?, Value.list?, Option.bind_some, Option.bind_some, found,
      found]
    exact ih

theorem Value.SameOutside.isNull (same : value.SameOutside rest other) (below : rest ≠ []) :
    value.isNull = other.isNull := by
  cases same with
  | same => rfl
  | here => exact absurd rfl below
  | key => rfl
  | index => rfl

theorem Value.SameOutside.cons {key : String} {entries others : Entries Value}
    (apart : ∀ rest, path ≠ .key key :: rest)
    (same : (Value.object entries).SameOutside path (.object others)) :
    (Value.object ((key, inner) :: entries)).SameOutside path (.object ((key, inner) :: others)) := by
  cases same with
  | same => exact .same
  | here => exact .here
  | @key name rest before _ _ _ fresh same =>
    have fresh : name ∉ Entries.keys ((key, inner) :: before) := fun member =>
      (List.mem_cons.1 member).elim (fun same => apart rest (same ▸ rfl)) fresh
    exact .key fresh same

theorem outside_of_below {error : ResponseError} (below : error.path = some (path ++ rest)) :
    error.outside path = false := by
  rw [ResponseError.outside, below, Option.any_some, List.isPrefixOf_iff_prefix.2 ⟨rest, rfl⟩]
  rfl

end Values

namespace Execution

/-- Two outcomes are the same error, or values that differ at the end of a path at most. -/
inductive Matches (rest : Path) : Outcome → Outcome → Prop
  | error {error : ResponseError} : Matches rest (.error error) (.error error)
  | ok {value other : Value} : value.SameOutside rest other → Matches rest (.ok value) (.ok other)

namespace Verdict

/-- Two verdicts on a position are the same outside a path, which goes on from the position with
its rest. -/
structure SameOutside (path rest : Path) (first second : Verdict) : Prop where
  outcome : Matches rest first.outcome second.outcome
  errors : first.errors.filter (ResponseError.outside path) =
    second.errors.filter (ResponseError.outside path)

/-- The errors of a verdict, and the one that it may end with, are from a position and below. -/
structure Confined (path : Path) (verdict : Verdict) : Prop where
  errors : ∀ error ∈ verdict.errors, ∃ rest, error.path = some (path ++ rest)
  outcome : ∀ error, verdict.outcome = .error error → ∃ rest, error.path = some (path ++ rest)

section Relations
variable {path rest : Path} {first second verdict : Verdict} {shape : Shape} {type : TypeRef}

theorem SameOutside.refl (verdict : Verdict) : verdict.SameOutside path rest verdict := by
  refine ⟨?_, rfl⟩
  cases verdict.outcome with
  | error => exact .error
  | ok => exact .ok .same

theorem SameOutside.guardAt (same : first.SameOutside path rest second) (type : TypeRef) :
    (first.guardAt type).SameOutside path rest (second.guardAt type) := by
  rw [Verdict.guardAt, Verdict.guardAt]
  split
  · exact same
  · obtain ⟨outcome, errors⟩ := first
    obtain ⟨other, more⟩ := second
    obtain ⟨matching, same⟩ := same
    cases matching with
    | ok values => exact ⟨.ok values, same⟩
    | @error error =>
      refine ⟨.ok .same, ?_⟩
      change (errors ++ [error]).filter _ = (more ++ [error]).filter _
      rw [List.filter_append, List.filter_append]
      exact congrArg (· ++ _) same

theorem SameOutside.require (same : first.SameOutside path rest second) (below : rest ≠ [])
    (site : Site) (position : Path) :
    (first.require site position).SameOutside path rest (second.require site position) := by
  obtain ⟨outcome, errors⟩ := first
  obtain ⟨other, more⟩ := second
  obtain ⟨matching, same⟩ := same
  refine ⟨?_, same⟩
  cases matching with
  | error => exact .error
  | ok values =>
    rw [Verdict.require, Verdict.require, Completion.refuseNull, Completion.refuseNull,
      values.isNull below]
    split
    · exact .error
    · exact .ok values

theorem Confined.null (path : Path) : Verdict.null.Confined path :=
  ⟨fun _ member => absurd member List.not_mem_nil, fun _ fails => by cases fails⟩

theorem Confined.failed (site : Site) (path : Path) (message : String) :
    (Verdict.failed site path message).Confined path := by
  refine ⟨fun _ member => absurd member List.not_mem_nil, fun error fails => ⟨[], ?_⟩⟩
  cases fails
  rw [List.append_nil]
  rfl

theorem Confined.require (confined : verdict.Confined path) (site : Site) :
    (verdict.require site path).Confined path := by
  refine ⟨confined.errors, fun error fails => ?_⟩
  rw [Verdict.require] at fails
  cases outcome : verdict.outcome with
  | error other =>
    rw [outcome] at fails
    cases fails
    exact confined.outcome _ outcome
  | ok value =>
    rw [outcome, Completion.refuseNull] at fails
    split at fails
    · cases fails
      exact ⟨[], by rw [List.append_nil]; rfl⟩
    · cases fails

theorem Confined.guard (confined : verdict.Confined path) : verdict.guard.Confined path := by
  obtain ⟨outcome, errors⟩ := verdict
  cases outcome with
  | ok => exact confined
  | error error =>
    refine ⟨fun other member => ?_, fun _ fails => by cases fails⟩
    rcases List.mem_append.1 member with member | only
    · exact confined.errors other member
    · rw [List.mem_singleton.1 only]
      exact confined.outcome error rfl

theorem Confined.guardAt (confined : verdict.Confined path) (type : TypeRef) :
    (verdict.guardAt type).Confined path := by
  rw [Verdict.guardAt]
  split
  · exact confined
  · exact confined.guard

/-- Where a null may stand, all errors are recorded from the position and below. -/
theorem Confined.sameOutside (here : first.Confined path) (there : second.Confined path)
    (nullable : type.isNonNull = false) :
    (first.guardAt type).SameOutside path [] (second.guardAt type) := by
  have nothing {verdict : Verdict} (confined : verdict.Confined path) :
      verdict.guard.errors.filter (ResponseError.outside path) = [] := by
    refine List.filter_eq_nil_iff.2 fun error member outside => ?_
    obtain ⟨rest, same⟩ := confined.guard.errors error member
    rw [outside_of_below same] at outside
    cases outside
  rw [Verdict.guardAt, Verdict.guardAt, nullable]
  refine ⟨?_, (nothing here).trans (nothing there).symm⟩
  obtain ⟨outcome, _⟩ := first
  obtain ⟨other, _⟩ := second
  cases outcome <;> cases other <;> exact .ok .here

/-- Where values are put together that differ in one of them at most, so do the wholes. -/
theorem assemble_sameOutside {segments : List PathSegment} (addresses : shape.Addresses segments)
    {segment : PathSegment} {front back : List Value} {value other : Value}
    (here : segments[front.length]? = some segment) (same : value.SameOutside rest other) :
    (shape.assemble (front ++ value :: back)).SameOutside (segment :: rest)
      (shape.assemble (front ++ other :: back)) := by
  cases addresses with
  | list count =>
    rw [List.getElem?_map, Option.map_eq_some_iff] at here
    obtain ⟨index, known, rfl⟩ := here
    obtain ⟨_, rfl⟩ := List.getElem?_eq_some_iff.1 known
    rw [List.getElem_range]
    exact .index same
  | @object keys distinct =>
    rw [List.getElem?_map, Option.map_eq_some_iff] at here
    obtain ⟨key, known, rfl⟩ := here
    obtain ⟨inside, rfl⟩ := List.getElem?_eq_some_iff.1 known
    have long : (keys.take front.length).length = front.length := by
      rw [List.length_take]
      omega
    have split (inner : Value) : keys.zip (front ++ inner :: back) =
        (keys.take front.length).zip front ++
          (keys[front.length], inner) :: (keys.drop (front.length + 1)).zip back := by
      conv => lhs; rw [← List.take_append_drop front.length keys, List.drop_eq_getElem_cons inside,
        List.zip_append long]
      rfl
    have fresh : keys[front.length] ∉ Entries.keys ((keys.take front.length).zip front) := by
      rw [Entries.keys, List.map_fst_zip (by omega)]
      intro member
      have distinct := (List.take_append_drop front.length keys).symm ▸ distinct
      rw [List.drop_eq_getElem_cons inside] at distinct
      exact List.disjoint_of_nodup_append distinct member List.mem_cons_self
    rw [Shape.assemble, Shape.assemble, split, split]
    exact .key fresh same

/-- Where one part is the same outside a path, so is what it is joined to. -/
theorem SameOutside.joined (same : first.SameOutside path rest second)
    {segments : List PathSegment} (addresses : shape.Addresses segments) {segment : PathSegment}
    {front back : List Verdict} (here : segments[front.length]? = some segment) :
    (join shape (front ++ first :: back)).SameOutside path (segment :: rest)
      (join shape (front ++ second :: back)) := by
  obtain ⟨matching, errors⟩ := same
  constructor
  · rw [join, join, List.map_append, List.map_append, List.map_cons, List.map_cons,
      List.mapM_append, List.mapM_append, List.mapM_cons, List.mapM_cons]
    cases fronts : (front.map Verdict.outcome).mapM id with
    | error => exact .error
    | ok values =>
      have long : values.length = front.length := by
        rw [← List.length_map Verdict.outcome, mapM_values fronts, List.length_map]
      rw [← long] at here
      generalize first.outcome = outcome at matching
      generalize second.outcome = other at matching
      cases matching with
      | error => exact .error
      | ok same =>
        cases (back.map Verdict.outcome).mapM id with
        | error => exact .error
        | ok others => exact .ok (assemble_sameOutside addresses here same)
  · rw [join, join, List.flatMap_append, List.flatMap_append, List.flatMap_cons,
      List.flatMap_cons, List.filter_append, List.filter_append, List.filter_append,
      List.filter_append, errors]

/-- Parts that are joined from the same positions: if one of them is the same outside a path and
the others are the same, so is the whole. -/
theorem join_sameOutside {α : Type} {pieces : List α} {segment : α → PathSegment}
    (addresses : shape.Addresses (pieces.map segment)) {first second : α → Verdict}
    {step : PathSegment}
    (meets : ∀ piece ∈ pieces, segment piece = step →
      (first piece).SameOutside path rest (second piece))
    (apart : ∀ piece ∈ pieces, segment piece ≠ step → first piece = second piece) :
    (join shape (pieces.map first)).SameOutside path (step :: rest)
      (join shape (pieces.map second)) := by
  by_cases member : ∃ piece ∈ pieces, segment piece = step
  · obtain ⟨piece, inside, rfl⟩ := member
    obtain ⟨front, back, rfl⟩ := List.append_of_mem inside
    have distinct : ((front ++ piece :: back).map segment).Nodup := addresses.nodup
    rw [List.map_append, List.map_cons, List.nodup_append, List.nodup_cons] at distinct
    obtain ⟨-, ⟨after, -⟩, before⟩ := distinct
    have fronts : front.map first = front.map second := List.map_congr_left fun other known =>
      apart other (List.mem_append_left _ known) (before _ (List.mem_map_of_mem known) _
        List.mem_cons_self)
    have backs : back.map first = back.map second := List.map_congr_left fun other known =>
      apart other (List.mem_append_right _ (List.mem_cons_of_mem _ known)) fun same =>
        after (same ▸ List.mem_map_of_mem known)
    rw [List.map_append, List.map_append, List.map_cons, List.map_cons, fronts, backs]
    exact (meets piece inside rfl).joined addresses (by simp)
  · have same : pieces.map first = pieces.map second := List.map_congr_left fun piece inside =>
      apart piece inside fun here => member ⟨piece, inside, here⟩
    rw [same]
    exact .refl _

theorem Confined.join {α : Type} {pieces : List α} {segment : α → PathSegment}
    {verdict : α → Verdict}
    (each : ∀ piece ∈ pieces, (verdict piece).Confined (path ++ [segment piece])) :
    (join shape (pieces.map verdict)).Confined path := by
  have whole {piece : α} {error : ResponseError}
      (inside : ∃ rest, error.path = some (path ++ [segment piece] ++ rest)) :
      ∃ rest, error.path = some (path ++ rest) := by
    obtain ⟨rest, here⟩ := inside
    exact ⟨segment piece :: rest, by simpa using here⟩
  constructor
  · intro error member
    obtain ⟨_, known, member⟩ := List.mem_flatMap.1 member
    obtain ⟨piece, inside, rfl⟩ := List.mem_map.1 known
    exact whole ((each piece inside).errors error member)
  · intro error fails
    rw [Verdict.join] at fails
    cases all : ((pieces.map verdict).map Verdict.outcome).mapM id with
    | ok values =>
      rw [all] at fails
      cases fails
    | error last =>
      rw [all] at fails
      cases fails
      obtain ⟨_, known, fails⟩ := List.mem_map.1 (mapM_error all)
      obtain ⟨piece, inside, rfl⟩ := List.mem_map.1 known
      exact whole ((each piece inside).outcome error fails)

/-- The verdict on an object joins those on its fields, each of which has its place. -/
theorem object_eq (sites : List (String × Site)) (verdict : Nat → Verdict) :
    object sites verdict = join (.object (sites.map Prod.fst))
      (sites.zipIdx.map fun piece => (verdict piece.2).guardAt piece.1.2.field.type) := by
  rw [object, List.mapIdx_eq_zipIdx_map]

end Relations
end Verdict

end Execution
end GraphQL
