import Mathlib.Data.List.Nodup
import GraphQL.Execution.Completion
import GraphQL.Execution.Executor
import GraphQL.Proofs.Entries
import GraphQL.Proofs.Execution.Effects
import GraphQL.Value.Basic

/-! Errors and the values that they explain. The errors of a position have paths below it of which
none leads to another one, and each of them leads to a null in the value of the position. -/
namespace GraphQL

/-- The value that a path leads to. -/
def Value.at? (value : Value) : Path → Option Value
  | [] => some value
  | .key name :: rest => (value.get? name).bind fun inner => inner.at? rest
  | .index position :: rest =>
      (value.list?.bind fun values => values[position]?).bind fun inner => inner.at? rest

/-- On the way along a path there is a null, at its end at the latest. -/
def Value.MeetsNull (value : Value) (path : Path) : Prop :=
  ∃ front, front <+: path ∧ value.at? front = some .null

/-- Neither error arose at the other's position or below it. -/
def ResponseError.Apart (first second : ResponseError) : Prop :=
  ∀ path other, first.path = some path → second.path = some other →
    ¬ path <+: other ∧ ¬ other <+: path

theorem ResponseError.Apart.symm {first second : ResponseError} (apart : first.Apart second) :
    second.Apart first :=
  fun path other here there => (apart other path there here).symm

section Nulls
variable {value inner : Value} {path : Path}

theorem Value.meetsNull_null (path : Path) : Value.null.MeetsNull path := ⟨[], List.nil_prefix, rfl⟩

theorem Value.eq_null_of_isNull (null : value.isNull = true) : value = .null := by
  cases value with
  | null => rfl
  | _ => cases null

/-- A null that is met inside a part is met inside the whole. -/
theorem Value.MeetsNull.inside {segment : PathSegment} (part : value.at? [segment] = some inner)
    (meets : inner.MeetsNull path) : value.MeetsNull (segment :: path) := by
  obtain ⟨front, leads, null⟩ := meets
  refine ⟨segment :: front, List.cons_prefix_cons.2 ⟨rfl, leads⟩, ?_⟩
  cases segment with
  | key name =>
    rw [Value.at?, Option.bind_eq_some_iff] at part
    obtain ⟨found, here, same⟩ := part
    cases same
    rw [Value.at?, here]
    exact null
  | index position =>
    rw [Value.at?, Option.bind_eq_some_iff] at part
    obtain ⟨found, here, same⟩ := part
    cases same
    rw [Value.at?, here]
    exact null

end Nulls

namespace Execution

/-- Errors from a position and below, each from a place of its own. -/
structure Recorded (path : Path) (errors : List ResponseError) : Prop where
  below : ∀ error ∈ errors, ∃ rest, error.path = some (path ++ rest)
  apart : errors.Pairwise ResponseError.Apart

/-- Errors from a position and below, each of which leads to a null in the value there. -/
structure Explained (path : Path) (value : Value) (errors : List ResponseError) : Prop
    extends Recorded path errors where
  meets : ∀ error ∈ errors, ∀ rest, error.path = some (path ++ rest) → value.MeetsNull rest

section Records
variable {path : Path} {errors : List ResponseError} {error : ResponseError}

theorem Recorded.nil (path : Path) : Recorded path [] :=
  ⟨fun _ member => absurd member List.not_mem_nil, List.Pairwise.nil⟩

theorem Explained.nil (path : Path) (value : Value) : Explained path value [] :=
  ⟨.nil path, fun _ member => absurd member List.not_mem_nil⟩

theorem Recorded.single (here : error.path = some path) : Recorded path [error] := by
  refine ⟨fun other member => ?_, List.pairwise_singleton _ _⟩
  rw [List.mem_singleton.1 member]
  exact ⟨[], by rw [here, List.append_nil]⟩

theorem Recorded.perm {others : List ResponseError} (recorded : Recorded path errors)
    (same : others.Perm errors) : Recorded path others :=
  ⟨fun error member => recorded.below error (same.mem_iff.1 member),
    recorded.apart.perm same.symm fun apart => apart.symm⟩

theorem Explained.perm {value : Value} {others : List ResponseError}
    (explained : Explained path value errors) (same : others.Perm errors) :
    Explained path value others :=
  ⟨explained.toRecorded.perm same,
    fun error member => explained.meets error (same.mem_iff.1 member)⟩

theorem Recorded.tail (recorded : Recorded path (error :: errors)) : Recorded path errors :=
  ⟨fun other member => recorded.below other (List.mem_cons_of_mem _ member),
    (List.pairwise_cons.1 recorded.apart).2⟩

/-- A null explains all errors below it. -/
theorem Recorded.explained (recorded : Recorded path errors) : Explained path .null errors :=
  ⟨recorded, fun _ _ rest _ => Value.meetsNull_null rest⟩

/-- Errors below different parts are apart. -/
theorem apart_of_segments {first second : PathSegment} (differ : first ≠ second)
    {a b : ResponseError} {rest tail : Path} (here : a.path = some (path ++ [first] ++ rest))
    (there : b.path = some (path ++ [second] ++ tail)) : a.Apart b := by
  rintro p q samePath sameOther
  rw [here] at samePath
  rw [there] at sameOther
  cases samePath
  cases sameOther
  rw [List.append_assoc, List.append_assoc, List.prefix_append_right_inj,
    List.prefix_append_right_inj, List.singleton_append, List.singleton_append,
    List.cons_prefix_cons, List.cons_prefix_cons]
  exact ⟨fun leads => differ leads.1, fun leads => differ leads.1.symm⟩

variable {α : Type} {pieces : List α} {segment : α → PathSegment} {found : α → List ResponseError}

theorem Recorded.parts (segment : α → PathSegment) (distinct : (pieces.map segment).Nodup)
    (each : ∀ part ∈ pieces, Recorded (path ++ [segment part]) (found part)) :
    Recorded path (pieces.flatMap found) := by
  constructor
  · intro error member
    obtain ⟨part, inside, member⟩ := List.mem_flatMap.1 member
    obtain ⟨rest, here⟩ := (each part inside).below error member
    exact ⟨segment part :: rest, by simpa using here⟩
  · rw [List.pairwise_flatMap]
    refine ⟨fun part inside => (each part inside).apart, ?_⟩
    rw [List.nodup_iff_pairwise_ne, List.pairwise_map] at distinct
    refine distinct.imp_of_mem fun {first second} inside other differ a member b known => ?_
    obtain ⟨rest, here⟩ := (each first inside).below a member
    obtain ⟨tail, there⟩ := (each second other).below b known
    exact apart_of_segments differ here there

/-- An error of one part is apart from the errors of all parts, if it is so within its own. -/
theorem Recorded.partFails (distinct : (pieces.map segment).Nodup)
    (each : ∀ part ∈ pieces, Recorded (path ++ [segment part]) (found part)) {failed : α}
    (inside : failed ∈ pieces)
    (fails : Recorded (path ++ [segment failed]) (error :: found failed)) :
    Recorded path (error :: pieces.flatMap found) := by
  have all := Recorded.parts segment distinct each
  obtain ⟨rest, here⟩ := fails.below error List.mem_cons_self
  refine ⟨fun other member => ?_, List.pairwise_cons.2 ⟨fun other member => ?_, all.apart⟩⟩
  · rcases List.mem_cons.1 member with rfl | member
    · exact ⟨segment failed :: rest, by simpa using here⟩
    · exact all.below other member
  · obtain ⟨part, known, member⟩ := List.mem_flatMap.1 member
    by_cases same : segment failed = segment part
    · rw [List.inj_on_of_nodup_map distinct inside known same] at fails
      exact (List.pairwise_cons.1 fails.apart).1 other member
    · obtain ⟨tail, there⟩ := (each part known).below other member
      exact apart_of_segments same here there

/-- What explains the errors of each part explains them all. -/
theorem Explained.parts {value : Value} (segment : α → PathSegment) (inner : α → Value)
    (distinct : (pieces.map segment).Nodup)
    (each : ∀ part ∈ pieces, Explained (path ++ [segment part]) (inner part) (found part))
    (stands : ∀ part ∈ pieces, value.at? [segment part] = some (inner part)) :
    Explained path value (pieces.flatMap found) := by
  refine ⟨.parts segment distinct fun part inside => (each part inside).toRecorded,
    fun error member rest here => ?_⟩
  obtain ⟨part, inside, member⟩ := List.mem_flatMap.1 member
  obtain ⟨tail, there⟩ := (each part inside).below error member
  have same : rest = segment part :: tail := by
    rw [here, List.append_assoc, Option.some.injEq, List.append_cancel_left_eq] at there
    exact there
  rw [same]
  exact .inside (stands part inside) ((each part inside).meets error member tail there)

end Records
end Execution
end GraphQL

/-! The positions of a response that an execution can come to, whichever object types the values
of abstract types turn out to have, and the values that may stand there. -/
namespace GraphQL.Execution
open Ast (SelectionSet)

/-- The object types that values of a named type have: the type itself, or one that can stand
for it. -/
inductive RuntimeType (schema : Schema) (name : String) : ObjectType → Prop
  | declared {object : ObjectType} : schema.type? name = some (.object object) →
      RuntimeType schema name object
  | possible {type : TypeDef} {object : ObjectType} : schema.type? name = some type →
      type.isAbstract = true → schema.object? object.name = some object →
      schema.isPossibleType type.name object.name = true → RuntimeType schema name object

/-- The selection sets of fields that are answered together. -/
def setsOf (nodes : List Ast.Field) : List SelectionSet := nodes.filterMap Ast.Field.selectionSet

namespace Plan

variable {τ : Type} (plan : Plan τ)

/-- The definition of the field that nodes select together: that of the first one. -/
def field? (object : ObjectType) (nodes : List Ast.Field) : Option Field :=
  nodes.head?.bind fun node => plan.schema.objectField? object node.name.text

/-- The response keys that selection sets select from an object and that have a definition. -/
def answered (object : ObjectType) (sets : List SelectionSet) : List String :=
  ((plan.collect object sets).filter fun group => (plan.field? object group.2).isSome).map Prod.fst

/-- An execution from a root type comes to an object of a type with these selection sets. -/
inductive Reaches (root : ObjectType) : ObjectType → List SelectionSet → Prop
  | root : Reaches root root [plan.operation.selectionSet]
  | field {object inner : ObjectType} {sets : List SelectionSet} {key : String}
      {nodes : List Ast.Field} {field : Field} : Reaches root object sets →
      (key, nodes) ∈ plan.collect object sets → plan.field? object nodes = some field →
      RuntimeType plan.schema field.type.innermost inner → Reaches root inner (setsOf nodes)

/-- A field that an execution comes to resolve. -/
def Resolves (root : ObjectType) (site : Site) : Prop :=
  ∃ sets key, plan.Reaches root site.parent sets ∧
    (key, site.nodes) ∈ plan.collect site.parent sets ∧
    plan.field? site.parent site.nodes = some site.field

end Plan

mutual

/-- A value conforms to a type. The selection sets are those of the fields that it answers. -/
inductive Conforms {τ : Type} (plan : Plan τ) : List SelectionSet → TypeRef → Value → Prop
  | null {sets : List SelectionSet} {type : TypeRef} : type.isNonNull = false →
      Conforms plan sets type .null
  | nonNull {sets : List SelectionSet} {type : TypeRef} {value : Value} : value.isNull = false →
      Conforms plan sets type value → Conforms plan sets (.nonNull type) value
  | list {sets : List SelectionSet} {item : TypeRef} {values : List Value} :
      (∀ value ∈ values, Conforms plan sets item value) →
      Conforms plan sets (.list item) (.list values)
  | scalar {sets : List SelectionSet} {name : String} {scalar : ScalarType} {result value : Value} :
      plan.schema.type? name = some (.scalar scalar) → scalar.serialize result = .ok value →
      Conforms plan sets (.named name) value
  | enum {sets : List SelectionSet} {name : String} {enum : EnumType} {result value : Value} :
      plan.schema.type? name = some (.enum enum) → enum.serialize result = some value →
      Conforms plan sets (.named name) value
  | object {sets : List SelectionSet} {name : String} {object : ObjectType}
      {entries : Entries Value} : RuntimeType plan.schema name object →
      Answers plan object sets entries → Conforms plan sets (.named name) (.object entries)

/-- Entries answer what selection sets select from an object: each key that has a definition, in
order and once, and no other. -/
inductive Answers {τ : Type} (plan : Plan τ) : ObjectType → List SelectionSet → Entries Value → Prop
  | entries {object : ObjectType} {sets : List SelectionSet} {entries : Entries Value} :
      entries.keys = plan.answered object sets → entries.keys.Nodup →
      (∀ key nodes field value, (key, nodes) ∈ plan.collect object sets →
        plan.field? object nodes = some field → (key, value) ∈ entries →
        Conforms plan (setsOf nodes) field.type value) →
      Answers plan object sets entries

end

section Sites
variable {τ σ : Type} {plan : Plan τ} {executor : Executor τ σ} {object : ObjectType}
  {sets : List SelectionSet}

/-- The sites of groups of fields, each with its response key. -/
def Executor.sites (executor : Executor τ σ) (object : ObjectType) (groups : Groups Ast.Field) :
    List (String × Site) :=
  groups.filterMap fun group => (executor.site? object group.2).map fun site => (group.1, site)

theorem site?_eq (executor : Executor τ σ) (object : ObjectType) (nodes : List Ast.Field) :
    executor.site? object nodes =
      (executor.plan.field? object nodes).map fun field => ⟨object, field, nodes⟩ := by
  rw [Executor.site?, Plan.field?]
  cases nodes.head? with
  | none => rfl
  | some node =>
    cases found : executor.plan.schema.objectField? object node.name.text with
    | none => simp [found]
    | some field => simp [found]

theorem mem_sites {groups : Groups Ast.Field} {key : String} {site : Site} :
    (key, site) ∈ executor.sites object groups ↔
      site.parent = object ∧ (key, site.nodes) ∈ groups ∧
        executor.plan.field? object site.nodes = some site.field := by
  rw [Executor.sites, List.mem_filterMap]
  constructor
  · rintro ⟨⟨first, nodes⟩, member, found⟩
    rw [site?_eq, Option.map_map, Option.map_eq_some_iff] at found
    obtain ⟨field, found, same⟩ := found
    cases same
    exact ⟨rfl, member, found⟩
  · rintro ⟨rfl, member, found⟩
    refine ⟨(key, site.nodes), member, ?_⟩
    rw [site?_eq, found]
    rfl

/-- A site of what is collected at a reached object is resolved. -/
theorem resolves_of_mem {root : ObjectType} {key : String} {site : Site}
    (reached : executor.plan.Reaches root object sets)
    (member : (key, site) ∈ executor.sites object (executor.plan.collect object sets)) :
    executor.plan.Resolves root site := by
  obtain ⟨rfl, member, found⟩ := mem_sites.1 member
  exact ⟨sets, key, reached, member, found⟩

theorem keys_sites (executor : Executor τ σ) (object : ObjectType) (sets : List SelectionSet) :
    (executor.sites object (executor.plan.collect object sets)).map Prod.fst =
      executor.plan.answered object sets := by
  rw [Executor.sites, Plan.answered]
  induction executor.plan.collect object sets with
  | nil => rfl
  | cons group rest ih =>
    rw [List.filterMap_cons, List.filter_cons, site?_eq]
    cases executor.plan.field? object group.2 with
    | none => exact ih
    | some field => exact congrArg (group.1 :: ·) ih

theorem collect_keys_nodup (plan : Plan τ) (object : ObjectType) (sets : List SelectionSet) :
    (plan.collect object sets).keys.Nodup := (Groups.keys_ofList _ _).1

theorem answered_nodup (plan : Plan τ) (object : ObjectType) (sets : List SelectionSet) :
    (plan.answered object sets).Nodup :=
  (List.filter_sublist.map Prod.fst).nodup (collect_keys_nodup plan object sets)

/-- A response key has one group of nodes. -/
theorem collect_unique {key : String} {nodes others : List Ast.Field}
    (member : (key, nodes) ∈ plan.collect object sets)
    (other : (key, others) ∈ plan.collect object sets) : nodes = others :=
  (Groups.get_of_mem (collect_keys_nodup plan object sets) member).symm.trans
    (Groups.get_of_mem (collect_keys_nodup plan object sets) other)

end Sites
end GraphQL.Execution

/-! Completions that keep their promise: whatever they are settled to satisfies the goal of their
position, and the errors recorded below it are explained by it, or go on with its own error. -/
namespace GraphQL.Execution

variable {τ σ : Type}

/-- A resolved field, and a type inside the wrappers of the field's type. -/
def Plan.Places (plan : Plan τ) (root : ObjectType) (site : Site) (type : TypeRef) : Prop :=
  plan.Resolves root site ∧ type.innermost = site.field.type.innermost

/-- An outcome and the errors recorded below its position. A null that has not been guarded
comes without errors. -/
def Settles (goal : Value → Prop) (path : Path) : Outcome → List ResponseError → Prop
  | .ok value, errors =>
      goal value ∧ Explained path value errors ∧ (value.isNull = true → errors = [])
  | .error error, errors => Recorded path (error :: errors)

/-- The steps to the parts of a shape. -/
inductive Shape.Addresses : Shape → List PathSegment → Prop
  | list (count : Nat) : Addresses .list ((List.range count).map PathSegment.index)
  | object {keys : List String} : keys.Nodup → Addresses (.object keys) (keys.map PathSegment.key)

theorem Shape.Addresses.nodup {shape : Shape} {segments : List PathSegment}
    (addresses : shape.Addresses segments) : segments.Nodup := by
  cases addresses with
  | list count => exact List.nodup_range.map fun _ _ same => PathSegment.index.inj same
  | object distinct => exact distinct.map fun _ _ same => PathSegment.key.inj same

/-- One part of a joined completion, with what its value has to satisfy and the errors recorded
below it. -/
structure Piece (τ : Type) where
  segment : PathSegment
  goal : Value → Prop
  completion : Completion τ
  errors : List ResponseError

/-- Values satisfy goals one by one. -/
def Meet (goals : List (Value → Prop)) (values : List Value) : Prop :=
  List.Forall₂ (fun goal value => goal value) goals values

mutual

/-- A completion whose error has not been guarded. -/
inductive Sound (plan : Plan τ) (root : ObjectType) :
    (Value → Prop) → Path → Completion τ → List ResponseError → Prop
  | settled {goal : Value → Prop} {path : Path} {outcome : Outcome} {errors : List ResponseError} :
      Settles goal path outcome errors → Sound plan root goal path (.settled outcome) errors
  | awaiting {goal : Value → Prop} {path : Path} {later : Later τ} {site : Site} {type : TypeRef} :
      plan.Places root site type →
      (∀ value, Conforms plan (setsOf site.nodes) type value → goal value) →
      Sound plan root goal path (.awaiting later site type path) []
  | required {goal inner : Value → Prop} {path : Path} {site : Site} {completion : Completion τ}
      {errors : List ResponseError} :
      (∀ value, inner value → value.isNull = false → goal value) →
      Sound plan root inner path completion errors →
      Sound plan root goal path (.required site path completion) errors
  | joined {goal : Value → Prop} {path : Path} {shape : Shape} {turns : Turns}
      {pieces : List (Piece τ)} {errors : List ResponseError} :
      shape.Addresses (pieces.map Piece.segment) →
      (∀ values, Meet (pieces.map Piece.goal) values → goal (shape.assemble values)) →
      (∀ piece ∈ pieces,
        Shielded plan root piece.goal (path ++ [piece.segment]) piece.completion piece.errors) →
      errors.Perm (pieces.flatMap Piece.errors) →
      Sound plan root goal path (.joined shape (pieces.map Piece.completion) turns) errors

/-- A completion whose error is guarded if it can be. -/
inductive Shielded (plan : Plan τ) (root : ObjectType) :
    (Value → Prop) → Path → Completion τ → List ResponseError → Prop
  | bare {goal : Value → Prop} {path : Path} {completion : Completion τ}
      {errors : List ResponseError} : Sound plan root goal path completion errors →
      Shielded plan root goal path completion errors
  | guarded {goal : Value → Prop} {path : Path} {completion : Completion τ}
      {errors : List ResponseError} : goal .null → Sound plan root goal path completion errors →
      Shielded plan root goal path (.guarded completion) errors
  | absorbed {goal : Value → Prop} {path : Path} {value : Value} {errors : List ResponseError} :
      goal value → Explained path value errors →
      Shielded plan root goal path (.settled (.ok value)) errors

end

section Completions
variable {plan : Plan τ} {root : ObjectType} {goal inner : Value → Prop} {path : Path}
  {completion : Completion τ} {errors : List ResponseError} {I : σ → Prop}

theorem Sound.mono (sound : Sound plan root inner path completion errors)
    (weaker : ∀ value, inner value → goal value) : Sound plan root goal path completion errors := by
  cases sound with
  | @settled _ _ outcome _ settles =>
    cases outcome with
    | ok value => exact .settled ⟨weaker value settles.1, settles.2⟩
    | error error => exact .settled settles
  | awaiting placed fits => exact .awaiting placed fun value conforms => weaker value (fits value conforms)
  | required fits sound =>
    exact .required (fun value meets solid => weaker value (fits value meets solid)) sound
  | joined addresses fits each same =>
    exact .joined addresses (fun values meets => weaker _ (fits values meets)) each same

/-- A value that stands there at once. -/
theorem sound_value {value : Value} (meets : goal value) :
    Sound plan root goal path (.settled (.ok value)) [] :=
  .settled ⟨meets, .nil path value, fun _ => rfl⟩

/-- An error that arises there. -/
theorem sound_error {error : ResponseError} (here : error.path = some path) :
    Sound plan root goal path (.settled (.error error)) [] := .settled (.single here)

theorem failed_sound (site : Site) (message : String) :
    Sound plan root goal path (.failed site path message) [] := sound_error rfl

/-- A required value is not null, or it is an error. -/
theorem require_sound (site : Site) (sound : Sound plan root inner path completion errors)
    (fits : ∀ value, inner value → value.isNull = false → goal value) :
    Sound plan root goal path (completion.require site path) errors := by
  cases sound with
  | @settled _ _ outcome _ settles =>
    rw [Completion.require]
    cases outcome with
    | error error => exact .settled settles
    | ok value =>
      obtain ⟨meets, explained, bare⟩ := settles
      rw [Completion.refuseNull]
      split
      · rename_i null
        rw [bare null]
        exact sound_error rfl
      · rename_i solid
        have solid : value.isNull = false := by simpa using solid
        exact .settled ⟨fits value meets solid, explained, fun null => by simp [solid] at null⟩
  | awaiting placed conforms => exact .required fits (.awaiting placed conforms)
  | required before sound => exact .required fits (.required before sound)
  | joined addresses before each same => exact .required fits (.joined addresses before each same)

/-- A guarded error is recorded, and leaves a null. -/
theorem guard_ensures (sound : Sound plan root goal path completion errors) (null : goal .null) :
    Ensures I completion.guard fun after more =>
      Shielded plan root goal path after (errors ++ more) := by
  cases sound with
  | @settled _ _ outcome _ settles =>
    rw [Completion.guard]
    cases outcome with
    | ok value =>
      obtain ⟨meets, explained, _⟩ := settles
      rw [absorb, pure_bind]
      refine .pure ?_
      rw [List.append_nil]
      exact .absorbed meets explained
    | error error =>
      rw [absorb, bind_assoc]
      refine (record_ensures error).bind fun _ found same => ?_
      rw [pure_bind]
      refine .pure ?_
      rw [List.append_nil, same]
      exact .absorbed null (settles.perm (List.perm_append_singleton error errors)).explained
  | awaiting placed conforms => exact .pure (.guarded null (.awaiting placed conforms))
  | required fits sound =>
    refine .pure ?_
    rw [List.append_nil]
    exact .guarded null (.required fits sound)
  | joined addresses fits each same =>
    refine .pure ?_
    rw [List.append_nil]
    exact .guarded null (.joined addresses fits each same)

theorem guardAt_ensures {type : TypeRef} (sound : Sound plan root goal path completion errors)
    (null : type.isNonNull = false → goal .null) :
    Ensures I (completion.guardAt type) fun after more =>
      Shielded plan root goal path after (errors ++ more) := by
  rw [Completion.guardAt]
  split
  · refine .pure ?_
    rw [List.append_nil]
    exact .bare sound
  · rename_i nullable
    exact guard_ensures sound (null (by simpa using nullable))

end Completions

section Gathering
variable {plan : Plan τ} {root : ObjectType} {goal : Value → Prop} {path : Path}

/-- The value of an address inside what is put together. -/
theorem at?_assemble (shape : Shape) (entries : List (PathSegment × Value))
    (addresses : shape.Addresses (entries.map Prod.fst)) {segment : PathSegment} {value : Value}
    (member : (segment, value) ∈ entries) :
    (shape.assemble (entries.map Prod.snd)).at? [segment] = some value := by
  obtain ⟨position, here⟩ := List.mem_iff_getElem?.1 member
  have known : (entries.map Prod.fst)[position]? = some segment := by rw [List.getElem?_map, here]; rfl
  have stands : (entries.map Prod.snd)[position]? = some value := by rw [List.getElem?_map, here]; rfl
  have long : (entries.map Prod.snd).length = (entries.map Prod.fst).length := by simp
  generalize entries.map Prod.snd = values at stands long
  generalize entries.map Prod.fst = segments at addresses known long
  cases addresses with
  | list count =>
    rw [List.getElem?_map, Option.map_eq_some_iff] at known
    obtain ⟨index, found, rfl⟩ := known
    obtain ⟨_, rfl⟩ := List.getElem?_eq_some_iff.1 found
    rw [Shape.assemble, Value.at?, List.getElem_range, Value.list?, Option.bind_some, stands]
    rfl
  | @object keys distinct =>
    rw [List.getElem?_map, Option.map_eq_some_iff] at known
    obtain ⟨key, found, rfl⟩ := known
    rw [List.length_map] at long
    have inside : (key, value) ∈ keys.zip values :=
      List.mem_iff_getElem?.2 ⟨position, List.getElem?_zip_eq_some.2 ⟨found, stands⟩⟩
    have whole : Entries.keys (keys.zip values) = keys := List.map_fst_zip (by omega)
    rw [Shape.assemble, Value.at?, Value.get?, Value.object?, Option.bind_some,
      Entries.get?_of_mem (by rwa [whole]) inside]
    rfl

/-- The value that a completion is settled to. -/
def Completion.answer (completion : Completion τ) : Value :=
  match completion.outcome? with
  | some (.ok value) => value
  | _ => .null

/-- The values that completions are settled to. -/
theorem values_of_settled {α : Type} {items : List α} {completion : α → Completion τ}
    {values : List Value}
    (all : items.map completion = (values.map Except.ok).map Completion.settled) :
    values = items.map fun item => (completion item).answer := by
  have mapped := congrArg (List.map Completion.answer) all
  rw [List.map_map, List.map_map, List.map_map] at mapped
  exact (List.map_id values).symm.trans mapped.symm

theorem mapM_outcome? {completions : List (Completion τ)} {outcomes : List Outcome}
    (all : completions.mapM Completion.outcome? = some outcomes) :
    completions = outcomes.map Completion.settled := by
  induction completions generalizing outcomes with
  | nil =>
    cases all
    rfl
  | cons first rest ih =>
    rw [List.mapM_cons] at all
    obtain ⟨outcome, here, all⟩ := Option.bind_eq_some_iff.1 all
    obtain ⟨others, there, same⟩ := Option.bind_eq_some_iff.1 all
    cases same
    cases first with
    | settled _ =>
      cases here
      exact congrArg _ (ih there)
    | _ => cases here

theorem mapM_values {outcomes : List Outcome} {values : List Value}
    (all : outcomes.mapM id = .ok values) : outcomes = values.map Except.ok := by
  induction outcomes generalizing values with
  | nil =>
    cases all
    rfl
  | cons first rest ih =>
    rw [List.mapM_cons] at all
    cases first with
    | error _ => cases all
    | ok value =>
      cases others : rest.mapM id with
      | error _ =>
        rw [others] at all
        cases all
      | ok found =>
        rw [others] at all
        cases all
        exact congrArg _ (ih others)

theorem mapM_error {outcomes : List Outcome} {error : ResponseError}
    (fails : outcomes.mapM id = .error error) : .error error ∈ outcomes := by
  induction outcomes with
  | nil => cases fails
  | cons first rest ih =>
    rw [List.mapM_cons] at fails
    cases first with
    | error _ =>
      cases fails
      exact List.mem_cons_self
    | ok value =>
      cases others : rest.mapM id with
      | error _ =>
        rw [others] at fails
        cases fails
        exact List.mem_cons_of_mem _ (ih others)
      | ok found =>
        rw [others] at fails
        cases fails

theorem Shielded.value {value : Value} {errors : List ResponseError}
    (shielded : Shielded plan root goal path (.settled (.ok value)) errors) :
    goal value ∧ Explained path value errors := by
  cases shielded with
  | bare sound =>
    cases sound with
    | settled settles => exact ⟨settles.1, settles.2.1⟩
  | absorbed meets explained => exact ⟨meets, explained⟩

theorem Shielded.error {error : ResponseError} {errors : List ResponseError}
    (shielded : Shielded plan root goal path (.settled (.error error)) errors) :
    Recorded path (error :: errors) := by
  cases shielded with
  | bare sound =>
    cases sound with
    | settled settles => exact settles

theorem Shielded.recorded {outcome : Outcome} {errors : List ResponseError}
    (shielded : Shielded plan root goal path (.settled outcome) errors) : Recorded path errors := by
  cases outcome with
  | ok value => exact shielded.value.2.toRecorded
  | error error => exact shielded.error.tail

/-- Parts that are settled settle what is put together from them. -/
theorem assemble_settles {shape : Shape} {pieces : List (Piece τ)} {outcomes : List Outcome}
    (addresses : shape.Addresses (pieces.map Piece.segment))
    (fits : ∀ values, Meet (pieces.map Piece.goal) values → goal (shape.assemble values))
    (each : ∀ piece ∈ pieces,
      Shielded plan root piece.goal (path ++ [piece.segment]) piece.completion piece.errors)
    (all : pieces.map Piece.completion = outcomes.map Completion.settled) :
    Settles goal path ((outcomes.mapM id).map shape.assemble) (pieces.flatMap Piece.errors) := by
  have distinct : (pieces.map Piece.segment).Nodup := addresses.nodup
  have settled (piece : Piece τ) (inside : piece ∈ pieces) :
      ∃ outcome ∈ outcomes, piece.completion = .settled outcome := by
    have member : piece.completion ∈ outcomes.map Completion.settled :=
      all ▸ List.mem_map_of_mem inside
    obtain ⟨outcome, known, same⟩ := List.mem_map.1 member
    exact ⟨outcome, known, same.symm⟩
  cases gathered : outcomes.mapM id with
  | error error =>
    have failed : Completion.settled (.error error) ∈ pieces.map Piece.completion :=
      all ▸ List.mem_map_of_mem (mapM_error gathered)
    obtain ⟨piece, inside, same⟩ := List.mem_map.1 failed
    have fails := each piece inside
    rw [same] at fails
    refine Recorded.partFails distinct (fun part known => ?_) inside fails.error
    obtain ⟨outcome, _, same⟩ := settled part known
    have holds := each part known
    rw [same] at holds
    exact holds.recorded
  | ok values =>
    have outcomes_eq := mapM_values gathered
    have answers : values = pieces.map fun piece => piece.completion.answer :=
      values_of_settled (outcomes_eq ▸ all)
    have value (piece : Piece τ) (inside : piece ∈ pieces) : piece.goal piece.completion.answer ∧
        Explained (path ++ [piece.segment]) piece.completion.answer piece.errors := by
      obtain ⟨outcome, known, same⟩ := settled piece inside
      rw [outcomes_eq] at known
      obtain ⟨value, _, rfl⟩ := List.mem_map.1 known
      have holds := each piece inside
      rw [same] at holds ⊢
      exact holds.value
    refine ⟨fits values ?_, ?_, ?_⟩
    · rw [answers, Meet, List.forall₂_map_left_iff, List.forall₂_map_right_iff, List.forall₂_same]
      exact fun piece inside => (value piece inside).1
    · refine Explained.parts Piece.segment (fun piece => piece.completion.answer) distinct
        (fun piece inside => (value piece inside).2) fun piece inside => ?_
      have stands := at?_assemble shape
        (pieces.map fun piece => (piece.segment, piece.completion.answer))
        (by rwa [List.map_map]) (List.mem_map_of_mem inside)
      rwa [List.map_map, show Prod.snd ∘ (fun piece : Piece τ => (piece.segment, piece.completion.answer))
        = fun piece => piece.completion.answer from rfl, ← answers] at stands
    · intro null
      cases shape <;> cases null

/-- Parts that keep their promises, put together, keep that of the whole. -/
theorem gather_sound {shape : Shape} {pieces : List (Piece τ)} {errors : List ResponseError}
    (turns : Turns) (addresses : shape.Addresses (pieces.map Piece.segment))
    (fits : ∀ values, Meet (pieces.map Piece.goal) values → goal (shape.assemble values))
    (each : ∀ piece ∈ pieces,
      Shielded plan root piece.goal (path ++ [piece.segment]) piece.completion piece.errors)
    (same : errors.Perm (pieces.flatMap Piece.errors)) :
    Sound plan root goal path (.gather shape (pieces.map Piece.completion) turns) errors := by
  rw [Completion.gather]
  cases all : (pieces.map Piece.completion).mapM Completion.outcome? with
  | none => exact .joined addresses fits each same
  | some outcomes =>
    have settles := assemble_settles addresses fits each (mapM_outcome? all)
    refine .settled ?_
    cases outcome : (outcomes.mapM id).map shape.assemble with
    | error error =>
      rw [outcome] at settles
      exact Recorded.perm settles (same.cons error)
    | ok value =>
      rw [outcome] at settles
      obtain ⟨meets, explained, bare⟩ := settles
      refine ⟨meets, explained.perm same, fun null => ?_⟩
      rw [bare null] at same
      exact same.eq_nil

/-- The completions of some positions, put together. -/
theorem gather_parts {α : Type} {shape : Shape} (segment : α → PathSegment) (aim : α → Value → Prop)
    {parts : List (α × Completion τ × List ResponseError)} (turns : Turns)
    (addresses : shape.Addresses ((parts.map Prod.fst).map segment))
    (fits : ∀ values, List.Forall₂ aim (parts.map Prod.fst) values → goal (shape.assemble values))
    (each : ∀ part ∈ parts,
      Shielded plan root (aim part.1) (path ++ [segment part.1]) part.2.1 part.2.2) :
    Sound plan root goal path (.gather shape (parts.map fun part => part.2.1) turns)
      (parts.flatMap fun part => part.2.2) := by
  let piece (part : α × Completion τ × List ResponseError) : Piece τ :=
    ⟨segment part.1, aim part.1, part.2.1, part.2.2⟩
  have completions : (parts.map piece).map Piece.completion = parts.map fun part => part.2.1 := by
    rw [List.map_map]
    rfl
  rw [← completions]
  refine gather_sound turns ?_ (fun values meets => fits values ?_) (fun other member => ?_) ?_
  · rw [List.map_map] at addresses ⊢
    exact addresses
  · rw [Meet, List.map_map, List.forall₂_map_left_iff] at meets
    rwa [List.forall₂_map_left_iff]
  · obtain ⟨part, inside, rfl⟩ := List.mem_map.1 member
    exact each part inside
  · rw [List.flatMap_map]

end Gathering
end GraphQL.Execution
