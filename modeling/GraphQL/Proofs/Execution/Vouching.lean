import GraphQL.Proofs.Coercion.Fits
import GraphQL.Proofs.Execution.Completions
import GraphQL.Proofs.Execution.Steps

/-! Reasons for nulls, and completions that vouch for theirs. A null is what its position was
handed, or what a leaf was serialized to, or it stands for an error that is recorded and has risen
to its position from there or from below, past positions that may not be null. -/
namespace GraphQL

/-- What a scalar or an enum makes of a plain value. -/
def TypeDef.serialized? (type : TypeDef) (plain : Value) : Option Value :=
  match type with
  | .scalar of => (of.serialize plain).toOption
  | .enum of => of.serialize plain
  | _ => none

namespace Execution

variable {τ σ α : Type}

/-- The types that positions have by the fields that have been resolved. -/
inductive Declared (taken : Step τ → Prop) : Path → TypeRef → Prop
  | field {site : Site} {path : Path} : taken (.resolved site path) →
      Declared taken path site.field.type
  | item {path : Path} {type item : TypeRef} (index : Nat) : Declared taken path type →
      type.element? = some item → Declared taken (path ++ [.index index]) item

/-- From strictly below a path down to where the rest leads, no position may be null. -/
def Strict (taken : Step τ → Prop) (path rest : Path) : Prop :=
  ∀ front, front <+: rest → front ≠ [] →
    ∃ type, Declared taken (path ++ front) type ∧ type.isNonNull = true

/-- There is a reason for a null at a position. A leaf that is serialized to a list or an object may
have nulls inside. -/
inductive Accounted (schema : Schema) (taken : Step τ → Prop) (errors : List ResponseError) :
    Path → Prop
  | handed {site : Site} {type : TypeRef} {path : Path} {value : FieldValue τ} :
      taken (.handed site type path value) → value.isNull = true →
      Accounted schema taken errors path
  | serialized {site : Site} {name : String} {path rest : Path} {plain result : Value}
      {type : TypeDef} : taken (.handed site (.named name) path (.value plain)) →
      schema.type? name = some type → type.serialized? plain = some result →
      result.at? rest = some .null → Accounted schema taken errors (path ++ rest)
  | failed {path rest : Path} {error : ResponseError} : error ∈ errors →
      error.path = some (path ++ rest) → Strict taken path rest → Accounted schema taken errors path

/-- An error from a position or from below, past positions that may not be null. -/
def Rises (taken : Step τ → Prop) (path : Path) (error : ResponseError) : Prop :=
  ∃ rest, error.path = some (path ++ rest) ∧ Strict taken path rest

/-- There is a reason for each null in the value of a position. -/
def NullsAccounted (schema : Schema) (taken : Step τ → Prop) (errors : List ResponseError)
    (path : Path) (value : Value) : Prop :=
  ∀ rest, value.at? rest = some .null → Accounted schema taken errors (path ++ rest)

section Reasons
variable {schema : Schema} {taken other : Step τ → Prop} {errors more : List ResponseError}
  {path : Path} {error : ResponseError} {value : Value}

theorem Declared.mono (weaker : ∀ step, taken step → other step) {type : TypeRef}
    (declared : Declared taken path type) : Declared other path type := by
  induction declared with
  | field resolved => exact .field (weaker _ resolved)
  | item index _ element ih => exact .item index ih element

theorem Accounted.mono (weaker : ∀ step, taken step → other step)
    (further : ∀ error ∈ errors, error ∈ more) (accounted : Accounted schema taken errors path) :
    Accounted schema other more path := by
  cases accounted with
  | handed handed null => exact .handed (weaker _ handed) null
  | serialized handed known serialized null =>
    exact .serialized (weaker _ handed) known serialized null
  | failed member here strict =>
    refine .failed (further _ member) here fun front leads below => ?_
    obtain ⟨type, declared, nonNull⟩ := strict front leads below
    exact ⟨type, declared.mono weaker, nonNull⟩

theorem NullsAccounted.mono (further : ∀ error ∈ errors, error ∈ more)
    (accounted : NullsAccounted schema taken errors path value) :
    NullsAccounted schema taken more path value :=
  fun rest null => (accounted rest null).mono (fun _ => id) further

/-- An error arises at its own position. -/
theorem rises_here (here : error.path = some path) : Rises taken path error := by
  refine ⟨[], by rw [here, List.append_nil], fun front leads below => ?_⟩
  exact absurd (List.prefix_nil.1 leads) below

/-- An error goes up from a position that may not be null. -/
theorem Rises.up {segment : PathSegment} {type : TypeRef}
    (rises : Rises taken (path ++ [segment]) error)
    (declared : Declared taken (path ++ [segment]) type) (nonNull : type.isNonNull = true) :
    Rises taken path error := by
  obtain ⟨rest, here, strict⟩ := rises
  refine ⟨segment :: rest, by simpa using here, fun front leads below => ?_⟩
  cases front with
  | nil => exact absurd rfl below
  | cons first front =>
    obtain ⟨rfl, inside⟩ := List.cons_prefix_cons.1 leads
    by_cases last : front = []
    · subst last
      exact ⟨type, declared, nonNull⟩
    · simpa using strict front inside last

/-- A null stands for an error that has risen to its position. -/
theorem accounted_of_rises (rises : Rises taken path error) (member : error ∈ errors) :
    NullsAccounted schema taken errors path .null := by
  intro rest null
  obtain ⟨tail, here, strict⟩ := rises
  cases rest with
  | nil =>
    rw [List.append_nil]
    exact .failed member here strict
  | cons segment rest => cases segment <;> cases null

theorem accounted_of_handed {site : Site} {type : TypeRef} {value : FieldValue τ}
    (handed : taken (.handed site type path value)) (isNull : value.isNull = true) :
    NullsAccounted schema taken errors path .null := by
  intro rest null
  cases rest with
  | nil =>
    rw [List.append_nil]
    exact .handed handed isNull
  | cons segment rest => cases segment <;> cases null

end Reasons

/-- One part of a joined completion, with its position and the errors recorded below it. -/
structure Branch (τ : Type) where
  segment : PathSegment
  completion : Completion τ
  errors : List ResponseError

/-- There are reasons for the nulls of an outcome, or its error has risen to a base. -/
def Vouched (schema : Schema) (taken : Step τ → Prop) (base path : Path) :
    Outcome → List ResponseError → Prop
  | .ok value, errors => NullsAccounted schema taken errors path value
  | .error error, _ => Rises taken base error

/-- A completion that vouches for the nulls of its position: there are reasons for those that it
is settled to, and an error that it is settled to has risen to a base, which is the position
itself or, once the error has passed it, the one above. -/
inductive Vouches (schema : Schema) (taken : Step τ → Prop) :
    Path → Path → Completion τ → List ResponseError → Prop
  | settled {base path : Path} {outcome : Outcome} {errors : List ResponseError} :
      Vouched schema taken base path outcome errors →
      Vouches schema taken base path (.settled outcome) errors
  | awaiting {base path : Path} {later : Later τ} {site : Site} {type full : TypeRef} :
      (∀ error, Rises taken path error → Rises taken base error) → Declared taken path full →
      full.element? = type.element? →
      Vouches schema taken base path (.awaiting later site type path) []
  | required {base path : Path} {site : Site} {completion : Completion τ}
      {errors : List ResponseError} :
      (∀ error, Rises taken path error → Rises taken base error) →
      Vouches schema taken path path completion errors →
      Vouches schema taken base path (.required site path completion) errors
  | guarded {base path : Path} {completion : Completion τ} {errors : List ResponseError} :
      Vouches schema taken path path completion errors →
      Vouches schema taken base path (.guarded completion) errors
  | joined {base path : Path} {shape : Shape} {branches : List (Branch τ)} {turns : Turns}
      {errors : List ResponseError} :
      (∀ error, Rises taken path error → Rises taken base error) →
      shape.Addresses (branches.map Branch.segment) →
      (∀ branch ∈ branches, Vouches schema taken path (path ++ [branch.segment])
        branch.completion branch.errors) →
      errors.Perm (branches.flatMap Branch.errors) →
      Vouches schema taken base path
        (.joined shape (branches.map Branch.completion) turns) errors

section Completions
variable {schema : Schema} {taken : Step τ → Prop} {errors : List ResponseError}
  {base path : Path} {completion : Completion τ} {I : σ → Prop}

/-- What an error has risen to it may rise further from. -/
theorem Vouches.lift (vouches : Vouches schema taken path path completion errors)
    (lifts : ∀ error, Rises taken path error → Rises taken base error) :
    Vouches schema taken base path completion errors := by
  cases vouches with
  | @settled _ _ outcome _ vouched =>
    cases outcome with
    | ok value => exact .settled vouched
    | error error => exact .settled (lifts error vouched)
  | awaiting _ declared same => exact .awaiting lifts declared same
  | required _ inner => exact .required lifts inner
  | guarded inner => exact .guarded inner
  | joined _ addresses each same => exact .joined lifts addresses each same

theorem failed_vouches (site : Site) (message : String) :
    Vouches schema taken path path (.failed site path message) [] := .settled (rises_here rfl)

/-- A null that must not be is an error of its own position. -/
theorem require_vouches (site : Site) (vouches : Vouches schema taken path path completion errors) :
    Vouches schema taken path path (completion.require site path) errors := by
  cases vouches with
  | @settled _ _ outcome _ vouched =>
    rw [Completion.require]
    cases outcome with
    | error error => exact .settled vouched
    | ok value =>
      rw [Completion.refuseNull]
      split
      · exact .settled (rises_here rfl)
      · exact .settled vouched
  | awaiting lifts declared same => exact .required (fun _ => id) (.awaiting lifts declared same)
  | required lifts inner => exact .required (fun _ => id) (.required lifts inner)
  | guarded inner => exact .required (fun _ => id) (.guarded inner)
  | joined lifts addresses each same =>
    exact .required (fun _ => id) (.joined lifts addresses each same)

/-- A guarded error is recorded, which is the reason for its null. -/
theorem guard_vouches (base : Path) (vouches : Vouches schema taken path path completion errors) :
    Ensures I completion.guard fun after more =>
      Vouches schema taken base path after (errors ++ more) := by
  have waits (waiting : Vouches schema taken base path (.guarded completion) errors) :
      Ensures I (pure (.guarded completion)) fun after more =>
        Vouches schema taken base path after (errors ++ more) := by
    refine .pure ?_
    rwa [List.append_nil]
  cases vouches with
  | @settled _ _ outcome _ vouched =>
    rw [Completion.guard]
    cases outcome with
    | ok value =>
      refine .pure ?_
      rw [List.append_nil]
      exact .settled vouched
    | error error =>
      rw [absorb, bind_assoc]
      refine (record_ensures error).bind fun _ found recorded => ?_
      rw [pure_bind]
      refine .pure ?_
      rw [List.append_nil, recorded]
      exact .settled (accounted_of_rises vouched (List.mem_append_right _ List.mem_cons_self))
  | awaiting lifts declared same => exact waits (.guarded (.awaiting lifts declared same))
  | required lifts inner => exact waits (.guarded (.required lifts inner))
  | guarded inner => exact waits (.guarded (.guarded inner))
  | joined lifts addresses each same => exact waits (.guarded (.joined lifts addresses each same))

/-- Once it has been guarded as its type asks for, an error has risen above its position. -/
theorem guardAt_vouches {segment : PathSegment} {type : TypeRef}
    (vouches : Vouches schema taken (path ++ [segment]) (path ++ [segment]) completion errors)
    (declared : Declared taken (path ++ [segment]) type) :
    Ensures I (completion.guardAt type) fun after more =>
      Vouches schema taken path (path ++ [segment]) after (errors ++ more) := by
  rw [Completion.guardAt]
  split
  · rename_i nonNull
    refine .pure ?_
    rw [List.append_nil]
    exact vouches.lift fun error rises => rises.up declared nonNull
  · exact guard_vouches path vouches

theorem null_of_object {entries : Entries Value} {rest : Path}
    (null : (Value.object entries).at? rest = some .null) :
    ∃ name tail value, rest = .key name :: tail ∧ (name, value) ∈ entries ∧
      value.at? tail = some .null := by
  match rest with
  | [] => cases null
  | .index _ :: _ => cases null
  | .key name :: tail =>
    obtain ⟨value, known, null⟩ := Option.bind_eq_some_iff.1 null
    exact ⟨name, tail, value, rfl, Entries.mem_of_get? known, null⟩

/-- A null inside what is put together is one inside a part. -/
theorem null_of_assemble {shape : Shape} {entries : List (PathSegment × Value)}
    (addresses : shape.Addresses (entries.map Prod.fst)) {rest : Path}
    (null : (shape.assemble (entries.map Prod.snd)).at? rest = some .null) :
    ∃ segment tail value, rest = segment :: tail ∧ (segment, value) ∈ entries ∧
      value.at? tail = some .null := by
  have found {position : Nat} {segment : PathSegment} {value : Value}
      (here : (entries.map Prod.fst)[position]? = some segment)
      (there : (entries.map Prod.snd)[position]? = some value) : (segment, value) ∈ entries := by
    rw [List.getElem?_map, Option.map_eq_some_iff] at here there
    obtain ⟨entry, known, rfl⟩ := here
    obtain ⟨other, same, rfl⟩ := there
    cases known.symm.trans same
    exact List.mem_of_getElem? known
  have long : (entries.map Prod.snd).length = (entries.map Prod.fst).length := by simp
  generalize entries.map Prod.snd = values at null found long
  generalize entries.map Prod.fst = segments at addresses found long
  cases addresses with
  | list count =>
    match rest with
    | [] => cases null
    | .key _ :: _ => cases null
    | .index position :: tail =>
      obtain ⟨value, known, null⟩ := Option.bind_eq_some_iff.1 null
      have known : values[position]? = some value := known
      have inside := (List.getElem?_eq_some_iff.1 known).1
      refine ⟨.index position, tail, value, rfl, found ?_ known, null⟩
      rw [List.length_map, List.length_range] at long
      rw [List.getElem?_map, List.getElem?_range (by omega)]
      rfl
  | @object keys _ =>
    obtain ⟨name, tail, value, rfl, member, null⟩ := null_of_object null
    obtain ⟨position, here⟩ := List.mem_iff_getElem?.1 member
    obtain ⟨key, there⟩ := List.getElem?_zip_eq_some.1 here
    refine ⟨.key name, tail, value, rfl, found ?_ there, null⟩
    rw [List.getElem?_map, key]
    rfl

/-- Branches that vouch for their nulls, put together, vouch for those of the whole. -/
theorem gather_vouches {shape : Shape} {branches : List (Branch τ)} (turns : Turns)
    (addresses : shape.Addresses (branches.map Branch.segment))
    (each : ∀ branch ∈ branches, Vouches schema taken path (path ++ [branch.segment])
      branch.completion branch.errors) (same : errors.Perm (branches.flatMap Branch.errors)) :
    Vouches schema taken path path
      (.gather shape (branches.map Branch.completion) turns) errors := by
  rw [Completion.gather]
  cases all : (branches.map Branch.completion).mapM Completion.outcome? with
  | none => exact .joined (fun _ => id) addresses each same
  | some outcomes =>
    refine .settled ?_
    have completions := mapM_outcome? all
    cases gathered : outcomes.mapM id with
    | error error =>
      have failed : Completion.settled (.error error) ∈ branches.map Branch.completion :=
        completions ▸ List.mem_map_of_mem (mapM_error gathered)
      obtain ⟨branch, inside, settled⟩ := List.mem_map.1 failed
      have vouches := each branch inside
      rw [settled] at vouches
      cases vouches with
      | settled rises => exact rises
    | ok values =>
      obtain rfl := mapM_values gathered
      intro rest null
      rw [values_of_settled completions] at null
      let entry (branch : Branch τ) : PathSegment × Value :=
        (branch.segment, branch.completion.answer)
      have stands := @null_of_assemble shape (branches.map entry)
        (by rwa [List.map_map]) rest (by rwa [List.map_map])
      obtain ⟨_, tail, _, rfl, member, null⟩ := stands
      obtain ⟨branch, inside, found⟩ := List.mem_map.1 member
      cases found
      have settled : branch.completion ∈ (values.map Except.ok).map Completion.settled :=
        completions ▸ List.mem_map_of_mem inside
      rw [List.map_map] at settled
      obtain ⟨value, _, here⟩ := List.mem_map.1 settled
      have vouches := each branch inside
      rw [← here] at vouches null
      cases vouches with
      | settled accounted =>
        have further : ∀ error ∈ branch.errors, error ∈ errors := fun error member =>
          same.mem_iff.2 (List.mem_flatMap_of_mem inside member)
        simpa using (accounted.mono further) tail null

/-- The completions of some positions, put together. -/
theorem join_vouches {shape : Shape} (segment : α → PathSegment)
    {parts : List (α × Completion τ × List ResponseError)}
    (addresses : shape.Addresses ((parts.map Prod.fst).map segment))
    (each : ∀ part ∈ parts,
      Vouches schema taken path (path ++ [segment part.1]) part.2.1 part.2.2) :
    Vouches schema taken path path (.join shape (parts.map fun part => part.2.1))
      (parts.flatMap fun part => part.2.2) := by
  let branch (part : α × Completion τ × List ResponseError) : Branch τ :=
    ⟨segment part.1, part.2.1, part.2.2⟩
  have completions : (parts.map branch).map Branch.completion = parts.map fun part => part.2.1 := by
    rw [List.map_map]
    rfl
  rw [Completion.join, ← completions]
  refine gather_vouches _ ?_ (fun other member => ?_) ?_
  · rw [List.map_map] at addresses ⊢
    exact addresses
  · obtain ⟨part, inside, rfl⟩ := List.mem_map.1 member
    exact each part inside
  · rw [List.flatMap_map]

end Completions

end Execution
end GraphQL
