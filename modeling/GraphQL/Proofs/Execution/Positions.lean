import GraphQL.Proofs.Execution.Completing
import GraphQL.Proofs.Schema.Alike

/-! The positions of a response at which an execution completes values, with the fields and the
types that these have there. Completions wait for values of such positions only. -/
namespace GraphQL.Execution
open Ast (SelectionSet)

variable {τ σ : Type}

namespace Plan

/-- A site that selection sets select from an object under a key. -/
structure Selects (plan : Plan τ) (object : ObjectType) (sets : List SelectionSet) (key : String)
    (site : Site) : Prop where
  parent : site.parent = object
  collected : (key, site.nodes) ∈ plan.collect object sets
  defined : plan.field? object site.nodes = some site.field

/-- A position of a field, or of an item of a list that the field has there, and the type that is
declared for it. -/
inductive Position (plan : Plan τ) (root : ObjectType) : Site → TypeRef → Path → Prop
  | root {key : String} {site : Site} :
      plan.Selects root [plan.operation.selectionSet] key site →
      Position plan root site site.field.type [.key key]
  | item {site : Site} {type item : TypeRef} {path : Path} (index : Nat) :
      Position plan root site type path → type.bare = .list item →
      Position plan root site item (path ++ [.index index])
  | field {outer site : Site} {type : TypeRef} {path : Path} {name key : String}
      {object : ObjectType} : Position plan root outer type path → type.bare = .named name →
      RuntimeType plan.schema name object → plan.Selects object (setsOf outer.nodes) key site →
      Position plan root site site.field.type (path ++ [.key key])

/-- A value may be handed to completion at a position: at the type that is declared for it, or at
that type without some of its non-null wrappers. -/
def Hands (plan : Plan τ) (root : ObjectType) (site : Site) (type : TypeRef) (path : Path) : Prop :=
  ∃ full, plan.Position root site full path ∧ full.bare = type.bare

section Positions
variable {plan : Plan τ} {root : ObjectType} {site : Site} {type : TypeRef} {path : Path}

theorem Position.hands (position : plan.Position root site type path) :
    plan.Hands root site type path := ⟨type, position, rfl⟩

theorem Hands.inner {inner : TypeRef} (hands : plan.Hands root site (.nonNull inner) path) :
    plan.Hands root site inner path := hands

theorem Hands.item {item : TypeRef} (hands : plan.Hands root site (.list item) path) (index : Nat) :
    plan.Hands root site item (path ++ [.index index]) := by
  obtain ⟨full, position, bare⟩ := hands
  exact (position.item index bare).hands

/-- The objects of values that are handed to completion are answered at positions. -/
theorem Hands.field {name key : String} {object : ObjectType} {inner : Site}
    (hands : plan.Hands root site (.named name) path) (runtime : RuntimeType plan.schema name object)
    (selects : plan.Selects object (setsOf site.nodes) key inner) :
    plan.Position root inner inner.field.type (path ++ [.key key]) := by
  obtain ⟨full, position, bare⟩ := hands
  exact position.field bare runtime selects

/-- A name within the wrappers of a type that is inside those of the field's type. -/
theorem Places.named {name : String} (places : plan.Places root site type)
    (bare : type.bare = .named name) : name = site.field.type.innermost := by
  rw [← places.2, ← type.innermost_bare, bare]
  rfl

/-- At a position a field is resolved, and the type is inside the wrappers of its type. -/
theorem Position.places (position : plan.Position root site type path) :
    plan.Places root site type := by
  induction position with
  | root selects =>
    obtain ⟨rfl, collected, defined⟩ := selects
    exact ⟨⟨_, _, .root, collected, defined⟩, rfl⟩
  | @item _ type item _ _ _ bare ih =>
    refine ⟨ih.1, ?_⟩
    rw [← ih.2, ← type.innermost_bare, bare]
    rfl
  | field _ bare runtime selects ih =>
    obtain ⟨rfl, collected, defined⟩ := selects
    rw [ih.named bare] at runtime
    exact ⟨⟨_, _, reaches_of_resolves ih.1 runtime, collected, defined⟩, rfl⟩

theorem Position.path_ne_nil (position : plan.Position root site type path) : path ≠ [] := by
  cases position <;> simp

/-- An item is one of a list at the position above. -/
theorem Position.of_index {index : Nat}
    (position : plan.Position root site type (path ++ [.index index])) :
    ∃ full, plan.Position root site full path ∧ full.bare = .list type := by
  generalize same : path ++ [.index index] = whole at position
  cases position with
  | @root key _ _ =>
    have last : path ++ [.index index] = [] ++ [.key key] := same
    cases (List.append_inj' last rfl).2
  | item _ position bare =>
    obtain ⟨rfl, -⟩ := List.append_inj' same rfl
    exact ⟨_, position, bare⟩
  | field _ _ _ _ => cases (List.append_inj' same rfl).2

/-- A field is one of the root object, or of an object at the position above. -/
theorem Position.of_key {key : String}
    (position : plan.Position root site type (path ++ [.key key])) : type = site.field.type ∧
      (path = [] ∧ plan.Selects root [plan.operation.selectionSet] key site ∨
        ∃ outer full name object, plan.Position root outer full path ∧ full.bare = .named name ∧
          RuntimeType plan.schema name object ∧
          plan.Selects object (setsOf outer.nodes) key site) := by
  generalize same : path ++ [.key key] = whole at position
  cases position with
  | @root own _ selects =>
    have last : path ++ [.key key] = [] ++ [.key own] := same
    obtain ⟨rfl, last⟩ := List.append_inj' last rfl
    cases last
    exact ⟨rfl, .inl ⟨rfl, selects⟩⟩
  | item _ _ _ => cases (List.append_inj' same rfl).2
  | field position bare runtime selects =>
    obtain ⟨rfl, last⟩ := List.append_inj' same rfl
    cases last
    exact ⟨rfl, .inr ⟨_, _, _, _, position, bare, runtime, selects⟩⟩

end Positions
end Plan

theorem mem_sites_selects {executor : Executor τ σ} {object : ObjectType} {sets : List SelectionSet}
    {key : String} {site : Site} :
    (key, site) ∈ executor.sites object (executor.plan.collect object sets) ↔
      executor.plan.Selects object sets key site := by
  rw [mem_sites]
  constructor
  · rintro ⟨parent, collected, defined⟩
    exact ⟨parent, collected, defined⟩
  · rintro ⟨parent, collected, defined⟩
    exact ⟨parent, collected, defined⟩

/-- A completion that waits for values of positions only. -/
inductive Completion.Placed (plan : Plan τ) (root : ObjectType) : Completion τ → Prop
  | settled (outcome : Outcome) : Placed plan root (.settled outcome)
  | awaiting {later : Later τ} {site : Site} {type : TypeRef} {path : Path} :
      plan.Hands root site type path → Placed plan root (.awaiting later site type path)
  | required {site : Site} {path : Path} {inner : Completion τ} : Placed plan root inner →
      Placed plan root (.required site path inner)
  | guarded {inner : Completion τ} : Placed plan root inner → Placed plan root (.guarded inner)
  | joined {shape : Shape} {parts : List (Completion τ)} {turns : Turns} :
      (∀ part ∈ parts, Placed plan root part) → Placed plan root (.joined shape parts turns)

section Placed
variable {plan : Plan τ} {root : ObjectType} {completion : Completion τ}

theorem require_placed (site : Site) (path : Path) (placed : completion.Placed plan root) :
    (completion.require site path).Placed plan root := by
  cases placed with
  | settled outcome => exact .settled _
  | awaiting hands => exact .required (.awaiting hands)
  | required inner => exact .required (.required inner)
  | guarded inner => exact .required (.guarded inner)
  | joined each => exact .required (.joined each)

theorem gather_placed (shape : Shape) {parts : List (Completion τ)} (turns : Turns)
    (each : ∀ part ∈ parts, part.Placed plan root) :
    (Completion.gather shape parts turns).Placed plan root := by
  rw [Completion.gather]
  split
  · exact .settled _
  · exact .joined each

theorem guard_placed {I : σ → Prop} (placed : completion.Placed plan root) :
    Ensures I completion.guard fun after _ => after.Placed plan root := by
  cases placed with
  | settled outcome =>
    rw [Completion.guard]
    cases outcome with
    | ok value => exact .pure (.settled _)
    | error error =>
      rw [absorb, bind_assoc]
      exact (record_ensures error).bind fun _ _ _ => .pure (.settled _)
  | awaiting hands => exact .pure (.guarded (.awaiting hands))
  | required inner => exact .pure (.guarded (.required inner))
  | guarded inner => exact .pure (.guarded (.guarded inner))
  | joined each => exact .pure (.guarded (.joined each))

theorem guardAt_placed {I : σ → Prop} (type : TypeRef) (placed : completion.Placed plan root) :
    Ensures I (completion.guardAt type) fun after _ => after.Placed plan root := by
  rw [Completion.guardAt]
  split
  · exact .pure placed
  · exact guard_placed placed

end Placed
end GraphQL.Execution
