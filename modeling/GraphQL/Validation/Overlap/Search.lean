import GraphQL.Validation.Overlap.Expansion
import GraphQL.Validation.Violation

/-! The search for fields that cannot be merged. Two fields under one response key conflict
if they may apply to the same object and differ in name or arguments, if their types differ
in shape, or if their own selections conflict. Fragments are compared with each other once,
which the search remembers; fields are compared with every fragment spread beside them. -/
namespace GraphQL.Validation.Overlap
open Ast (SelectionSet FragmentDefinition Document)

/-- Two names in either order are one pair. -/
structure Pair where
  first : String
  second : String
  /-- Whether the fragments have been compared under parents that exclude each other only. -/
  exclusive : Bool

namespace Pair

def joins (pair : Pair) (a b : String) : Bool :=
  (pair.first == a && pair.second == b) || (pair.first == b && pair.second == a)

end Pair

/-- The pairs of fragments that have been compared. -/
abbrev Compared := List Pair

namespace Compared

/-- Whether a comparison is covered. One under parents that may be the same object covers
one under parents that exclude each other, and not the other way round. -/
def covers (compared : Compared) (a b : String) (exclusive : Bool) : Bool :=
  compared.any fun pair => pair.joins a b && (exclusive || !pair.exclusive)

def add (compared : Compared) (a b : String) (exclusive : Bool) : Compared :=
  ⟨a, b, exclusive⟩ :: compared

end Compared

/-- A search remembers the fragments it has compared; it fails where it comes to no end. -/
abbrev Search := StateT Compared Option

/-- Runs a search for each item and joins what it finds. -/
def forEach {α β : Type} (items : List α) (search : α → Search (List β)) : Search (List β) :=
  match items with
  | [] => return []
  | item :: rest => do
      let first ← search item
      let others ← forEach rest search
      return first ++ others

/-- Whether two lists of arguments give the same values under the same names. -/
def sameArguments (first second : List Ast.Argument) : Bool :=
  first.length == second.length && first.all fun argument =>
    match second.find? fun other => other.name.text == argument.name.text with
    | some other => argument.value.text == other.value.text
    | none => false

/-- Whether values of two types cannot stand in one place of a response. -/
def typesConflict (schema : Schema) : TypeRef → TypeRef → Bool
  | .list a, .list b => typesConflict schema a b
  | .list _, _ | _, .list _ => true
  | .nonNull a, .nonNull b => typesConflict schema a b
  | .nonNull _, _ | _, .nonNull _ => true
  | .named a, .named b =>
      let isLeaf (name : String) : Bool := (schema.type? name).any TypeDef.isLeaf
      (isLeaf a || isLeaf b) && a != b

/-- Whether two types are object types and not the same one. -/
def differentObjects : Option TypeDef → Option TypeDef → Bool
  | some (.object a), some (.object b) => a.name != b.name
  | _, _ => false

/-- Why two fields conflict by themselves, if they do. -/
def ownReason? (schema : Schema) (exclusive : Bool) (a b : Selected) : Option Reason :=
  if !exclusive && a.node.name.text != b.node.name.text then
    some (.differentFields a.node.name.text b.node.name.text)
  else if !exclusive && !sameArguments a.node.arguments b.node.arguments then
    some .differingArguments
  else
    match a.type, b.type with
    | some s, some t => if typesConflict schema s t then some (.conflictingTypes s t) else none
    | _, _ => none

/-- The conflict of two fields whose selections conflict. -/
def ofSubfields (key : String) (a b : Ast.Field) (conflicts : List Conflict) : List Conflict :=
  if conflicts.isEmpty then []
  else
    [⟨key, .subfields conflicts, a :: conflicts.flatMap Conflict.first,
      b :: conflicts.flatMap Conflict.second⟩]

/-- Compares the fields of two sets that stand under the same keys. -/
def between (compare : String → Selected → Selected → Search (List Conflict))
    (first second : Groups Selected) : Search (List Conflict) :=
  forEach first fun (key, fields) =>
    forEach fields fun a => forEach (second.get key) fun b => compare key a b

/-- Compares the fields of one set that stand under the same key. -/
def pairs (compare : Selected → Selected → Search (List Conflict)) :
    List Selected → Search (List Conflict)
  | [] => return []
  | a :: rest => do
      let first ← forEach rest (compare a)
      let others ← pairs compare rest
      return first ++ others

def within (compare : String → Selected → Selected → Search (List Conflict))
    (fields : Groups Selected) : Search (List Conflict) :=
  forEach fields fun (key, fields) => pairs (compare key) fields

/-- Compares the fields of a set with the fragments that stand beside other fields. -/
def withFragments (schema : Schema)
    (compare : String → Selected → Selected → Search (List Conflict))
    (fields : Groups Selected) (fragments : List FragmentDefinition) : Search (List Conflict) :=
  forEach fragments fun fragment =>
    between compare fields (Expansion.ofFragment schema fragment).fields

mutual

/-- The conflict of two fields under one key. `exclusive` says that their parents can never
be the same object. -/
def conflict (schema : Schema) (document : Document) :
    Nat → (exclusive : Bool) → String → Selected → Selected → Search (List Conflict)
  | 0, _, _, _, _ => failure
  | fuel + 1, exclusive, key, a, b => do
      let exclusive := exclusive || differentObjects a.parent b.parent
      match ownReason? schema exclusive a b with
      | some reason => return [⟨key, reason, [a.node], [b.node]⟩]
      | none =>
          match a.node.selectionSet, b.node.selectionSet with
          | some s, some t =>
              let first := Expansion.ofSet schema (a.type.bind schema.named?) s
              let second := Expansion.ofSet schema (b.type.bind schema.named?) t
              let compare := conflict schema document fuel exclusive
              let own ← between compare first.fields second.fields
              let left ← withFragments schema compare first.fields
                (beside document.fragments second.spreads)
              let right ← withFragments schema compare second.fields
                (beside document.fragments first.spreads)
              let both ← forEach first.spreads fun name =>
                forEach second.spreads fun other => fragments schema document fuel exclusive name other
              return ofSubfields key a.node b.node (own ++ left ++ right ++ both)
          | _, _ => return []

/-- The conflicts between the fields of two fragments and of those spread beside them. -/
def fragments (schema : Schema) (document : Document) :
    Nat → (exclusive : Bool) → String → String → Search (List Conflict)
  | 0, _, _, _ => failure
  | fuel + 1, exclusive, a, b => do
      if a = b || (← get).covers a b exclusive then return []
      modify fun compared => compared.add a b exclusive
      match document.fragment? a, document.fragment? b with
      | some f, some g =>
          let first := Expansion.ofFragment schema f
          let second := Expansion.ofFragment schema g
          let own ← between (conflict schema document fuel exclusive) first.fields second.fields
          let left ← forEach second.spreads fun name =>
            fragments schema document fuel exclusive a name
          let right ← forEach first.spreads fun name =>
            fragments schema document fuel exclusive name b
          return own ++ left ++ right
      | _, _ => return []

end

/-- Compares the fragments spread beside the fields of a set: each with the fields, and with
the fragments after it. -/
def besideConflicts (schema : Schema) (document : Document) (fuel : Nat)
    (unmet : List FragmentDefinition) (fields : Groups Selected) :
    List String → Search (List Conflict)
  | [] => return []
  | name :: rest => do
      let own ← withFragments schema (conflict schema document fuel false) fields
        (beside unmet [name])
      let others ← forEach rest fun other => fragments schema document fuel false name other
      let later ← besideConflicts schema document fuel unmet fields rest
      return own ++ others ++ later

/-- The conflicts of a selection set. If the set is that of a fragment, `owner` is the name of
the fragment, which is then not compared with itself. -/
def conflicts (schema : Schema) (document : Document) (fuel : Nat) (owner : Option String)
    (parent : Option TypeDef) (set : SelectionSet) : Search (List Conflict) := do
  let expansion := Expansion.ofSet schema parent set
  let unmet := document.fragments.filter fun fragment => owner != some fragment.name.text
  let own ← within (conflict schema document fuel false) expansion.fields
  let others ← besideConflicts schema document fuel unmet expansion.fields expansion.spreads
  return own ++ others

end GraphQL.Validation.Overlap
