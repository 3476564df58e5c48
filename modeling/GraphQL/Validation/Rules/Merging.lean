import GraphQL.Validation.Overlap.Search
import GraphQL.Validation.Rule

/-! Fields that share a response key can be merged. -/
namespace GraphQL.Validation
open Ast (Node Document)

namespace Overlap

def isField : Node → Bool
  | .field _ => true
  | _ => false

/-- How deep the search of a document can go and still end. A search that goes deeper has met
one pair of fields twice without comparing any new fragments, and would meet it forever. -/
def depth (document : Document) : Nat :=
  let fields := ((Node.document document).tree.preorder.filter isField).length
  let fragments := document.fragments.length
  (fragments * fragments + 1) * (2 * fields * fields + 1) + 1

/-- What the rule remembers: the fragments it has compared and the names of those it has
entered. -/
structure Memory where
  compared : Compared := []
  entered : List String := []

/-- The fragment that a set belongs to; of several fragments of one name only the first one
counts. -/
def owner? (memory : Memory) (ancestors : List Node) : Option String :=
  match ancestors.head? with
  | some (.fragment fragment) =>
      if memory.entered.count fragment.name.text == 1 then some fragment.name.text else none
  | _ => none

def finding (conflict : Conflict) : Finding :=
  .violation (.conflictingFields conflict.key conflict.reason)
    ((conflict.first ++ conflict.second).map Ast.Field.span)

end Overlap

open Overlap in
def Rule.overlappingFieldsCanBeMerged : Rule Finding where
  name := "OverlappingFieldsCanBeMerged"
  State := Memory
  start := {}
  enter site memory :=
    match site.node with
    | .fragment fragment =>
        (.proceed, { memory with entered := fragment.name.text :: memory.entered })
    | .selectionSet set =>
        let search := conflicts site.schema site.document (depth site.document)
          (owner? memory site.ancestors) site.scope.parent set
        match search.run memory.compared with
        | some (found, compared) => (.report (found.map finding), { memory with compared })
        | none => (⟨[.endless], .stop⟩, memory)
    | _ => (.proceed, memory)
  leave _ memory := (.proceed, memory)

end GraphQL.Validation
