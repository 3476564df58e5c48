import GraphQL.Ast.Fragments
import GraphQL.Validation.Rule

/-! Fragments must not spread themselves, directly or through others. Fragments are explored
depth first, each at most once, and a spread of a fragment that is being explored closes a
cycle. -/
namespace GraphQL.Validation
open Ast (FragmentDefinition FragmentSpread)

namespace FragmentCycle

/-- What is left to do in an exploration. -/
inductive Task where
  | follow (spread : FragmentSpread)
  /-- All spreads of the fragment entered last have been followed. -/
  | close

/-- The cycle that a spread closes: the spreads along it, the closing one last. The path
holds the spreads that led here from the root, the last one first. -/
def closedBy (path : List FragmentSpread) (spread : FragmentSpread) : List FragmentSpread :=
  (path.takeWhile fun step => step.target != spread.target).reverse ++ [spread]

/-- Whether a fragment is being explored. -/
def isOpen (root : String) (path : List FragmentSpread) (name : String) : Bool :=
  name == root || path.any fun step => step.target == name

def tasks (fragment : FragmentDefinition) : List Task :=
  fragment.selectionSet.spreads.map .follow

/-- Explores from a root. Answers with the cycles found and the fragments not yet visited. -/
def explore (root : String) (unvisited : List FragmentDefinition) (path : List FragmentSpread) :
    List Task → List (List FragmentSpread) × List FragmentDefinition
  | [] => ([], unvisited)
  | .close :: rest => explore root unvisited path.tail rest
  | .follow spread :: rest =>
      if isOpen root path spread.target then
        let (cycles, left) := explore root unvisited path rest
        (closedBy path spread :: cycles, left)
      else
        match _found : FragmentDefinition.take? unvisited spread.target with
        | none => explore root unvisited path rest
        | some (fragment, others) =>
            explore root others (spread :: path) (tasks fragment ++ .close :: rest)
termination_by todo => (unvisited.length, todo.length)
decreasing_by
  all_goals first
    | exact Prod.Lex.right _ (by simp)
    | exact Prod.Lex.left _ _ (FragmentDefinition.length_of_take? _found)

/-- A cycle is named after the fragment that it leads back to. -/
def finding (cycle : List FragmentSpread) : Finding :=
  let names := cycle.map FragmentSpread.target
  .violation (.fragmentCycle (names.getLastD "") names.dropLast)
    (cycle.map FragmentSpread.span)

end FragmentCycle

/-- No fragment spreads itself. -/
def Rule.noFragmentCycles : Rule Finding where
  name := "NoFragmentCycles"
  /- The fragments that have not been visited. -/
  State := List FragmentDefinition
  start := []
  enter site unvisited :=
    match site.node with
    | .document document => (.proceed, document.fragments)
    | .operation _ => (.skip, unvisited)
    | .fragment fragment =>
        match FragmentDefinition.take? unvisited fragment.name.text with
        | none => (.skip, unvisited)
        | some (_, others) =>
            let (cycles, left) :=
              FragmentCycle.explore fragment.name.text others [] (FragmentCycle.tasks fragment)
            (⟨cycles.map FragmentCycle.finding, .skip⟩, left)
    | _ => (.proceed, unvisited)
  leave _ unvisited := (.proceed, unvisited)

end GraphQL.Validation
