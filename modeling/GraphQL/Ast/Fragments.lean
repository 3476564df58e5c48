import GraphQL.Ast.Document

/-! Fragments and their spreads: which fragments a selection set names, and which of them it
reaches through others. -/
namespace GraphQL.Ast

def Selection.spread? : Selection → Option FragmentSpread
  | .spread s => some s
  | _ => none

mutual

/-- The spreads of a selection set: first its own, then those of the sets in it, the last
set first. Other fragments are not looked into. -/
def SelectionSet.spreads : SelectionSet → List FragmentSpread
  | ⟨selections, _⟩ => selections.filterMap Selection.spread? ++ Selection.spreadsBelow selections

def Selection.spreadsBelow : List Selection → List FragmentSpread
  | [] => []
  | selection :: rest => Selection.spreadsBelow rest ++ selection.spreadsInside

def Selection.spreadsInside : Selection → List FragmentSpread
  | .field ⟨_, _, _, _, some selections, _⟩ => selections.spreads
  | .inline ⟨_, _, selections, _⟩ => selections.spreads
  | _ => []

end

def FragmentSpread.target (spread : FragmentSpread) : String := spread.name.text

namespace FragmentDefinition

/-- The first fragment of a name, and the fragments of other names. -/
def take? (fragments : List FragmentDefinition) (name : String) :
    Option (FragmentDefinition × List FragmentDefinition) :=
  (fragments.find? fun fragment => fragment.name.text == name).map fun fragment =>
    (fragment, fragments.filter fun other => other.name.text != name)

theorem length_of_take? {fragments rest : List FragmentDefinition} {name : String}
    {fragment : FragmentDefinition} (h : take? fragments name = some (fragment, rest)) :
    rest.length < fragments.length := by
  obtain ⟨found, hfound, heq⟩ := Option.map_eq_some_iff.1 h
  obtain ⟨rfl, rfl⟩ := Prod.mk.inj heq
  rw [← List.countP_eq_length_filter]
  refine Nat.lt_of_le_of_ne List.countP_le_length fun hall => ?_
  have hname := List.find?_some hfound
  have hother := List.countP_eq_length.1 hall found (List.mem_of_find?_eq_some hfound)
  simp_all

/-- Takes the fragments of several names in turn; a name that is not there is passed over. -/
def takeAll (fragments : List FragmentDefinition) :
    List String → List FragmentDefinition × List FragmentDefinition
  | [] => ([], fragments)
  | name :: names =>
      match take? fragments name with
      | none => takeAll fragments names
      | some (fragment, rest) =>
          let (taken, left) := takeAll rest names
          (fragment :: taken, left)

theorem length_takeAll (names : List String) (fragments : List FragmentDefinition) :
    (takeAll fragments names).1.length + (takeAll fragments names).2.length
      ≤ fragments.length := by
  induction names generalizing fragments with
  | nil => simp [takeAll]
  | cons name names ih =>
    rw [takeAll]
    split
    · exact ih fragments
    · rename_i fragment rest h
      have := ih rest
      have := length_of_take? h
      simp only [List.length_cons]
      omega

/-- The fragments that selection sets reach, each once. `fragments` holds those that have
not been reached yet. The set that was found last is looked into first. -/
def reach (fragments : List FragmentDefinition) :
    List SelectionSet → List FragmentDefinition
  | [] => []
  | set :: pending =>
      let step := takeAll fragments (set.spreads.map FragmentSpread.target)
      step.1 ++ reach step.2 (step.1.reverse.map FragmentDefinition.selectionSet ++ pending)
termination_by pending => fragments.length + pending.length
decreasing_by
  have := length_takeAll (set.spreads.map FragmentSpread.target) fragments
  simp only [List.length_append, List.length_map, List.length_reverse, List.length_cons]
  omega

end FragmentDefinition

/-- The fragments that an operation spreads, directly or not, each once. -/
def Document.fragmentsOf (document : Document) (operation : OperationDefinition) :
    List FragmentDefinition :=
  FragmentDefinition.reach document.fragments [operation.selectionSet]

end GraphQL.Ast
