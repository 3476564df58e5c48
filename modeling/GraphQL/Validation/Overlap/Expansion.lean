import GraphQL.Groups
import GraphQL.Ast.Fragments
import GraphQL.Schema.Fields

/-! The fields of a selection set under their response keys, as the search for conflicts
sees them: inline fragments are opened, spreads are kept as names. -/
namespace GraphQL.Validation.Overlap
open Ast (SelectionSet Selection FragmentDefinition Document)

/-- A selected field with the type that it is selected from and its definition there. -/
structure Selected where
  parent : Option TypeDef
  node : Ast.Field
  definition : Option Field

namespace Selected

def type (selected : Selected) : Option TypeRef := selected.definition.map Field.type

end Selected

mutual

/-- The fields of a selection set on a parent type. -/
def fieldsOf (schema : Schema) (parent : Option TypeDef) : SelectionSet → List Selected
  | ⟨selections, _⟩ => fieldsIn schema parent selections

def fieldsIn (schema : Schema) (parent : Option TypeDef) : List Selection → List Selected
  | [] => []
  | selection :: rest => fieldsBy schema parent selection ++ fieldsIn schema parent rest

def fieldsBy (schema : Schema) (parent : Option TypeDef) : Selection → List Selected
  | .field node => [⟨parent, node, parent.bind fun type => schema.field? type node.name.text⟩]
  | .spread _ => []
  | .inline ⟨some condition, _, selections, _⟩ =>
      fieldsOf schema (schema.type? condition.name.text) selections
  | .inline ⟨none, _, selections, _⟩ => fieldsOf schema parent selections

end

mutual

/-- The fragments that a selection set spreads beside its fields. -/
def spreadsOf : SelectionSet → List String
  | ⟨selections, _⟩ => spreadsIn selections

def spreadsIn : List Selection → List String
  | [] => []
  | selection :: rest => spreadsBy selection ++ spreadsIn rest

def spreadsBy : Selection → List String
  | .field _ => []
  | .spread spread => [spread.name.text]
  | .inline ⟨_, _, selections, _⟩ => spreadsOf selections

end

/-- The fields of a selection set by response key, and the fragments spread beside them. -/
structure Expansion where
  fields : Groups Selected
  spreads : List String

namespace Expansion

def ofSet (schema : Schema) (parent : Option TypeDef) (set : SelectionSet) : Expansion where
  fields := Groups.ofList (fun selected => selected.node.responseKey) (fieldsOf schema parent set)
  spreads := (spreadsOf set).eraseDups

def ofFragment (schema : Schema) (fragment : FragmentDefinition) : Expansion :=
  ofSet schema (schema.type? fragment.typeCondition.name.text) fragment.selectionSet

end Expansion

/-- The fragments that stand beside fields through spreads of the given names, in the order
in which they are met depth first, each once. -/
def beside (unmet : List FragmentDefinition) : List String → List FragmentDefinition
  | [] => []
  | name :: rest =>
      match _found : FragmentDefinition.take? unmet name with
      | none => beside unmet rest
      | some (fragment, others) =>
          fragment :: beside others ((spreadsOf fragment.selectionSet).eraseDups ++ rest)
termination_by names => (unmet.length, names.length)
decreasing_by
  · exact Prod.Lex.right _ (by simp)
  · exact Prod.Lex.left _ _ (FragmentDefinition.length_of_take? _found)

end GraphQL.Validation.Overlap
