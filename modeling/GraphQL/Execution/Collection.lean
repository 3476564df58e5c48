import GraphQL.Coercion.Literal
import GraphQL.Execution.Host
import GraphQL.Groups
import GraphQL.Ast.Fragments

/-! Which fields a selection set selects from an object: fragments that apply are opened,
each named one at most once, and fields that share a response key are put together. -/
namespace GraphQL.Execution
open Ast (SelectionSet Selection FragmentDefinition)

variable {τ : Type}

namespace Plan

/-- The truth value of the condition of a directive, if the directive is there and has one. -/
def condition (plan : Plan τ) (name : String) (directives : List Ast.Directive) : Option Bool := do
  let directive ← directives.find? fun directive => directive.name.text == name
  let argument ← directive.arguments.find? fun argument => argument.name.text == "if"
  let value ← plan.schema.literalValue plan.bindings argument.value (.nonNull (.named "Boolean"))
  value.boolean?

/-- Whether a selection takes part. A skip outweighs an include. -/
def includes (plan : Plan τ) (directives : List Ast.Directive) : Bool :=
  plan.condition "skip" directives != some true && plan.condition "include" directives != some false

/-- Whether a fragment on a type applies to objects of a type. -/
def applies (plan : Plan τ) (object : ObjectType) (condition : Ast.NamedType) : Bool :=
  let name := condition.name.text
  name == object.name || plan.schema.isPossibleType name object.name

end Plan

/-- What a selection set selects when its inline fragments are opened. -/
inductive Selected where
  | field (node : Ast.Field)
  | spread (fragment : String)

mutual

/-- The fields and spreads of a selection set that take part for an object type. -/
def selected (plan : Plan τ) (object : ObjectType) : SelectionSet → List Selected
  | ⟨selections, _⟩ => selectedIn plan object selections

def selectedIn (plan : Plan τ) (object : ObjectType) : List Selection → List Selected
  | [] => []
  | selection :: rest => selectedBy plan object selection ++ selectedIn plan object rest

def selectedBy (plan : Plan τ) (object : ObjectType) : Selection → List Selected
  | .field node => if plan.includes node.directives then [.field node] else []
  | .spread spread => if plan.includes spread.directives then [.spread spread.name.text] else []
  | .inline ⟨condition, directives, selections, _⟩ =>
      if plan.includes directives && condition.all (plan.applies object) then
        selected plan object selections
      else []

end

/-- The fields that are selected, named fragments included. `unopened` holds the fragments that
have not been opened; one that is met again is passed over. -/
def expand (plan : Plan τ) (object : ObjectType) (unopened : List FragmentDefinition) :
    List Selected → List Ast.Field
  | [] => []
  | .field node :: rest => node :: expand plan object unopened rest
  | .spread name :: rest =>
      match _found : FragmentDefinition.take? unopened name with
      | none => expand plan object unopened rest
      | some (fragment, others) =>
          let inside :=
            if plan.applies object fragment.typeCondition then
              selected plan object fragment.selectionSet
            else []
          expand plan object others (inside ++ rest)
termination_by selections => (unopened.length, selections.length)
decreasing_by
  · exact Prod.Lex.right _ (by simp)
  · exact Prod.Lex.right _ (by simp)
  · exact Prod.Lex.left _ _ (FragmentDefinition.length_of_take? _found)

namespace Plan

/-- The fields that selection sets select together from an object, by response key. Of several
fragments of one name the last one counts. -/
def collect (plan : Plan τ) (object : ObjectType) (sets : List SelectionSet) : Groups Ast.Field :=
  Groups.ofList Ast.Field.responseKey
    (expand plan object plan.fragments.reverse (sets.flatMap (selected plan object)))

end Plan
end GraphQL.Execution
