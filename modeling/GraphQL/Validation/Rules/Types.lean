import GraphQL.Validation.Rule

/-! Rules about the types that a document names. -/
namespace GraphQL.Validation.Rule

/-- Types are in the schema. -/
def knownTypeNames : Rule Finding :=
  ofCheck "KnownTypeNames" fun site =>
    match site.node with
    | .namedType type =>
        let name := type.name.text
        match site.schema.type? name with
        | some _ => .proceed
        | none =>
            let suggestions := Suggestion.closest name (site.schema.types.map TypeDef.name)
            .report [.violation (.unknownType name suggestions) [type.span]]
    | .typeSystem _ => .skip
    | _ => .proceed

def fragmentCondition (site : Site) (fragment : Option String) (condition : Ast.NamedType) :
    Verdict Finding :=
  match site.schema.type? condition.name.text with
  | some type =>
      if type.isComposite then .proceed
      else .report [.violation (.fragmentOnLeaf fragment condition.name.text) [condition.span]]
  | none => .proceed

/-- Fragments select from types that have selections. -/
def fragmentsOnCompositeTypes : Rule Finding :=
  ofCheck "FragmentsOnCompositeTypes" fun site =>
    match site.node with
    | .inline inline =>
        inline.typeCondition.elim .proceed fun condition => fragmentCondition site none condition
    | .fragment fragment =>
        fragmentCondition site (some fragment.name.text) fragment.typeCondition
    | _ => .proceed

/-- Variables have types that can be given from outside. -/
def variablesAreInputTypes : Rule Finding :=
  ofCheck "VariablesAreInputTypes" fun site =>
    match site.node with
    | .variableDefinition definition =>
        match site.schema.type? definition.type.innermost.name.text with
        | some type =>
            if type.isInput then .proceed
            else
              .report [.violation
                (.variableOfOutputType definition.target.name.text definition.type.text)
                [definition.type.span]]
        | none => .proceed
    | _ => .proceed

end GraphQL.Validation.Rule
