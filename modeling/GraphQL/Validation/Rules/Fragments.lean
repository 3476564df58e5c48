import GraphQL.Ast.Fragments
import GraphQL.Validation.Rule

/-! Rules about fragments and where they are spread. -/
namespace GraphQL.Validation.Rule

/-- Spreads name fragments of the document. -/
def knownFragmentNames : Rule Finding :=
  ofCheck "KnownFragmentNames" fun site =>
    match site.node with
    | .spread spread =>
        match site.document.fragment? spread.target with
        | some _ => .proceed
        | none => .report [.violation (.unknownFragment spread.target) [spread.name.span]]
    | _ => .proceed

/-- Fragments that no operation reaches. -/
def unusedFragments (document : Ast.Document) : List Ast.FragmentDefinition :=
  let used := (document.operations.flatMap document.fragmentsOf).map fun fragment =>
    fragment.name.text
  document.fragments.filter fun fragment => !used.contains fragment.name.text

/-- Fragments are used by some operation. -/
def noUnusedFragments : Rule Finding :=
  ofCheck "NoUnusedFragments"
    (fun site =>
      match site.node with
      | .operation _ | .fragment _ => .skip
      | _ => .proceed)
    fun site =>
      match site.node with
      | .document document =>
          .report ((unusedFragments document).map fun fragment =>
            .violation (.unusedFragment fragment.name.text) [fragment.span])
      | _ => .proceed

/-- Reports a fragment on a type that no object of the parent type can have. -/
def spreadOf (site : Site) (fragment : Option String) (type : Option TypeDef)
    (span : Option Span) : Verdict Finding :=
  match site.scope.parent, type.filter TypeDef.isComposite with
  | some parent, some type =>
      if site.schema.overlap type parent then .proceed
      else .report [.violation (.impossibleSpread fragment parent.name type.name) [span]]
  | _, _ => .proceed

/-- Some object can have both the type of a fragment and the type around it. -/
def possibleFragmentSpreads : Rule Finding :=
  ofCheck "PossibleFragmentSpreads" fun site =>
    match site.node with
    | .inline inline => spreadOf site none (site.scope.type.bind site.schema.named?) inline.span
    | .spread spread =>
        let fragment := site.document.fragment? spread.target
        let type := fragment.bind fun fragment =>
          site.schema.type? fragment.typeCondition.name.text
        spreadOf site (some spread.target) type spread.span
    | _ => .proceed

end GraphQL.Validation.Rule
