import GraphQL.Validation.Rule

/-! Directives are defined by the schema and stand where they may. -/
namespace GraphQL.Validation.Rule

/-- The place of the directives on a node. -/
def placeOf : Ast.Node → Option DirectiveLocation
  | .operation operation =>
      match operation.operation with
      | .query => some .query
      | .mutation => some .mutation
      | .subscription => some .subscription
  | .field _ => some .field
  | .spread _ => some .fragmentSpread
  | .inline _ => some .inlineFragment
  | .fragment _ => some .fragmentDefinition
  | _ => none

def knownDirectives : Rule Finding :=
  ofCheck "KnownDirectives" fun site =>
    match site.node with
    | .directive directive =>
        let name := directive.name.text
        match site.schema.directive? name with
        | none => .report [.violation (.unknownDirective name) [directive.span]]
        | some definition =>
            let place := site.ancestors.head?.bind placeOf
            if place.any definition.locations.contains then .proceed
            else .report [.violation (.misplacedDirective name place) [directive.span]]
    | _ => .proceed

end GraphQL.Validation.Rule
