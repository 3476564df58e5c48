import GraphQL.Coercion.Conformance
import GraphQL.Validation.Rule

/-! Rules about the arguments of fields and directives. -/
namespace GraphQL.Validation.Rule

def similarArguments (name : String) (declared : List InputValue) : List String :=
  Suggestion.closest name (declared.map InputValue.name)

/-- Arguments are declared. Arguments of what is itself unknown are passed over. -/
def knownArgumentNames : Rule Finding :=
  ofCheck "KnownArgumentNames" fun site =>
    match site.node, site.scope.argument with
    | .argument argument, none =>
        let name := argument.name.text
        match site.ancestors.head?, site.scope.field, site.scope.parent, site.scope.directive with
        | some (.field _), some field, some parent, _ =>
            let suggestions := similarArguments name field.arguments.items
            .report [.violation (.unknownFieldArgument name field.name parent.name suggestions)
              [argument.span]]
        | some (.directive _), _, _, some directive =>
            let suggestions := similarArguments name directive.arguments
            .report [.violation (.unknownDirectiveArgument name directive.name suggestions)
              [argument.span]]
        | _, _, _, _ => .proceed
    | _, _ => .proceed

/-- Arguments have values of their type. -/
def argumentsOfCorrectType : Rule Finding :=
  ofCheck "ArgumentsOfCorrectType" fun site =>
    match site.node with
    | .argument argument =>
        match site.scope.argument with
        | some declared =>
            let problems := site.schema.literalProblems declared.type argument.value
            if problems.isEmpty then .skip
            else
              ⟨[.violation (.invalidArgument argument.name.text argument.value problems)
                [argument.value.span]], .skip⟩
        | none => .skip
    | _ => .proceed

/-- The arguments that have to be given and are not. -/
def missing (declared : List InputValue) (given : List Ast.Argument) : List InputValue :=
  declared.filter fun argument =>
    argument.type.isNonNull && argument.default.isNone
      && !given.any fun other => other.name.text == argument.name

/-- Arguments that cannot be null and have no default are given. -/
def providedNonNullArguments : Rule Finding :=
  ofCheck "ProvidedNonNullArguments" (fun _ => .proceed) fun site =>
    match site.node with
    | .field field =>
        .report ((site.scope.field.elim [] fun definition =>
          missing definition.arguments.items field.arguments).map fun argument =>
            .violation (.missingFieldArgument field.name.text argument.name argument.type)
              [field.span])
    | .directive directive =>
        .report ((site.scope.directive.elim [] fun definition =>
          missing definition.arguments directive.arguments).map fun argument =>
            .violation (.missingDirectiveArgument directive.name.text argument.name argument.type)
              [directive.span])
    | _ => .proceed

end GraphQL.Validation.Rule
