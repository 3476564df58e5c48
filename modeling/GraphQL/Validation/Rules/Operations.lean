import GraphQL.Validation.Rule

/-! Rules about the operations of a document. -/
namespace GraphQL.Validation.Rule

/-- An operation without a name stands alone. -/
def loneAnonymousOperation : Rule Finding :=
  ofCheck "LoneAnonymousOperation" fun site =>
    match site.node with
    | .operation operation =>
        if operation.name.isNone && site.document.operations.length > 1 then
          ⟨[.violation .anonymousOperationNotAlone [operation.span]], .skip⟩
        else .skip
    | .fragment _ => .skip
    | _ => .proceed

/-- A subscription has a single selection. What is too much is where the problem lies. -/
def singleFieldSubscriptions : Rule Finding :=
  ofCheck "SingleFieldSubscriptions" fun site =>
    match site.node with
    | .operation operation =>
        let violation := Violation.subscriptionFields (operation.name.map Ast.Name.text)
        match operation.operation, operation.selectionSet.selections with
        | .subscription, [] => ⟨[.violation violation [operation.span]], .skip⟩
        | .subscription, _ :: second :: rest =>
            ⟨[.violation violation ((second :: rest).map Ast.Selection.span)], .skip⟩
        | _, _ => .skip
    | .fragment _ => .skip
    | _ => .proceed

end GraphQL.Validation.Rule
