import GraphQL.Execution.Request
import GraphQL.Parser.TypeSystem
import GraphQL.Validation.Basic

/-! A service answers texts: it parses a request, checks it, and executes it. -/
namespace GraphQL

def SyntaxError.responseError (error : SyntaxError) : ResponseError :=
  { message := error.message, locations := [error.location] }

/-- The document of a text, or the errors for which it cannot be executed; `none` if checking
it comes to no end. -/
def Schema.accept (schema : Schema) (text : String) :
    Option (Except (List ResponseError) Ast.Document) :=
  match Source.parseDocument { body := text } with
  | .error error => some (.error [error.responseError])
  | .ok document =>
      (schema.validate document).map fun problems =>
        if problems.isEmpty then .ok document else .error (problems.map Validation.Problem.error)

/-- Answers a request given as text. -/
def Schema.answer {τ σ : Type} (schema : Schema) (limits : Execution.Limits) (host : Execution.Host τ σ)
    (text : String) (inputs : Entries Value) (operationName : Option String) (state : σ) :
    Option (Response × σ) :=
  match schema.accept text with
  | none => none
  | some (.error errors) => some (.refusal errors, state)
  | some (.ok document) =>
      Execution.execute limits schema host { document, operationName, inputs } state

end GraphQL
