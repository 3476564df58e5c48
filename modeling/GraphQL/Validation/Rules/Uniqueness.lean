import GraphQL.Validation.Rule

/-! Rules about names that must not be given twice. A repetition is reported together with
the place where the name was given first. -/
namespace GraphQL.Validation

/-- The names met so far, each with the place where it was met first. -/
abbrev Seen := List (String × Option Span)

namespace Seen

/-- Remembers a name that is met, or reports that it was met before. -/
def meet (seen : Seen) (name : String) (span : Option Span) (repeated : String → Violation) :
    List Finding × Seen :=
  match seen.lookup name with
  | some first => ([.violation (repeated name) [first, span]], seen)
  | none => ([], (name, span) :: seen)

/-- The repetitions in a list of names. -/
def repetitions (repeated : String → Violation) :
    Seen → List (String × Option Span) → List Finding
  | _, [] => []
  | seen, (name, span) :: rest =>
      let (findings, seen) := seen.meet name span repeated
      findings ++ repetitions repeated seen rest

end Seen

namespace Rule

/-- A rule that remembers names on its way. -/
def ofSeen (name : String) (enter : Site → Seen → Verdict Finding × Seen) : Rule Finding where
  name := name
  State := Seen
  start := []
  enter := enter
  leave _ seen := (.proceed, seen)

def uniqueOperationNames : Rule Finding :=
  ofSeen "UniqueOperationNames" fun site seen =>
    match site.node with
    | .operation operation =>
        match operation.name with
        | some name =>
            let (findings, seen) := seen.meet name.text name.span .repeatedOperation
            (⟨findings, .skip⟩, seen)
        | none => (.skip, seen)
    | .fragment _ => (.skip, seen)
    | _ => (.proceed, seen)

def uniqueFragmentNames : Rule Finding :=
  ofSeen "UniqueFragmentNames" fun site seen =>
    match site.node with
    | .fragment fragment =>
        let (findings, seen) := seen.meet fragment.name.text fragment.name.span .repeatedFragment
        (⟨findings, .skip⟩, seen)
    | .operation _ => (.skip, seen)
    | _ => (.proceed, seen)

def uniqueVariableNames : Rule Finding :=
  ofSeen "UniqueVariableNames" fun site seen =>
    match site.node with
    | .operation _ => (.proceed, [])
    | .variableDefinition definition =>
        let (findings, seen) :=
          seen.meet definition.target.name.text definition.target.span .repeatedVariable
        (.report findings, seen)
    | _ => (.proceed, seen)

def uniqueArgumentNames : Rule Finding :=
  ofSeen "UniqueArgumentNames" fun site seen =>
    match site.node with
    | .field _ | .directive _ => (.proceed, [])
    | .argument argument =>
        let (findings, seen) := seen.meet argument.name.text argument.name.span .repeatedArgument
        (⟨findings, .skip⟩, seen)
    | _ => (.proceed, seen)

/-- Each object literal has names of its own. -/
def uniqueInputFieldNames : Rule Finding where
  name := "UniqueInputFieldNames"
  State := List Seen
  start := []
  enter site scopes :=
    match site.node with
    | .value (.object _ _) => (.proceed, [] :: scopes)
    | .objectField field =>
        let (findings, seen) :=
          Seen.meet (scopes.headD []) field.name.text field.name.span .repeatedInputField
        (.report findings, seen :: scopes.tail)
    | _ => (.proceed, scopes)
  leave site scopes :=
    match site.node with
    | .value (.object _ _) => (.proceed, scopes.tail)
    | _ => (.proceed, scopes)

/-- The directives written on a node. -/
def directivesOf : Ast.Node → List Ast.Directive
  | .operation n => n.directives
  | .field n => n.directives
  | .spread n => n.directives
  | .inline n => n.directives
  | .fragment n => n.directives
  | _ => []

def uniqueDirectivesPerLocation : Rule Finding :=
  ofCheck "UniqueDirectivesPerLocation" fun site =>
    .report (Seen.repetitions .repeatedDirective []
      ((directivesOf site.node).map fun directive => (directive.name.text, directive.span)))

end Rule
end GraphQL.Validation
