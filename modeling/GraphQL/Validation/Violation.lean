import GraphQL.Response
import GraphQL.Suggestion
import GraphQL.Printer
import GraphQL.Types.Directive

/-! What can be wrong with a document: the causes that the rules report, and how
each of them is worded. -/
namespace GraphQL.Validation

mutual

/-- Why two selections under one response key cannot be merged. -/
inductive Reason where
  | differentFields (first second : String)
  | differingArguments
  | conflictingTypes (first second : TypeRef)
  | subfields (conflicts : List Conflict)

/-- Selections that stand under one response key and cannot be merged. -/
structure Conflict where
  key : String
  reason : Reason
  first : List Ast.Field
  second : List Ast.Field

end

mutual

def Reason.text : Reason → String
  | .differentFields first second =>
      "'" ++ first ++ "' and '" ++ second ++ "' are different fields"
  | .differingArguments => "they have differing arguments"
  | .conflictingTypes first second =>
      "they return conflicting types '" ++ first.text ++ "' and '" ++ second.text ++ "'"
  | .subfields conflicts => " and ".intercalate (Conflict.texts conflicts)

def Conflict.text : Conflict → String
  | ⟨key, reason, _, _⟩ => "subfields '" ++ key ++ "' conflict because " ++ reason.text

def Conflict.texts : List Conflict → List String
  | [] => []
  | conflict :: rest => conflict.text :: Conflict.texts rest

end

inductive Violation where
  | repeatedOperation (name : String)
  | anonymousOperationNotAlone
  | subscriptionFields (operation : Option String)
  | unknownType (name : String) (suggestions : List String)
  | fragmentOnLeaf (fragment : Option String) (type : String)
  | variableOfOutputType (name type : String)
  | selectionOnLeaf (field : String) (type : TypeRef)
  | missingSelection (field : String) (type : TypeRef)
  | unknownField (name type : String) (types fields : List String)
  | repeatedFragment (name : String)
  | unknownFragment (name : String)
  | unusedFragment (name : String)
  | impossibleSpread (fragment : Option String) (parent type : String)
  | fragmentCycle (name : String) (via : List String)
  | repeatedVariable (name : String)
  | undefinedVariable (name : String) (operation : Option String)
  | unusedVariable (name : String) (operation : Option String)
  | unknownDirective (name : String)
  | misplacedDirective (name : String) (location : Option DirectiveLocation)
  | repeatedDirective (name : String)
  | unknownFieldArgument (name field type : String) (suggestions : List String)
  | unknownDirectiveArgument (name directive : String) (suggestions : List String)
  | repeatedArgument (name : String)
  | invalidArgument (name : String) (value : Ast.Value) (problems : List String)
  | missingFieldArgument (field name : String) (type : TypeRef)
  | missingDirectiveArgument (directive name : String) (type : TypeRef)
  | uselessDefault (name : String) (type : TypeRef)
  | invalidDefault (name : String) (type : TypeRef) (value : Ast.Value) (problems : List String)
  | misusedVariable (name : String) (type expected : TypeRef)
  | conflictingFields (key : String) (reason : Reason)
  | repeatedInputField (name : String)

namespace Violation

def quoted (name : String) : String := "'" ++ name ++ "'"

def didYouMean (suggestions : List String) : String :=
  if suggestions.isEmpty then "" else " Did you mean " ++ Suggestion.quotedOr suggestions ++ "?"

/-- Types that have a field are better suggestions than fields with similar names. -/
def fieldSuggestion (types fields : List String) : String :=
  if types.isEmpty then didYouMean fields
  else " Did you mean to use an inline fragment on " ++ Suggestion.quotedOr types ++ "?"

def inOperation (before : String) : Option String → String
  | some operation => before ++ " operation " ++ quoted operation ++ "."
  | none => "."

def neverOfType (parent type : String) : String :=
  " cannot be spread here as objects of type " ++ quoted parent ++ " can never be of type "
    ++ quoted type ++ "."

def required (argument : String) (type : TypeRef) : String :=
  " argument " ++ quoted argument ++ " of type " ++ quoted type.text
    ++ " is required but not provided."

def message : Violation → String
  | repeatedOperation name => "There can only be one operation named " ++ quoted name ++ "."
  | anonymousOperationNotAlone => "This anonymous operation must be the only defined operation."
  | subscriptionFields operation =>
      (match operation with
        | some name => "Subscription " ++ quoted name
        | none => "Anonymous Subscription")
      ++ " must select only one top level field."
  | unknownType name suggestions => "Unknown type " ++ quoted name ++ "." ++ didYouMean suggestions
  | fragmentOnLeaf fragment type =>
      "Fragment " ++ (fragment.elim "" fun name => quoted name ++ " ")
        ++ "cannot condition on non composite type " ++ quoted type ++ "."
  | variableOfOutputType name type =>
      "Variable '$" ++ name ++ "' cannot be non-input type " ++ quoted type ++ "."
  | selectionOnLeaf field type =>
      "Field " ++ quoted field ++ " of type " ++ quoted type.text
        ++ " must not have a sub selection."
  | missingSelection field type =>
      "Field " ++ quoted field ++ " of type " ++ quoted type.text ++ " must have a sub selection."
  | unknownField name type types fields =>
      "Cannot query field " ++ quoted name ++ " on type " ++ quoted type ++ "."
        ++ fieldSuggestion types fields
  | repeatedFragment name => "There can only be one fragment named " ++ quoted name ++ "."
  | unknownFragment name => "Unknown fragment " ++ quoted name ++ "."
  | unusedFragment name => "Fragment " ++ quoted name ++ " is never used."
  | impossibleSpread fragment parent type =>
      "Fragment" ++ (fragment.elim "" fun name => " " ++ quoted name) ++ neverOfType parent type
  | fragmentCycle name via =>
      "Cannot spread fragment " ++ quoted name ++ " within itself"
        ++ (if via.isEmpty then "" else " via " ++ ", ".intercalate (via.map quoted)) ++ "."
  | repeatedVariable name => "There can be only one variable named '$" ++ name ++ "'."
  | undefinedVariable name operation =>
      "Variable '$" ++ name ++ "' is not defined" ++ inOperation " by" operation
  | unusedVariable name operation =>
      "Variable '$" ++ name ++ "' is never used" ++ inOperation " in" operation
  | unknownDirective name => "Unknown directive " ++ quoted name ++ "."
  | misplacedDirective name location =>
      "Directive " ++ quoted name ++ " may not be used "
        ++ (location.elim "here" fun place => "on " ++ place.text) ++ "."
  | repeatedDirective name =>
      "The directive " ++ quoted name ++ " can only be used once at this location."
  | unknownFieldArgument name field type suggestions =>
      "Unknown argument " ++ quoted name ++ " on field " ++ quoted field ++ " of type "
        ++ quoted type ++ "." ++ didYouMean suggestions
  | unknownDirectiveArgument name directive suggestions =>
      "Unknown argument " ++ quoted name ++ " on directive '@" ++ directive ++ "'."
        ++ didYouMean suggestions
  | repeatedArgument name => "There can be only one argument named " ++ quoted name ++ "."
  | invalidArgument name value problems =>
      "Argument " ++ quoted name ++ " has invalid value " ++ value.text ++ ".\n"
        ++ "\n".intercalate problems
  | missingFieldArgument field name type => "Field " ++ quoted field ++ required name type
  | missingDirectiveArgument directive name type =>
      "Directive '@" ++ directive ++ "'" ++ required name type
  | uselessDefault name type =>
      "Variable '$" ++ name ++ "' of type " ++ quoted type.text
        ++ " is required and will not use the default value. Perhaps you meant to use type "
        ++ quoted type.nullable.text ++ "."
  | invalidDefault name type value problems =>
      "Variable '$" ++ name ++ "' of type " ++ quoted type.text ++ " has invalid default value: "
        ++ value.text ++ ".\n" ++ "\n".intercalate problems
  | misusedVariable name type expected =>
      "Variable '$" ++ name ++ "' of type " ++ quoted type.text
        ++ " used in position expecting type " ++ quoted expected.text ++ "."
  | conflictingFields key reason =>
      "Fields " ++ quoted key ++ " conflict because " ++ reason.text
        ++ ". Use different aliases on the fields to fetch both if this was intentional."
  | repeatedInputField name => "There can be only one input field named " ++ quoted name ++ "."

end Violation

/-- A violation and the parts of the document that it is about. -/
structure Problem where
  violation : Violation
  spans : List Span := []

namespace Problem

/-- A problem at nodes, of which some may not know where they stand. -/
def about (violation : Violation) (spans : List (Option Span)) : Problem :=
  ⟨violation, spans.filterMap id⟩

def error (problem : Problem) : ResponseError :=
  { message := problem.violation.message, locations := problem.spans.map Span.location }

end Problem

/-- What a rule reports: a problem of the document, or that the rule itself comes to no end. -/
inductive Finding where
  | problem (of : Problem)
  | endless

namespace Finding

/-- A violation at nodes. -/
def violation (violation : Violation) (spans : List (Option Span)) : Finding :=
  problem (.about violation spans)

/-- The problems of findings, unless a rule comes to no end. -/
def problems? : List Finding → Option (List Problem)
  | [] => some []
  | problem p :: rest => (problems? rest).map (p :: ·)
  | endless :: _ => none

end Finding
end GraphQL.Validation
