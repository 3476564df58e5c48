import GraphQL.Validation.Rules.Uniqueness
import GraphQL.Validation.Rules.Operations
import GraphQL.Validation.Rules.Types
import GraphQL.Validation.Rules.Fields
import GraphQL.Validation.Rules.Fragments
import GraphQL.Validation.Rules.Cycles
import GraphQL.Validation.Rules.Variables
import GraphQL.Validation.Rules.Directives
import GraphQL.Validation.Rules.Arguments
import GraphQL.Validation.Rules.Merging

/-! Checking documents against a schema before they are executed. -/
namespace GraphQL

namespace Validation

/-- The rules that a document has to follow, in the order in which they report. -/
def Rule.standard : List (Rule Finding) :=
  [Rule.uniqueOperationNames, Rule.loneAnonymousOperation, Rule.singleFieldSubscriptions,
    Rule.knownTypeNames, Rule.fragmentsOnCompositeTypes, Rule.variablesAreInputTypes,
    Rule.scalarLeafs, Rule.fieldsOnCorrectType, Rule.uniqueFragmentNames, Rule.knownFragmentNames,
    Rule.noUnusedFragments, Rule.possibleFragmentSpreads, Rule.noFragmentCycles,
    Rule.uniqueVariableNames, Rule.noUndefinedVariables, Rule.noUnusedVariables,
    Rule.knownDirectives, Rule.uniqueDirectivesPerLocation, Rule.knownArgumentNames,
    Rule.uniqueArgumentNames, Rule.argumentsOfCorrectType, Rule.providedNonNullArguments,
    Rule.defaultValuesOfCorrectType, Rule.variablesInAllowedPosition,
    Rule.overlappingFieldsCanBeMerged, Rule.uniqueInputFieldNames]

end Validation

/-- The problems of a document under some rules, in the order in which they are found; `none`
if a rule comes to no end. -/
def Schema.validateWith (schema : Schema) (rules : List (Validation.Rule Validation.Finding))
    (document : Ast.Document) : Option (List Validation.Problem) :=
  Validation.Finding.problems? (Validation.findings schema rules document)

/-- The problems of a document. One that has none can be executed. -/
def Schema.validate (schema : Schema) (document : Ast.Document) :
    Option (List Validation.Problem) :=
  schema.validateWith Validation.Rule.standard document

end GraphQL
