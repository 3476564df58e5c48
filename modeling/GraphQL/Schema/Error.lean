/-! What can be wrong with the definitions of a schema. -/
namespace GraphQL

inductive SchemaError where
  | missingQueryType
  | duplicateTypeName (type : String)
  | reservedTypeName (type : String)
  | duplicateFieldName (type field : String)
  | duplicateArgumentName (coordinate argument : String)
  | duplicateEnumValue (type value : String)
  | duplicateDirectiveName (directive : String)
  | unknownType (type : String) (referencedBy : Option String)
  | implementsNonInterface (type interface : String)
  | duplicateInterface (type interface : String)
  | fieldNotImplemented (type interface field : String)
  | fieldTypeMismatch (type interface field expected found : String)
  | argumentMismatch (type interface field argument expected : String) (found : Option String)
  | memberNotObject (union member : String)
  | duplicateMember (union member : String)
  | inputTypeExpected (coordinate type : String)
  | outputTypeExpected (coordinate type : String)
  | nestedNonNull (coordinate type : String)
deriving DecidableEq, Repr

namespace SchemaError

def quoted (name : String) : String := "\"" ++ name ++ "\""

def message : SchemaError → String
  | missingQueryType => "A schema requires a query root type"
  | duplicateTypeName type =>
      "Schema must contain unique named types but contains multiple types named " ++ quoted type
  | reservedTypeName type =>
      "Name " ++ quoted type ++ " must not begin with \"__\", which is reserved by GraphQL introspection"
  | duplicateFieldName type field =>
      "Type " ++ quoted type ++ " defines the field " ++ quoted field ++ " more than once"
  | duplicateArgumentName coordinate argument =>
      "Field " ++ quoted coordinate ++ " defines the argument " ++ quoted argument ++ " more than once"
  | duplicateEnumValue type value =>
      "Enum " ++ quoted type ++ " defines the value " ++ quoted value ++ " more than once"
  | duplicateDirectiveName directive =>
      "Schema must contain unique named directives but contains multiple directives named "
        ++ quoted ("@" ++ directive)
  | unknownType type referencedBy =>
      "Type " ++ quoted type ++ " is referenced"
        ++ (referencedBy.map fun coordinate => " by " ++ quoted coordinate).getD ""
        ++ " but was never added to the schema"
  | implementsNonInterface type interface =>
      "Type " ++ quoted type ++ " declares that it implements " ++ quoted interface
        ++ ", which is not an interface type"
  | duplicateInterface type interface =>
      "Type " ++ quoted type ++ " declares that it implements the " ++ quoted interface
        ++ " interface more than once"
  | fieldNotImplemented type interface field =>
      quoted (interface ++ "." ++ field) ++ " expects a field but " ++ quoted type
        ++ " does not provide it"
  | fieldTypeMismatch type interface field expected found =>
      quoted (interface ++ "." ++ field) ++ " expects type " ++ quoted expected ++ " but "
        ++ quoted (type ++ "." ++ field) ++ " provides type " ++ quoted found
  | argumentMismatch type interface field argument expected found =>
      quoted (interface ++ "." ++ field ++ "(" ++ argument ++ ":)")
        ++ " expects an argument of type " ++ quoted expected ++ " but "
        ++ quoted (type ++ "." ++ field) ++ " "
        ++ (found.map fun type => "provides type " ++ quoted type).getD "does not provide it"
  | memberNotObject union member =>
      "Union " ++ quoted union ++ " can only include object types, but " ++ quoted member
        ++ " is not one"
  | duplicateMember union member =>
      "Union " ++ quoted union ++ " includes " ++ quoted member ++ " more than once"
  | inputTypeExpected coordinate type =>
      quoted coordinate ++ " must be an input type but " ++ quoted type ++ " is not one"
  | outputTypeExpected coordinate type =>
      quoted coordinate ++ " must be an output type but " ++ quoted type ++ " is not one"
  | nestedNonNull coordinate type =>
      quoted coordinate ++ " has the type " ++ quoted type
        ++ ", which wraps a non-null type in a non-null type"

end SchemaError
end GraphQL
