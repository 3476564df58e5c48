import GraphQL.Value.Basic
import GraphQL.Text.Quoted
import GraphQL.Decimal.Style

/-! Values as JSON text, without blanks. Numbers that are not finite become
`null`, and enum values become strings. -/
namespace GraphQL

namespace Json

def commaSeparated (parts : List String) : String := ",".intercalate parts

def array (items : List String) : String := "[" ++ commaSeparated items ++ "]"

/-- An object of members whose values are JSON text already. -/
def object (members : List (String × String)) : String :=
  "\x7b" ++ commaSeparated (members.map fun (key, text) => Text.quote key ++ ":" ++ text) ++ "\x7d"

def float (x : Float) : String := (Decimal.jsonText? x).getD "null"

def boolean (b : Bool) : String := if b then "true" else "false"

end Json

namespace Value

mutual

def json : Value → String
  | null => "null"
  | int i => toString i
  | float x => Json.float x
  | string s | enum s => Text.quote s
  | boolean b => Json.boolean b
  | list values => Json.array (jsons values)
  | object entries => Json.object (jsonMembers entries)

def jsons : List Value → List String
  | [] => []
  | value :: rest => value.json :: jsons rest

def jsonMembers : List (String × Value) → List (String × String)
  | [] => []
  | (key, value) :: rest => (key, value.json) :: jsonMembers rest

end
end Value
end GraphQL
