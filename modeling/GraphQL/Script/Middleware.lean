import GraphQL.Script.Host

/-! Middleware given as data. -/
namespace GraphQL.Script
open Execution (FieldValue FieldResult Info Resolve Middleware)

/-- What a middleware does with the fields it is for. -/
inductive Wrapper where
  /-- Writes to the log before and after. -/
  | trace (name : String)
  /-- Turns letters of a string into capitals. -/
  | capitals
  /-- Answers in place of the resolver. -/
  | replace (script : Script)
  /-- Turns a failure into null. -/
  | forgive
  | setArgument (name : String) (value : Value)
  | setSource (script : Script)

def capitals (text : String) : String := text.map Char.toUpper

namespace Wrapper

def place (info : Info Script) : String := info.site.parent.name ++ "." ++ info.site.field.name

def wrap (wrapper : Wrapper) (next : Resolve Script Stage) : Resolve Script Stage :=
  fun source arguments info => do
    match wrapper with
    | trace name =>
        modify (Stage.write (name ++ " before " ++ place info))
        let result ← next source arguments info
        let ending := match result with
          | .ok _ => " ok"
          | .error _ => " err"
        modify (Stage.write (name ++ " after " ++ place info ++ ending))
        return result
    | capitals =>
        match ← next source arguments info with
        | .ok (.value (.string s)) => return plain (.string (Script.capitals s))
        | result => return result
    | replace script => resolve script source arguments info
    | forgive =>
        match ← next source arguments info with
        | .error _ => return plain .null
        | result => return result
    | setArgument name given => next source (arguments.put name given) info
    | setSource script =>
        match ← runOutside script with
        | .ok other => next other arguments info
        | .error message => return .error message

/-- A wrapper for all fields, or for the fields of one name. -/
def middleware (wrapper : Wrapper) (only : Option String) : Middleware Script Stage :=
  fun next source arguments info =>
    if only.all fun name => name == info.site.field.name then
      wrapper.wrap next source arguments info
    else next source arguments info

end Wrapper
end GraphQL.Script
