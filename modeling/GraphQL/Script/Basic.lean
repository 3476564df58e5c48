import GraphQL.Value.Basic

/-! Scripts: hosts whose resolvers are data. A script says what a resolver answers, what it
writes to a log, and what it counts; so a whole execution can be written down and looked at. -/
namespace GraphQL

/-- How an argument is looked at. -/
inductive ArgumentView where
  | string (name : String)
  | int (name : String)
  | float (name : String)
  | boolean (name : String)
  | given (name : String)
  | count
  | none
  | names
deriving DecidableEq, Repr

/-- What a resolver is told about its place. -/
inductive InfoView where
  | fieldName | parentType | returnType | path | lastStep | operation | operationName | bindings
  | fragments | selections | root | context
deriving DecidableEq, Repr

/-- What a script reads from the field that it resolves. -/
inductive Reading where
  | argument (name : String)
  | arguments
  | argumentView (view : ArgumentView)
  | source
  /-- Whether the source is an object with a field of this name. -/
  | sourceHas (name : String)
  /-- What the field would be without a resolver. -/
  | unresolved
  /-- An argument as a number of 32 bits. -/
  | parsedInt (name : String)
  | info (view : InfoView)
deriving DecidableEq, Repr

/-- How much a counter is increased: by a number, or by the value of an argument. -/
inductive Increase where
  | by (amount : Int)
  | byArgument (name : String)
deriving DecidableEq, Repr

inductive Script where
  | value (of : Value)
  | fail (message : String)
  | list (items : List Script)
  | object (type : Option String) (fields : List (String × Script))
  | callable (body : Script)
  | later (polls : Nat) (body : Script)
  | stream (polls : Nat) (events : List Script)
  | log (line : String) (body : Script)
  | count (counter : String) (increase : Increase)
  | read (reading : Reading)

namespace Reading

/-- The word for a reading in messages. -/
def word : Reading → String
  | argument _ => "arg"
  | arguments => "args"
  | argumentView _ => "args_with"
  | source => "source"
  | sourceHas _ => "host_has"
  | unresolved => "default"
  | parsedInt _ => "parse_int"
  | info _ => "info"

end Reading

namespace Script

instance : Inhabited Script := ⟨value .null⟩

def fields : Script → List (String × Script)
  | object _ fields => fields
  | _ => []

/-- The script of the first field of a name. -/
def field? (script : Script) (name : String) : Option Script := script.fields.lookup name

end Script
end GraphQL
