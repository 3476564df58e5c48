import GraphQL.Execution.Request
import GraphQL.Script.Basic
import GraphQL.Value.Tagged

/-! How scripts run: the host whose resolvers are scripts. -/
namespace GraphQL.Script
open Execution (FieldValue FieldResult Info Site Host Resolve Later)

/-- What a scripted host remembers. -/
structure Stage where
  log : List String := []
  counters : Entries Int := []
  context : Option String := none

namespace Stage

def write (line : String) (stage : Stage) : Stage := { stage with log := stage.log ++ [line] }

def counter (stage : Stage) (name : String) : Int := (stage.counters.get? name).getD 0

def add (name : String) (amount : Int) (stage : Stage) : Stage :=
  { stage with counters := stage.counters.put name (stage.counter name + amount) }

end Stage

/-- The field that a script is run for. -/
structure Call where
  source : FieldValue Script
  arguments : Entries Value
  info : Info Script

/-- Reads decimal digits after a sign. A number that does not fit into 32 bits is refused at
its first digit too many, before what follows is looked at. -/
def digits32 (negative : Bool) (n : Int) : List Char → Except String Int
  | [] => .ok n
  | c :: rest =>
      if c.isDigit then
        let digit : Int := c.toNat - '0'.toNat
        let next := n * 10 + (if negative then -digit else digit)
        if next > 2147483647 then .error "number too large to fit in target type"
        else if next < -2147483648 then .error "number too small to fit in target type"
        else digits32 negative next rest
      else .error "invalid digit found in string"

/-- Reads a number of 32 bits. -/
def parseInt32 (text : String) : Except String Int :=
  match text.toList with
  | [] => .error "cannot parse integer from empty string"
  | ['-'] | ['+'] => .error "invalid digit found in string"
  | '-' :: rest => digits32 true 0 rest
  | '+' :: rest => digits32 false 0 rest
  | digits => digits32 false 0 digits

def viewArgument (arguments : Entries Value) : ArgumentView → Value
  | .string name => ((arguments.get? name).bind Value.string?).elim .null .string
  | .int name => ((arguments.get? name).bind Value.int?).elim .null .int
  | .float name => ((arguments.get? name).bind Value.float?).elim .null .float
  | .boolean name => ((arguments.get? name).bind Value.boolean?).elim .null .boolean
  | .given name => .boolean (arguments.contains name)
  | .count => .int arguments.length
  | .none => .boolean arguments.isEmpty
  | .names => .string (",".intercalate arguments.keys)

def viewInfo (info : Info Script) (context : Option String) : InfoView → String
  | .fieldName => info.site.field.name
  | .parentType => info.site.parent.name
  | .returnType => info.site.field.type.text
  | .path => "/".intercalate (info.path.map PathSegment.text)
  | .lastStep => (info.path.getLast?.map PathSegment.text).getD ""
  | .operation => info.plan.operation.operation.text
  | .operationName => (info.plan.operation.name.map Ast.Name.text).getD "<none>"
  | .bindings => info.plan.bindings.tagged
  | .fragments =>
      let names := (info.plan.fragments.map fun fragment => fragment.name.text).eraseDups
      ",".intercalate (names.mergeSort fun a b => !(b < a))
  | .selections => ",".intercalate (info.site.nodes.map Ast.Field.responseKey)
  | .root => (info.plan.root.plain?.map Value.json).getD "<not a value>"
  | .context => context.getD "<none>"

def plain (value : Value) : FieldResult Script := .ok (.value value)

/-- How a script takes what belongs to a field. -/
structure Reader where
  read : Reading → StateM Stage (FieldResult Script)
  amount : Increase → Int

mutual

/-- Runs a script. Objects, functions and what comes later are handed out as scripts. -/
def run (reader : Reader) : Script → StateM Stage (FieldResult Script)
  | value v => return plain v
  | fail message => return .error message
  | list items => return (← runAll reader items).map FieldValue.list
  | object type fields => return .ok (.object (object type fields))
  | callable body => return .ok (.callable body)
  | later polls body => return .ok (.deferred ⟨polls, body⟩)
  | stream polls events => return .ok (.stream (events.map fun event => ⟨polls, event⟩))
  | log line body => do
      modify (Stage.write line)
      run reader body
  | count counter increase => do
      modify (Stage.add counter (reader.amount increase))
      return plain (.int ((← get).counter counter))
  | read reading => reader.read reading

/-- Runs the items of a list in order, up to the first that fails. -/
def runAll (reader : Reader) : List Script → StateM Stage (Except String (List (FieldValue Script)))
  | [] => return .ok []
  | item :: rest => do
      match ← run reader item with
      | .error message => return .error message
      | .ok first =>
          match ← runAll reader rest with
          | .error message => return .error message
          | .ok others => return .ok (first :: others)

end

/-- Outside a field nothing can be read. -/
def outside : Reader where
  read reading := return .error (reading.word ++ " needs a field")
  amount
    | .by amount => amount
    | .byArgument _ => 0

/-- Runs a script that does not belong to a field. -/
def runOutside (script : Script) : StateM Stage (FieldResult Script) := run outside script

/-- A field of an object; one that fails counts as absent. -/
def readObject (script : Script) (name : String) : StateM Stage (Option (FieldValue Script)) := do
  match script.field? name with
  | none => return none
  | some field => return (← runOutside field).toOption

/-- The string under a key of a value, as far as it is known without running anything. -/
def stringAt (key : String) : FieldValue Script → Option String
  | .object script =>
      match script.field? key with
      | some (value (.string s)) => some s
      | _ => none
  | .value v => (v.get? key).bind Value.string?
  | _ => none

def hasKey (key : String) : FieldValue Script → Bool
  | .object script => (script.field? key).isSome
  | .value v => (v.get? key).isSome
  | _ => false

/-- How a scripted type recognises its values. -/
inductive TypeTest where
  | always (answer : Bool)
  | has (key : String)
  /-- The name of the type stands under a key. -/
  | named (key : String)
deriving DecidableEq, Repr

/-- How a scripted abstract type finds the type of a value. -/
inductive TypeChoice where
  | always (name : Option String)
  | named (key : String)
deriving DecidableEq, Repr

/-- What a handle stands for. -/
inductive Behaviour where
  | resolver (script : Script)
  | typeTest (type : String) (test : TypeTest)
  | typeChoice (choice : TypeChoice)

def TypeTest.accepts (type : String) (value : FieldValue Script) : TypeTest → Bool
  | always answer => answer
  | has key => hasKey key value
  | named key => stringAt key value == some type

def TypeChoice.of (value : FieldValue Script) : TypeChoice → Option String
  | always name => name
  | named key => stringAt key value

def hostOf (behaviours : Array Behaviour)
    (resolve : Script → Resolve Script Stage) : Host Script Stage where
  typeName script :=
    match script with
    | object type _ => type
    | _ => none
  field := readObject
  compute := runOutside
  resolve handle source arguments info :=
    match behaviours[handle]? with
    | some (.resolver script) => resolve script source arguments info
    | _ => return .ok .null
  isTypeOf handle value info :=
    match behaviours[handle]? with
    | some (.typeTest type test) => do
        modify (Stage.write ("is_type_of " ++ type ++ " at " ++ info.site.field.name))
        return test.accepts type value
    | _ => return false
  resolveType handle value info :=
    match behaviours[handle]? with
    | some (.typeChoice choice) => do
        modify (Stage.write ("resolve_type at " ++ info.site.field.name))
        return choice.of value
    | _ => return none

/-- A scripted host as far as no field is resolved by a script. -/
def bareHost : Host Script Stage := hostOf #[] fun _ _ _ _ => return .ok .null

/-- What a script reads inside a field. -/
def readInside (call : Call) : Reading → StateM Stage (FieldResult Script)
  | .argument name => return plain ((call.arguments.get? name).getD .null)
  | .arguments => return plain (.string call.arguments.tagged)
  | .argumentView view => return plain (viewArgument call.arguments view)
  | .source => return plain (call.source.plain?.getD .null)
  | .sourceHas name =>
      match call.source with
      | .object script => return plain (.boolean (script.field? name).isSome)
      | _ => return .error "not a host"
  | .unresolved => bareHost.readField call.source call.info.site.field.name
  | .parsedInt name =>
      let text := ((call.arguments.get? name).bind Value.string?).getD ""
      return (parseInt32 text).map fun n => .value (.int n)
  | .info view => return plain (.string (viewInfo call.info (← get).context view))

def inside (call : Call) : Reader where
  read := readInside call
  amount
    | .by amount => amount
    | .byArgument name => ((call.arguments.get? name).bind Value.int?).getD 0

/-- Runs a script as the resolver of a field. -/
def resolve (script : Script) : Resolve Script Stage := fun source arguments info =>
  run (inside ⟨source, arguments, info⟩) script

/-- The host whose handles stand for the given behaviours. -/
def host (behaviours : Array Behaviour) : Host Script Stage := hostOf behaviours resolve

end GraphQL.Script
