import GraphQL.Schema.Basic
import GraphQL.Value.Json

/-! Coercion of input values. A value given for a variable is turned into the value
that its type stands for, or into a list of everything wrong with it. -/
namespace GraphQL

/-- The outermost layer of a value or a literal, with something for each part. -/
inductive Layer (α : Type) where
  | leaf
  | list (items : List α)
  | object (fields : List (String × α))

namespace Layer

/-- The part at a name, the first one of several. -/
def field? {α : Type} (fields : List (String × α)) (name : String) : Option α :=
  (fields.find? fun field => field.1 == name).map Prod.snd

end Layer

namespace Coercion

/-- Everything wrong with an input. -/
abbrev Problems := List String

/-- The value of an input at each type. -/
abbrev Input := TypeRef → Except Problems Value

def inElement (index : Nat) (problem : String) : String :=
  "In element #" ++ toString index ++ ": " ++ problem

def inField (name problem : String) : String := "In field \"" ++ name ++ "\": " ++ problem

def unknownField (name : String) : String := inField name "Unknown field."

def foundNull (type : TypeRef) : String := "Expected \"" ++ type.text ++ "\", found null."

def notAnObject (name : String) : String := "Expected \"" ++ name ++ "\", found not an object."

def unexpected (name found : String) : String := "Expected type \"" ++ name ++ "\", found " ++ found ++ "."

/-- The list of the items' values, or the problems of all items. -/
def ofItems (results : List (Except Problems Value)) : Except Problems Value :=
  let problems := results.zipIdx.flatMap fun (result, index) =>
    match result with
    | .ok _ => []
    | .error problems => problems.map (inElement index)
  if problems.isEmpty then .ok (.list (results.filterMap Except.toOption)) else .error problems

/-- The value of a declared field: as given, else its default, else absent. -/
def ofField (fields : List (String × Input)) (declared : InputValue) : Except Problems (Option Value) :=
  match Layer.field? fields declared.name with
  | some input => (input declared.type).map some
  | none =>
      match declared.default with
      | some value => .ok (some value)
      | none => if declared.type.isNonNull then .error [foundNull declared.type] else .ok none

/-- The object of the declared fields' values, or the problems of all fields. -/
def ofFields (fields : List (String × Input)) (type : InputObjectType) : Except Problems Value :=
  let unknown := (fields.filter fun field => !type.fields.contains field.1).map fun field =>
    unknownField field.1
  let results := type.fields.items.map fun declared => (declared.name, ofField fields declared)
  let problems := results.flatMap fun (name, result) =>
    match result with
    | .ok _ => []
    | .error problems => problems.map (inField name)
  if (unknown ++ problems).isEmpty then
    .ok (.object (results.filterMap fun (name, result) =>
      result.toOption.join.map fun value => (name, value)))
  else .error (unknown ++ problems)

/-- The value of an input, given the values of its parts. -/
def ofLayer (schema : Schema) (value : Value) (layer : Layer Input) : Input
  | .nonNull type =>
      if value.isNull then .error [foundNull (.nonNull type)] else ofLayer schema value layer type
  | .list item =>
      if value.isNull then .ok .null
      else
        match layer with
        | .list items => ofItems (items.map fun input => input item)
        | _ => (ofLayer schema value layer item).map fun single => .list [single]
  | .named name =>
      if value.isNull then .ok .null
      else
        let invalid : Except Problems Value := .error [unexpected name value.json]
        match schema.type? name with
        | some (.scalar scalar) => (scalar.parseValue value).elim invalid .ok
        | some (.enum enum) => (enum.parseValue value).elim invalid .ok
        | some (.inputObject input) =>
            match layer with
            | .object fields => ofFields fields input
            | _ => .error [notAnObject name]
        | _ => .error ["Unknown input type \"" ++ name ++ "\"."]

mutual

/-- The value of an input at each type. -/
def ofValue (schema : Schema) : Value → Input
  | .list values => ofLayer schema (.list values) (.list (ofValues schema values))
  | .object entries => ofLayer schema (.object entries) (.object (ofEntries schema entries))
  | value => ofLayer schema value .leaf

def ofValues (schema : Schema) : List Value → List Input
  | [] => []
  | value :: rest => ofValue schema value :: ofValues schema rest

def ofEntries (schema : Schema) : List (String × Value) → List (String × Input)
  | [] => []
  | (key, value) :: rest => (key, ofValue schema value) :: ofEntries schema rest

end
end Coercion

/-- The value that an input value stands for at a type. -/
def Schema.coerce (schema : Schema) (value : Value) (type : TypeRef) :
    Except Coercion.Problems Value :=
  Coercion.ofValue schema value type

end GraphQL
