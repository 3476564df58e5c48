import GraphQL.Ast.Document
import GraphQL.Coercion.Input
import GraphQL.Coercion.Literal
import GraphQL.Printer
import GraphQL.Response

/-! The inputs of an execution: the variables of an operation, and the arguments of a field. -/
namespace GraphQL.Execution
open Ast (VariableDefinition Argument)

/-- Why a variable cannot be used. -/
inductive VariableFault where
  | notAnInput (name type : String)
  | missing (name : String) (type : TypeRef)
  | invalid (name : String) (input : Value) (problems : List String)

namespace VariableFault

def variableText (name : String) : String := "Variable \"$" ++ name ++ "\""

def message : VariableFault → String
  | notAnInput name type =>
      variableText name ++ " expected value of type \"" ++ type
        ++ "\" which cannot be used as an input type."
  | missing name type =>
      variableText name ++ " of required type \"" ++ type.text ++ "\" was not provided."
  | invalid name input problems =>
      variableText name ++ " got invalid value " ++ input.json ++ ".\n"
        ++ "\n".intercalate problems

end VariableFault

def inputType? (schema : Schema) (written : Ast.TypeAnnotation) : Option TypeRef :=
  (schema.typeOf? written).filter fun type => (schema.named? type).any TypeDef.isInput

/-- The value of one variable, if it has one. -/
def variableValue (schema : Schema) (inputs : Entries Value) (definition : VariableDefinition) :
    Except VariableFault (Option Value) :=
  let name := definition.target.name.text
  match inputType? schema definition.type with
  | none => .error (.notAnInput name definition.type.text)
  | some type =>
      match inputs.get? name, definition.defaultValue with
      | some input, _ =>
          match schema.coerce input type with
          | .ok value => .ok (some value)
          | .error problems => .error (.invalid name input problems)
      | none, some default => .ok (schema.literalValue [] default type)
      | none, none => if type.isNonNull then .error (.missing name type) else .ok none

/-- The values of the variables. All definitions are looked at, and all faults reported. -/
def variableValues (schema : Schema) (inputs : Entries Value) (definitions : List VariableDefinition) :
    Except (List ResponseError) (Entries Value) :=
  let step (sofar : List ResponseError × Entries Value) (definition : VariableDefinition) :=
    match variableValue schema inputs definition with
    | .ok (some value) => (sofar.1, sofar.2.put definition.target.name.text value)
    | .ok none => sofar
    | .error fault =>
        let error : ResponseError :=
          { message := fault.message
            locations := definition.span.toList.map Span.location }
        (sofar.1 ++ [error], sofar.2)
  let (errors, values) := definitions.foldl step ([], [])
  if errors.isEmpty then .ok values else .error errors

/-- Why an argument has no value. -/
inductive ArgumentFault where
  | missing (name : String) (type : TypeRef)
  | missingVariable (name : String) (type : TypeRef) (source : String)
  | invalid (name : String) (literal : Ast.Value)

namespace ArgumentFault

def requiredText (name : String) (type : TypeRef) : String :=
  "Argument \"" ++ name ++ "\" of required type \"" ++ type.text ++ "\" was "

def message : ArgumentFault → String
  | missing name type => requiredText name type ++ "not provided."
  | missingVariable name type source =>
      requiredText name type ++ "provided the variable \"$" ++ source
        ++ "\" which was not provided a runtime value."
  | invalid name literal => "Argument \"" ++ name ++ "\" has invalid value " ++ literal.text ++ "."

end ArgumentFault

/-- What an argument that is not given is: its default, else nothing if it may be null. -/
def absentValue (declared : InputValue) (fault : ArgumentFault) :
    Except ArgumentFault (Option Value) :=
  match declared.default with
  | some value => .ok (some value)
  | none => if declared.type.isNonNull then .error fault else .ok none

def argumentValue (schema : Schema) (bindings : Entries Value) (given : List Argument)
    (declared : InputValue) : Except ArgumentFault (Option Value) :=
  let argument := given.find? fun argument => argument.name.text == declared.name
  match argument.map Argument.value with
  | none => absentValue declared (.missing declared.name declared.type)
  | some (.var source) =>
      match bindings.get? source.name.text with
      | some value => .ok (some value)
      | none =>
          absentValue declared (.missingVariable declared.name declared.type source.name.text)
  | some literal =>
      match schema.literalValue bindings literal declared.type with
      | some value => .ok (some value)
      | none => .error (.invalid declared.name literal)

/-- The values of the arguments in the order of their declarations, or the first fault. -/
def argumentValues (schema : Schema) (bindings : Entries Value) (given : List Argument) :
    List InputValue → Except ArgumentFault (Entries Value)
  | [] => .ok []
  | declared :: rest => do
      let value ← argumentValue schema bindings given declared
      let others ← argumentValues schema bindings given rest
      return (value.toList.map fun value => (declared.name, value)) ++ others

end GraphQL.Execution
