import GraphQL.Coercion.Literal
import GraphQL.Printer

/-! The static check of literals. Variables are taken to fit where they stand; other
rules see to that. -/
namespace GraphQL
namespace Conformance
open Coercion (Problems inElement inField unknownField foundNull notAnObject unexpected)

/-- What is wrong with a literal at each type. -/
abbrev Check := TypeRef → Problems

/-- What is wrong with a declared field. -/
def ofField (fields : List (String × Check)) (declared : InputValue) : Problems :=
  match Layer.field? fields declared.name with
  | some check => check declared.type
  | none =>
      if declared.type.isNonNull && declared.default.isNone then [foundNull declared.type] else []

def ofFields (fields : List (String × Check)) (type : InputObjectType) : Problems :=
  ((fields.filter fun field => !type.fields.contains field.1).map fun field => unknownField field.1)
    ++ type.fields.items.flatMap fun declared =>
      (ofField fields declared).map (inField declared.name)

/-- What is wrong with a literal that is no variable, given what is wrong with its parts. -/
def ofLayer (schema : Schema) (literal : Ast.Value) (layer : Layer Check) : Check
  | .nonNull type =>
      if LiteralValue.isNull literal then [foundNull (.nonNull type)]
      else ofLayer schema literal layer type
  | .list item =>
      if LiteralValue.isNull literal then []
      else
        match layer with
        | .list items =>
            items.zipIdx.flatMap fun (check, index) => (check item).map (inElement index)
        | _ => ofLayer schema literal layer item
  | .named name =>
      if LiteralValue.isNull literal then []
      else
        let accepted {α : Type} (value : Option α) : Problems :=
          if value.isSome then [] else [unexpected name literal.text]
        match schema.type? name with
        | some (.inputObject input) =>
            match layer with
            | .object fields => ofFields fields input
            | _ => [notAnObject name]
        | some (.scalar scalar) => accepted (scalar.parseLiteral literal)
        | some (.enum enum) => accepted (enum.parseLiteral literal)
        | _ => []

mutual

def ofLiteral (schema : Schema) : Ast.Value → Check
  | .var _ => fun _ => []
  | .list literals span =>
      ofLayer schema (.list literals span) (.list (ofLiterals schema literals))
  | .object fields span =>
      ofLayer schema (.object fields span) (.object (ofObjectFields schema fields))
  | literal => ofLayer schema literal .leaf

def ofLiterals (schema : Schema) : List Ast.Value → List Check
  | [] => []
  | literal :: rest => ofLiteral schema literal :: ofLiterals schema rest

def ofObjectFields (schema : Schema) : List Ast.ObjectField → List (String × Check)
  | [] => []
  | ⟨name, literal, _⟩ :: rest =>
      (name.text, ofLiteral schema literal) :: ofObjectFields schema rest

end
end Conformance

/-- Everything wrong with a literal at a type. -/
def Schema.literalProblems (schema : Schema) (type : TypeRef) (literal : Ast.Value) :
    Coercion.Problems :=
  Conformance.ofLiteral schema literal type

end GraphQL
