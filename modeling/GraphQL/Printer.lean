import GraphQL.Ast.Document
import GraphQL.Text.Quoted

/-! Printing in the canonical layout: two blanks of indentation, one selection
to a line, and a blank line between definitions. Reading a printed document
gives the document back, spans aside. -/
namespace GraphQL

namespace Layout

/-- The non-empty parts with the separator between them. -/
def join (parts : List String) (separator : String) : String :=
  separator.intercalate (parts.filter fun part => !part.isEmpty)

/-- The text between two others, or nothing where there is no text. -/
def wrap (before inner after : String) : String :=
  if inner.isEmpty then "" else before ++ inner ++ after

/-- Every line after the first set in by two blanks. -/
def indent (text : String) : String :=
  String.ofList (text.toList.flatMap fun c => if c = '\n' then ['\n', ' ', ' '] else [c])

/-- Braces around the items, one to a line. -/
def block (items : List String) : String :=
  if items.isEmpty then "\x7b\x7d"
  else "\x7b\n  " ++ indent (join items "\n") ++ "\n\x7d"

end Layout

open Layout

namespace Ast

mutual

def Value.text : Value → String
  | .var v => "$" ++ v.name.text
  | .int text _ | .float text _ => text
  | .string value _ => Text.quote value
  | .boolean value _ => if value then "true" else "false"
  | .null _ => "null"
  | .enum name _ => name
  | .list values _ => "[" ++ join (Value.texts values) ", " ++ "]"
  | .object fields _ => "\x7b" ++ join (Value.fieldTexts fields) ", " ++ "\x7d"

def Value.texts : List Value → List String
  | [] => []
  | value :: rest => value.text :: Value.texts rest

def Value.fieldTexts : List ObjectField → List String
  | [] => []
  | ⟨name, value, _⟩ :: rest => (name.text ++ ": " ++ value.text) :: Value.fieldTexts rest

end

def Argument.text (argument : Argument) : String :=
  argument.name.text ++ ": " ++ argument.value.text

def argumentsText (arguments : List Argument) : String :=
  wrap "(" (join (arguments.map Argument.text) ", ") ")"

def Directive.text (directive : Directive) : String :=
  "@" ++ directive.name.text ++ argumentsText directive.arguments

def directivesText (directives : List Directive) : String :=
  join (directives.map Directive.text) " "

mutual

def Selection.text : Selection → String
  | .field ⟨nickname, name, arguments, directives, selections, _⟩ =>
      let before := (nickname.map fun other => other.text ++ ": ").getD ""
      join [before ++ name.text ++ argumentsText arguments, directivesText directives,
        Selection.optionalText selections] " "
  | .spread spread => "..." ++ spread.name.text ++ wrap " " (directivesText spread.directives) ""
  | .inline ⟨condition, directives, selections, _⟩ =>
      let condition := (condition.map fun condition => "on " ++ condition.name.text).getD ""
      join ["...", condition, directivesText directives, selections.text] " "

def Selection.optionalText : Option SelectionSet → String
  | none => ""
  | some selections => selections.text

def SelectionSet.text : SelectionSet → String
  | ⟨selections, _⟩ => block (Selection.texts selections)

def Selection.texts : List Selection → List String
  | [] => []
  | selection :: rest => selection.text :: Selection.texts rest

end

def optionalValueText (value : Option Value) : String := (value.map Value.text).getD ""

def VariableDefinition.text (definition : VariableDefinition) : String :=
  "$" ++ definition.target.name.text ++ ": " ++ definition.type.text
    ++ wrap " = " (optionalValueText definition.defaultValue) ""

/-- An anonymous query without variables and directives is its selection set alone. -/
def OperationDefinition.text (operation : OperationDefinition) : String :=
  let name := (operation.name.map Name.text).getD ""
  let inputs := wrap "(" (join (operation.variableDefinitions.map VariableDefinition.text) ", ") ")"
  let directives := directivesText operation.directives
  let selections := operation.selectionSet.text
  if name.isEmpty && inputs.isEmpty && directives.isEmpty && operation.operation == .query then
    selections
  else join [operation.operation.text, name ++ inputs, directives, selections] " "

def FragmentDefinition.text (fragment : FragmentDefinition) : String :=
  "fragment " ++ fragment.name.text ++ " on " ++ fragment.typeCondition.name.text ++ " "
    ++ wrap "" (directivesText fragment.directives) " " ++ fragment.selectionSet.text

def InputValueDefinition.text (input : InputValueDefinition) : String :=
  join [input.name.text ++ ": " ++ input.type.text,
    wrap "= " (optionalValueText input.defaultValue) "", directivesText input.directives] " "

def inputValuesText (inputs : List InputValueDefinition) : String :=
  wrap "(" (join (inputs.map InputValueDefinition.text) ", ") ")"

def FieldDefinition.text (field : FieldDefinition) : String :=
  field.name.text ++ inputValuesText field.arguments ++ ": " ++ field.type.text
    ++ wrap " " (directivesText field.directives) ""

def ObjectTypeDefinition.text (object : ObjectTypeDefinition) : String :=
  join ["type", object.name.text,
    wrap "implements " (join (object.interfaces.map fun type => type.name.text) ", ") "",
    directivesText object.directives, block (object.fields.map FieldDefinition.text)] " "

def EnumValueDefinition.text (value : EnumValueDefinition) : String :=
  join [value.name.text, directivesText value.directives] " "

def TypeDefinition.text : TypeDefinition → String
  | .scalar d => join ["scalar", d.name.text, directivesText d.directives] " "
  | .object d => d.text
  | .interface d =>
      join ["interface", d.name.text, directivesText d.directives,
        block (d.fields.map FieldDefinition.text)] " "
  | .union d =>
      join ["union", d.name.text, directivesText d.directives,
        "= " ++ join (d.types.map fun type => type.name.text) " | "] " "
  | .enum d =>
      join ["enum", d.name.text, directivesText d.directives,
        block (d.values.map EnumValueDefinition.text)] " "
  | .inputObject d =>
      join ["input", d.name.text, directivesText d.directives,
        block (d.fields.map InputValueDefinition.text)] " "

def OperationTypeDefinition.text (definition : OperationTypeDefinition) : String :=
  definition.operation.text ++ ": " ++ definition.type.name.text

def TypeSystemDefinition.text : TypeSystemDefinition → String
  | .schema d =>
      join ["schema", directivesText d.directives,
        block (d.operationTypes.map OperationTypeDefinition.text)] " "
  | .type d => d.text
  | .extension d => "extend " ++ d.definition.text
  | .directive d =>
      "directive @" ++ d.name.text ++ inputValuesText d.arguments ++ " on "
        ++ join (d.locations.map Name.text) " | "

def Definition.text : Definition → String
  | .operation d => d.text
  | .fragment d => d.text
  | .typeSystem d => d.text

/-- The document's definitions with a blank line between them and a line break
at the end. -/
def Document.text (document : Document) : String :=
  join (document.definitions.map Definition.text) "\n\n" ++ "\n"

end Ast
end GraphQL
