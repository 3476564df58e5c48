import GraphQL.Ast.Document

/-! Changing the literals of a document: the defaults of variables and the values of the
arguments of fields and directives. Nothing else changes. -/
namespace GraphQL.Ast

namespace Value

mutual

/-- Changes the names of object fields, at any depth. -/
def renameFields (rename : String → String) : Value → Value
  | list values span => list (renameFieldsAll rename values) span
  | object fields span => object (renameObjectFields rename fields) span
  | value => value

def renameFieldsAll (rename : String → String) : List Value → List Value
  | [] => []
  | value :: rest => value.renameFields rename :: renameFieldsAll rename rest

def renameObjectFields (rename : String → String) : List ObjectField → List ObjectField
  | [] => []
  | ⟨name, value, span⟩ :: rest =>
      ⟨{ name with text := rename name.text }, value.renameFields rename, span⟩
        :: renameObjectFields rename rest

end
end Value

def Argument.mapValue (f : Value → Value) (argument : Argument) : Argument :=
  { argument with value := f argument.value }

def Directive.mapValues (f : Value → Value) (directive : Directive) : Directive :=
  { directive with arguments := directive.arguments.map (Argument.mapValue f) }

mutual

def SelectionSet.mapValues (f : Value → Value) : SelectionSet → SelectionSet
  | ⟨selections, span⟩ => ⟨Selection.mapAllValues f selections, span⟩

def Selection.mapAllValues (f : Value → Value) : List Selection → List Selection
  | [] => []
  | selection :: rest => selection.mapValues f :: Selection.mapAllValues f rest

def Selection.mapValues (f : Value → Value) : Selection → Selection
  | .field ⟨nickname, name, arguments, directives, none, span⟩ =>
      .field ⟨nickname, name, arguments.map (Argument.mapValue f),
        directives.map (Directive.mapValues f), none, span⟩
  | .field ⟨nickname, name, arguments, directives, some selections, span⟩ =>
      .field ⟨nickname, name, arguments.map (Argument.mapValue f),
        directives.map (Directive.mapValues f), some (selections.mapValues f), span⟩
  | .spread s => .spread { s with directives := s.directives.map (Directive.mapValues f) }
  | .inline ⟨condition, directives, selections, span⟩ =>
      .inline ⟨condition, directives.map (Directive.mapValues f), selections.mapValues f, span⟩

end

def Definition.mapValues (f : Value → Value) : Definition → Definition
  | operation d =>
      operation { d with
        variableDefinitions := d.variableDefinitions.map fun v => { v with defaultValue := v.defaultValue.map f }
        directives := d.directives.map (Directive.mapValues f)
        selectionSet := d.selectionSet.mapValues f }
  | fragment d =>
      fragment { d with
        directives := d.directives.map (Directive.mapValues f)
        selectionSet := d.selectionSet.mapValues f }
  | typeSystem d => typeSystem d

/-- Changes all literals of operations and fragments. -/
def Document.mapValues (f : Value → Value) (document : Document) : Document :=
  { document with definitions := document.definitions.map (Definition.mapValues f) }

/-- An operation that selects nothing. -/
def Definition.withoutSelections : Definition → Definition
  | operation d => operation { d with selectionSet := { d.selectionSet with selections := [] } }
  | d => d

/-- Takes away what the operations select. -/
def Document.withoutSelections (document : Document) : Document :=
  { document with definitions := document.definitions.map Definition.withoutSelections }

end GraphQL.Ast
