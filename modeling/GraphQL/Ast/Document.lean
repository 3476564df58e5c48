import GraphQL.Ast.TypeSystem

/-! Documents: operations, fragments and definitions of the type system. -/
namespace GraphQL.Ast

structure VariableDefinition where
  target : Variable
  type : TypeAnnotation
  defaultValue : Option Value
  span : Option Span := none
deriving DecidableEq

structure OperationDefinition where
  operation : OperationType
  name : Option Name
  variableDefinitions : List VariableDefinition
  directives : List Directive
  selectionSet : SelectionSet
  span : Option Span := none
deriving DecidableEq

structure FragmentDefinition where
  name : Name
  typeCondition : NamedType
  directives : List Directive
  selectionSet : SelectionSet
  span : Option Span := none
deriving DecidableEq

inductive Definition where
  | operation (of : OperationDefinition)
  | fragment (of : FragmentDefinition)
  | typeSystem (of : TypeSystemDefinition)
deriving DecidableEq

def Definition.span : Definition → Option Span
  | operation d => d.span
  | fragment d => d.span
  | typeSystem d => d.span

def Definition.operation? : Definition → Option OperationDefinition
  | operation d => some d
  | _ => none

def Definition.fragment? : Definition → Option FragmentDefinition
  | fragment d => some d
  | _ => none

structure Document where
  definitions : List Definition
  span : Option Span := none
deriving DecidableEq

namespace Document

def operations (document : Document) : List OperationDefinition :=
  document.definitions.filterMap Definition.operation?

def fragments (document : Document) : List FragmentDefinition :=
  document.definitions.filterMap Definition.fragment?

/-- The first fragment of a name. -/
def fragment? (document : Document) (name : String) : Option FragmentDefinition :=
  document.fragments.find? fun fragment => fragment.name.text == name

end Document
end GraphQL.Ast
