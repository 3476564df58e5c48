import GraphQL.Ast.Value

/-! Type annotations as written: a name, a list, or a non-null type. -/
namespace GraphQL.Ast

structure NamedType where
  name : Name
  span : Option Span := none
deriving DecidableEq, Repr

inductive TypeAnnotation where
  | named (type : NamedType)
  | list (item : TypeAnnotation) (span : Option Span)
  | nonNull (type : TypeAnnotation) (span : Option Span)
deriving DecidableEq, Repr

namespace TypeAnnotation

/-- The name inside all wrappers. -/
def innermost : TypeAnnotation → NamedType
  | named type => type
  | list item _ => item.innermost
  | nonNull type _ => type.innermost

def span : TypeAnnotation → Option Span
  | named type => type.span
  | list _ s | nonNull _ s => s

/-- The annotation as text. -/
def text : TypeAnnotation → String
  | named type => type.name.text
  | list item _ => "[" ++ item.text ++ "]"
  | nonNull type _ => type.text ++ "!"

end TypeAnnotation
end GraphQL.Ast
