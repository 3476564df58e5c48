/-! References to types: a name inside any number of list and non-null wrappers. -/
namespace GraphQL

inductive TypeRef where
  | named (name : String)
  | list (item : TypeRef)
  | nonNull (type : TypeRef)
deriving DecidableEq, Repr, Inhabited

namespace TypeRef

/-- The name inside all wrappers. -/
def innermost : TypeRef → String
  | named name => name
  | list item => item.innermost
  | nonNull type => type.innermost

def isNonNull : TypeRef → Bool
  | nonNull _ => true
  | _ => false

def isList : TypeRef → Bool
  | list _ => true
  | _ => false

/-- The type without an outer non-null wrapper. -/
def nullable : TypeRef → TypeRef
  | nonNull type => type
  | type => type

/-- The item type of a list, non-null or not. -/
def item? (type : TypeRef) : Option TypeRef :=
  match type.nullable with
  | list item => some item
  | _ => none

/-- Whether a non-null wrapper stands directly around another. -/
def hasNestedNonNull : TypeRef → Bool
  | named _ => false
  | list item => item.hasNestedNonNull
  | nonNull type => type.isNonNull || type.hasNestedNonNull

def text : TypeRef → String
  | named name => name
  | list item => "[" ++ item.text ++ "]"
  | nonNull type => type.text ++ "!"

end TypeRef
end GraphQL
