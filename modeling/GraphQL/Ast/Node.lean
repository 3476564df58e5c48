import GraphQL.Ast.Document

/-! Documents as trees. A node is any part of a document that a walk stops at;
its tree holds its parts in document order. Definitions of the type system have
no parts. -/
namespace GraphQL.Ast

inductive Node where
  | document (of : Document)
  | operation (of : OperationDefinition)
  | variableDefinition (of : VariableDefinition)
  | var (of : Variable)
  | selectionSet (of : SelectionSet)
  | field (of : Field)
  | argument (of : Argument)
  | spread (of : FragmentSpread)
  | inline (of : InlineFragment)
  | fragment (of : FragmentDefinition)
  | value (of : Value)
  | objectField (of : ObjectField)
  | directive (of : Directive)
  | namedType (of : NamedType)
  | listType (item : TypeAnnotation) (span : Option Span)
  | nonNullType (type : TypeAnnotation) (span : Option Span)
  | typeSystem (of : TypeSystemDefinition)
deriving DecidableEq

namespace Node

def span : Node → Option Span
  | document n => n.span
  | operation n => n.span
  | variableDefinition n => n.span
  | var n => n.span
  | selectionSet n => n.span
  | field n => n.span
  | argument n => n.span
  | spread n => n.span
  | inline n => n.span
  | fragment n => n.span
  | value n => n.span
  | objectField n => n.span
  | directive n => n.span
  | namedType n => n.span
  | listType _ s => s
  | nonNullType _ s => s
  | typeSystem n => n.span

end Node

/-- A node with the trees of its parts. -/
inductive Tree where
  | node (root : Node) (parts : List Tree)

namespace Tree

def root : Tree → Node
  | node root _ => root

def parts : Tree → List Tree
  | node _ parts => parts

mutual

def ofValue : Value → Tree
  | .list values span => node (.value (.list values span)) (ofValues values)
  | .object fields span => node (.value (.object fields span)) (ofObjectFields fields)
  | value => node (.value value) []

def ofValues : List Value → List Tree
  | [] => []
  | value :: rest => ofValue value :: ofValues rest

def ofObjectField : ObjectField → Tree
  | ⟨name, value, span⟩ => node (.objectField ⟨name, value, span⟩) [ofValue value]

def ofObjectFields : List ObjectField → List Tree
  | [] => []
  | field :: rest => ofObjectField field :: ofObjectFields rest

end

def ofType : TypeAnnotation → Tree
  | .named type => node (.namedType type) []
  | .list item span => node (.listType item span) [ofType item]
  | .nonNull type span => node (.nonNullType type span) [ofType type]

def ofNamedType (type : NamedType) : Tree := node (.namedType type) []

def ofArgument (argument : Argument) : Tree := node (.argument argument) [ofValue argument.value]

def ofDirective (directive : Directive) : Tree :=
  node (.directive directive) (directive.arguments.map ofArgument)

def ofSpread (spread : FragmentSpread) : Tree :=
  node (.spread spread) (spread.directives.map ofDirective)

mutual

def ofField : Field → Tree
  | ⟨nickname, name, arguments, directives, selections, span⟩ =>
      node (.field ⟨nickname, name, arguments, directives, selections, span⟩)
        (arguments.map ofArgument ++ directives.map ofDirective ++ ofOptionalSet selections)

def ofInline : InlineFragment → Tree
  | ⟨condition, directives, selections, span⟩ =>
      node (.inline ⟨condition, directives, selections, span⟩)
        (condition.toList.map ofNamedType ++ directives.map ofDirective ++ [ofSet selections])

def ofSelection : Selection → Tree
  | .field field => ofField field
  | .spread spread => ofSpread spread
  | .inline inline => ofInline inline

def ofSelections : List Selection → List Tree
  | [] => []
  | selection :: rest => ofSelection selection :: ofSelections rest

def ofSet : SelectionSet → Tree
  | ⟨selections, span⟩ => node (.selectionSet ⟨selections, span⟩) (ofSelections selections)

def ofOptionalSet : Option SelectionSet → List Tree
  | none => []
  | some selections => [ofSet selections]

end

def ofVariableDefinition (definition : VariableDefinition) : Tree :=
  node (.variableDefinition definition)
    (node (.var definition.target) [] :: ofType definition.type
      :: definition.defaultValue.toList.map ofValue)

def ofOperation (operation : OperationDefinition) : Tree :=
  node (.operation operation)
    (operation.variableDefinitions.map ofVariableDefinition ++ operation.directives.map ofDirective
      ++ [ofSet operation.selectionSet])

def ofFragment (fragment : FragmentDefinition) : Tree :=
  node (.fragment fragment)
    (ofNamedType fragment.typeCondition :: fragment.directives.map ofDirective
      ++ [ofSet fragment.selectionSet])

def ofDefinition : Definition → Tree
  | .operation d => ofOperation d
  | .fragment d => ofFragment d
  | .typeSystem d => node (.typeSystem d) []

def ofDocument (document : Document) : Tree :=
  node (.document document) (document.definitions.map ofDefinition)

end Tree

namespace Node

def tree : Node → Tree
  | document n => .ofDocument n
  | operation n => .ofOperation n
  | variableDefinition n => .ofVariableDefinition n
  | var n => .node (.var n) []
  | selectionSet n => .ofSet n
  | field n => .ofField n
  | argument n => .ofArgument n
  | spread n => .ofSpread n
  | inline n => .ofInline n
  | fragment n => .ofFragment n
  | value n => .ofValue n
  | objectField n => .ofObjectField n
  | directive n => .ofDirective n
  | namedType n => .ofNamedType n
  | listType item span => .ofType (.list item span)
  | nonNullType type span => .ofType (.nonNull type span)
  | typeSystem n => .node (.typeSystem n) []

/-- The parts of a node in document order. -/
def children (node : Node) : List Node := node.tree.parts.map Tree.root

/-- The node of a type annotation. -/
def ofType : TypeAnnotation → Node
  | .named type => namedType type
  | .list item span => listType item span
  | .nonNull type span => nonNullType type span

end Node
end GraphQL.Ast
