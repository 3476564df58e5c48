import GraphQL.Ast.Node

/-! Depth-first walks. A visitor is called when a node is entered, before its
parts, and when it is left, after them, and answers how the walk goes on. -/
namespace GraphQL.Ast

/-- How a walk goes on after a call: as usual, without the parts of the node that
was entered and without leaving it, or not at all. -/
inductive Action where
  | proceed | skip | stop
deriving DecidableEq, Repr, Inhabited

/-- The two calls of a walk. The ancestors come innermost first. -/
structure Visitor (σ : Type) where
  enter : Node → List Node → StateM σ Action
  leave : Node → List Node → StateM σ Action

mutual

/-- Walks a tree and tells whether the walk came to its end. -/
def Tree.walk {σ : Type} (visitor : Visitor σ) (ancestors : List Node) : Tree → StateM σ Bool
  | node root parts => do
      match ← visitor.enter root ancestors with
      | .stop => return false
      | .skip => return true
      | .proceed =>
          if ← Tree.walkAll visitor (root :: ancestors) parts then
            return (← visitor.leave root ancestors) != .stop
          else return false

def Tree.walkAll {σ : Type} (visitor : Visitor σ) (ancestors : List Node) :
    List Tree → StateM σ Bool
  | [] => return true
  | tree :: rest => do
      if ← tree.walk visitor ancestors then Tree.walkAll visitor ancestors rest else return false

end

/-- Walks a node and its parts from the given state. -/
def Node.walk {σ : Type} (visitor : Visitor σ) (node : Node) : StateM σ Bool :=
  node.tree.walk visitor []

mutual

/-- All nodes of a tree, each before its parts. -/
def Tree.preorder : Tree → List Node
  | node root parts => root :: Tree.preorderAll parts

def Tree.preorderAll : List Tree → List Node
  | [] => []
  | tree :: rest => tree.preorder ++ Tree.preorderAll rest

end

end GraphQL.Ast
