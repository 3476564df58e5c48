import GraphQL.Ast.Value
import GraphQL.Ast.TypeAnnotation

/-! Selections: fields, fragment spreads and inline fragments, with their
arguments and directives. -/
namespace GraphQL.Ast

structure Argument where
  name : Name
  value : Value
  span : Option Span := none
deriving DecidableEq

structure Directive where
  name : Name
  arguments : List Argument
  span : Option Span := none
deriving DecidableEq

structure FragmentSpread where
  name : Name
  directives : List Directive
  span : Option Span := none
deriving DecidableEq

mutual

inductive Selection where
  | field (of : Field)
  | spread (of : FragmentSpread)
  | inline (of : InlineFragment)

structure Field where
  /-- The name to answer under, if it is not the field's own. -/
  nickname : Option Name
  name : Name
  arguments : List Argument
  directives : List Directive
  selectionSet : Option SelectionSet
  span : Option Span := none

structure InlineFragment where
  typeCondition : Option NamedType
  directives : List Directive
  selectionSet : SelectionSet
  span : Option Span := none

structure SelectionSet where
  selections : List Selection
  span : Option Span := none

end

instance : Inhabited SelectionSet := ⟨⟨[], none⟩⟩

/-- The name under which a field's value stands in a response. -/
def Field.responseKey (field : Field) : String := (field.nickname.getD field.name).text

namespace Selection

def directives : Selection → List Directive
  | field f => f.directives
  | spread s => s.directives
  | inline i => i.directives

def span : Selection → Option Span
  | field f => f.span
  | spread s => s.span
  | inline i => i.span

mutual

def same : Selection → Selection → Bool
  | field f, field g => sameField f g
  | spread s, spread t => s == t
  | inline ⟨c, ds, set, s⟩, inline ⟨c', ds', set', s'⟩ =>
      c == c' && ds == ds' && sameSet set set' && s == s'
  | _, _ => false

def sameField : Field → Field → Bool
  | ⟨a, n, as, ds, set, s⟩, ⟨a', n', as', ds', set', s'⟩ =>
      a == a' && n == n' && as == as' && ds == ds' && sameOption set set' && s == s'

def sameOption : Option SelectionSet → Option SelectionSet → Bool
  | none, none => true
  | some set, some set' => sameSet set set'
  | _, _ => false

def sameSet : SelectionSet → SelectionSet → Bool
  | ⟨xs, s⟩, ⟨ys, s'⟩ => sameList xs ys && s == s'

def sameList : List Selection → List Selection → Bool
  | [], [] => true
  | x :: xs, y :: ys => same x y && sameList xs ys
  | _, _ => false

end

mutual

theorem same_iff : (x y : Selection) → (same x y = true ↔ x = y)
  | field f, y => by cases y <;> simp [same, sameField_iff f]
  | spread _, y => by cases y <;> simp [same]
  | inline ⟨c, ds, set, s⟩, y => by
      rcases y with _ | _ | ⟨c', ds', set', s'⟩ <;> simp [same, sameSet_iff set, and_assoc]

theorem sameField_iff : (f g : Field) → (sameField f g = true ↔ f = g)
  | ⟨a, n, as, ds, set, s⟩, ⟨a', n', as', ds', set', s'⟩ => by
      simp [sameField, sameOption_iff set, and_assoc]

theorem sameOption_iff : (s t : Option SelectionSet) → (sameOption s t = true ↔ s = t)
  | none, t => by cases t <;> simp [sameOption]
  | some s, t => by cases t <;> simp [sameOption, sameSet_iff s]

theorem sameSet_iff : (s t : SelectionSet) → (sameSet s t = true ↔ s = t)
  | ⟨xs, s⟩, ⟨ys, s'⟩ => by simp [sameSet, sameList_iff xs]

theorem sameList_iff : (xs ys : List Selection) → (sameList xs ys = true ↔ xs = ys)
  | [], ys => by cases ys <;> simp [sameList]
  | x :: xs, ys => by cases ys <;> simp [sameList, same_iff x, sameList_iff xs]

end
end Selection

instance : DecidableEq Selection := fun x y => decidable_of_iff _ (Selection.same_iff x y)
instance : DecidableEq Field := fun f g => decidable_of_iff _ (Selection.sameField_iff f g)
instance : DecidableEq SelectionSet := fun s t => decidable_of_iff _ (Selection.sameSet_iff s t)
instance : DecidableEq InlineFragment := fun i j =>
  decidable_of_iff (Selection.inline i = Selection.inline j) (by simp)

end GraphQL.Ast
