import GraphQL.Text.Location

/-! Names and value literals. Every node keeps the span it was read from, unless
the text was read without locations. Numbers stay as they were written. -/
namespace GraphQL.Ast

structure Name where
  text : String
  span : Option Span := none
deriving DecidableEq, Repr

structure Variable where
  name : Name
  span : Option Span := none
deriving DecidableEq, Repr

mutual

inductive Value where
  | var (of : Variable)
  | int (text : String) (span : Option Span)
  | float (text : String) (span : Option Span)
  | string (value : String) (span : Option Span)
  | boolean (value : Bool) (span : Option Span)
  | null (span : Option Span)
  | enum (name : String) (span : Option Span)
  | list (values : List Value) (span : Option Span)
  | object (fields : List ObjectField) (span : Option Span)

structure ObjectField where
  name : Name
  value : Value
  span : Option Span := none

end

namespace Value

instance : Inhabited Value := ⟨.null none⟩

def span : Value → Option Span
  | var v => v.span
  | int _ s | float _ s | string _ s | boolean _ s | null s | enum _ s | list _ s | object _ s => s

mutual

/-- Whether no variable occurs in the literal. -/
def isConst : Value → Bool
  | var _ => false
  | list values _ => areConst values
  | object fields _ => fieldsAreConst fields
  | _ => true

def areConst : List Value → Bool
  | [] => true
  | value :: rest => value.isConst && areConst rest

def fieldsAreConst : List ObjectField → Bool
  | [] => true
  | ⟨_, value, _⟩ :: rest => value.isConst && fieldsAreConst rest

end

mutual

def same : Value → Value → Bool
  | var v, var w => v == w
  | int t s, int t' s' | float t s, float t' s' | string t s, string t' s' | enum t s, enum t' s' =>
      t == t' && s == s'
  | boolean b s, boolean b' s' => b == b' && s == s'
  | null s, null s' => s == s'
  | list vs s, list vs' s' => sameList vs vs' && s == s'
  | object fs s, object fs' s' => sameFields fs fs' && s == s'
  | _, _ => false

def sameList : List Value → List Value → Bool
  | [], [] => true
  | v :: vs, w :: ws => same v w && sameList vs ws
  | _, _ => false

def sameFields : List ObjectField → List ObjectField → Bool
  | [], [] => true
  | ⟨n, v, s⟩ :: fs, ⟨n', v', s'⟩ :: gs => (n == n' && same v v' && s == s') && sameFields fs gs
  | _, _ => false

end

mutual

theorem same_iff : (v w : Value) → (same v w = true ↔ v = w)
  | var _, w | int _ _, w | float _ _, w | string _ _, w | boolean _ _, w | null _, w
  | enum _ _, w => by cases w <;> simp [same]
  | list vs _, w => by cases w <;> simp [same, sameList_iff vs]
  | object fs _, w => by cases w <;> simp [same, sameFields_iff fs]

theorem sameList_iff : (vs ws : List Value) → (sameList vs ws = true ↔ vs = ws)
  | [], ws => by cases ws <;> simp [sameList]
  | v :: vs, ws => by cases ws <;> simp [sameList, same_iff v, sameList_iff vs]

theorem sameFields_iff : (fs gs : List ObjectField) → (sameFields fs gs = true ↔ fs = gs)
  | [], gs => by cases gs <;> simp [sameFields]
  | ⟨n, v, s⟩ :: fs, gs => by
      rcases gs with _ | ⟨⟨n', v', s'⟩, gs⟩ <;>
        simp [sameFields, same_iff v, sameFields_iff fs, and_assoc]

end

instance : DecidableEq Value := fun v w => decidable_of_iff _ (same_iff v w)

end Value

instance : DecidableEq ObjectField := fun f g =>
  decidable_of_iff (f.name = g.name ∧ f.value = g.value ∧ f.span = g.span) <| by
    cases f; cases g; simp

end GraphQL.Ast
