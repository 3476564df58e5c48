import GraphQL.Value.Entries

/-! Runtime values: what resolvers return, what variables hold and what responses
are made of. -/
namespace GraphQL

inductive Value where
  | null
  | int (i : Int)
  | float (x : Float)
  | string (s : String)
  | boolean (b : Bool)
  | enum (name : String)
  | list (values : List Value)
  | object (entries : List (String × Value))

namespace Value

instance : Inhabited Value := ⟨null⟩

def isNull : Value → Bool
  | null => true
  | _ => false

/-- The text of a string or an enum value. -/
def string? : Value → Option String
  | string s | enum s => some s
  | _ => none

def int? : Value → Option Int
  | int i => some i
  | _ => none

/-- A number as a double. -/
def float? : Value → Option Float
  | int i => some (Float.ofInt i)
  | float x => some x
  | _ => none

def boolean? : Value → Option Bool
  | boolean b => some b
  | _ => none

def list? : Value → Option (List Value)
  | list values => some values
  | _ => none

def object? : Value → Option (Entries Value)
  | object entries => some entries
  | _ => none

/-- The value at a key of an object. -/
def get? (value : Value) (key : String) : Option Value := value.object?.bind fun es => es.get? key

mutual

/-- Equality of values: numbers compare as numbers, and the order of an object's
keys does not count. -/
def equal : Value → Value → Bool
  | null, null => true
  | int i, int j => i == j
  | float x, float y => x == y
  | string s, string t => s == t
  | boolean b, boolean c => b == c
  | enum s, enum t => s == t
  | list vs, list ws => equalList vs ws
  | object es, object fs => es.length == fs.length && equalEntries es fs
  | _, _ => false

def equalList : List Value → List Value → Bool
  | [], [] => true
  | v :: vs, w :: ws => equal v w && equalList vs ws
  | _, _ => false

/-- Whether each entry has an equal one under its key. -/
def equalEntries : List (String × Value) → List (String × Value) → Bool
  | [], _ => true
  | (key, v) :: rest, fs =>
      (match Entries.get? fs key with
        | some w => equal v w
        | none => false) && equalEntries rest fs

end

instance : BEq Value := ⟨equal⟩

end Value
end GraphQL
