/-! Entries in order. Every key occurs once; a key that is put again keeps its
place and takes the new value. -/
namespace GraphQL

abbrev Entries (α : Type) := List (String × α)

namespace Entries

variable {α : Type}

def get? (entries : Entries α) (key : String) : Option α :=
  (entries.find? fun entry => entry.1 == key).map Prod.snd

def contains (entries : Entries α) (key : String) : Bool :=
  entries.any fun entry => entry.1 == key

def keys (entries : Entries α) : List String := entries.map Prod.fst

def put (key : String) (value : α) : Entries α → Entries α
  | [] => [(key, value)]
  | entry :: rest => if entry.1 == key then (key, value) :: rest else entry :: put key value rest

/-- The entries of pairs put one after the other. -/
def ofPairs (pairs : List (String × α)) : Entries α :=
  pairs.foldl (fun entries pair => put pair.1 pair.2 entries) []

end Entries
end GraphQL
