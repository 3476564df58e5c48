/-! Items gathered under keys, the keys in the order in which they are met first. -/
namespace GraphQL

abbrev Groups (α : Type) := List (String × List α)

namespace Groups

variable {α : Type}

/-- The items under a key, in the order in which they were added. -/
def get (groups : Groups α) (key : String) : List α := (groups.lookup key).getD []

def keys (groups : Groups α) : List String := groups.map Prod.fst

def add (key : String) (item : α) : Groups α → Groups α
  | [] => [(key, [item])]
  | (other, items) :: rest =>
      if other = key then (other, items ++ [item]) :: rest
      else (other, items) :: add key item rest

/-- Gathers a list of items. -/
def ofList (key : α → String) (items : List α) : Groups α :=
  items.foldl (fun groups item => groups.add (key item) item) []

end Groups
end GraphQL
