import GraphQL.Value.Entries

/-! Definitions under names. The first definition of a name counts; names that are
defined again are kept for the report. -/
namespace GraphQL

class Named (α : Type) where
  name : α → String

structure Definitions (α : Type) where
  items : List α
  repeated : List String := []

namespace Definitions

variable {α : Type} [Named α]

def empty : Definitions α := ⟨[], []⟩

def find? (definitions : Definitions α) (name : String) : Option α :=
  definitions.items.find? fun item => Named.name item == name

def contains (definitions : Definitions α) (name : String) : Bool :=
  definitions.items.any fun item => Named.name item == name

/-- Adds a definition after the others. -/
def add (definitions : Definitions α) (item : α) : Definitions α :=
  if definitions.contains (Named.name item) then
    { definitions with repeated := definitions.repeated ++ [Named.name item] }
  else { definitions with items := definitions.items ++ [item] }

/-- Definitions given one by one. -/
def ofList (items : List α) : Definitions α := items.foldl add empty

/-- Definitions given all at once as entries: of several under one name the last one
counts, in the place of the first. -/
def ofEntries (items : List α) : Definitions α :=
  ⟨(Entries.ofPairs (items.map fun item => (Named.name item, item))).map Prod.snd, []⟩

/-- How the definitions of a type are given. -/
inductive Given (α : Type) where
  | oneByOne (items : List α)
  | allAtOnce (items : List α)

/-- One more definition. What was given all at once gives way to it. -/
def Given.push : Given α → α → Given α
  | .oneByOne items, item => .oneByOne (items ++ [item])
  | .allAtOnce _, item => .oneByOne [item]

def ofGiven : Given α → Definitions α
  | .oneByOne items => ofList items
  | .allAtOnce items => ofEntries items

end Definitions
end GraphQL
