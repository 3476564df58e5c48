import GraphQL.Value.Json

/-! Values as JSON text that tells all kinds of values apart. Floats are written by their
bits, and objects as pairs, so that nothing is lost. -/
namespace GraphQL

namespace Tagged

def tag (name text : String) : String := Json.object [(name, text)]

/-- The last hexadecimal digits of a number, in front of digits that follow. -/
def hexDigits (n : Nat) : Nat → List Char → List Char
  | 0, rest => rest
  | count + 1, rest => hexDigits (n / 16) count (Nat.digitChar (n % 16) :: rest)

/-- The last sixteen hexadecimal digits of a number. -/
def hex (n : Nat) : String := String.ofList (hexDigits n 16 [])

/-- The bits of a float. All that is not a number is written alike. -/
def floatBits (x : Float) : String := if x.isNaN then "nan" else hex x.toBits.toNat

def pair (key text : String) : String := Json.array [Text.quote key, text]

end Tagged

namespace Value

mutual

def tagged : Value → String
  | null => "null"
  | int i => toString i
  | float x => Tagged.tag "$f" (Text.quote (Tagged.floatBits x))
  | string s => Text.quote s
  | boolean b => Json.boolean b
  | enum e => Tagged.tag "$e" (Text.quote e)
  | list values => Json.array (taggedItems values)
  | object entries => Tagged.tag "$o" (Json.array (taggedEntries entries))

def taggedItems : List Value → List String
  | [] => []
  | value :: rest => value.tagged :: taggedItems rest

def taggedEntries : List (String × Value) → List String
  | [] => []
  | (key, value) :: rest => Tagged.pair key value.tagged :: taggedEntries rest

end

end Value

/-- Entries as a list of pairs. -/
def Entries.tagged (entries : Entries Value) : String := Json.array (Value.taggedEntries entries)

end GraphQL
