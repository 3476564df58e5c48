import GraphQL.Text.LowerCase

/-! Suggestions for names that are not known: the options that are close to what
was written. -/
namespace GraphQL.Suggestion

/-- The costs of turning the first word as far as `letter` into each prefix of the second
one, from left to right. The rows above are given from the same place on: `above` from the
column before it, and `twoAbove`, which `letterBefore` goes with, from two columns before it. -/
def nextRow (letter : Char) (letterBefore : Option Char) :
    (left : Nat) → (previous : Option Char) → (other : List Char) →
      (above : List Nat) → (twoAbove : List Nat) → List Nat
  | left, previous, c :: rest, corner :: up :: above, twoAbove =>
      let cost := if letter == c then 0 else 1
      let edit := min (min (up + 1) (left + 1)) (corner + cost)
      let swapped :=
        match twoAbove with
        | before :: _ =>
            if previous == some letter && letterBefore == some c then min edit (before + cost)
            else edit
        | [] => edit
      let twoAbove := if previous.isSome then twoAbove.tail else twoAbove
      swapped :: nextRow letter letterBefore swapped (some c) rest (up :: above) twoAbove
  | _, _, _, _, _ => []

/-- The last row of the table of edit costs. Each row is made from the two above it. -/
def lastRow (other : List Char) :
    List Char → (row : Nat) → (letterBefore : Option Char) → (above twoAbove : List Nat) → List Nat
  | [], _, _, above, _ => above
  | letter :: rest, row, letterBefore, above, twoAbove =>
      let next := (row + 1) :: nextRow letter letterBefore (row + 1) none other above twoAbove
      lastRow other rest (row + 1) (some letter) next above

/-- The least number of insertions, deletions, substitutions and swaps of neighbours that
turn one word into the other, no place being edited twice. -/
def editDistance (a b : List Char) : Nat :=
  (lastRow b a 0 none (List.range (b.length + 1)) []).getLastD 0

/-- Words that differ in case only are at distance one. -/
def distance (a b : String) : Nat :=
  if a = b then 0
  else
    let a := Text.lowerCase a.toList
    let b := Text.lowerCase b.toList
    if a = b then 1 else editDistance a b

/-- How far apart two words may be. -/
def threshold (input option : String) : Nat := max (max (input.length / 2) (option.length / 2)) 1

/-- The options close to the input, the closest first. -/
def closest (input : String) (options : List String) : List String :=
  let scored := (options.map fun option => (distance input option, option)).filter fun scored =>
    scored.1 ≤ threshold input scored.2
  let inOrder (a b : Nat × String) : Bool := a.1 < b.1 || (a.1 == b.1 && !(b.2 < a.2))
  (scored.mergeSort inOrder).map Prod.snd

/-- The items with commas between them and an "or" before the last one. -/
def orJoin : List String → String
  | [] => ""
  | [only] => only
  | [first, second] => first ++ " or " ++ second
  | items => ", ".intercalate items.dropLast ++ ", or " ++ items.getLastD ""

/-- Up to five items in quotes, the last one after an "or". -/
def quotedOr (items : List String) : String :=
  orJoin ((items.take 5).map fun item => "'" ++ item ++ "'")

end GraphQL.Suggestion
