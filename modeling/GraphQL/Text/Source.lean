/-! Source texts. A text is a string with a name for diagnostics; positions in
it are byte offsets of its UTF-8 form, and a span is a half-open byte range. -/
namespace GraphQL

/-- A text together with the name that diagnostics give it. -/
structure Source where
  body : String
  name : String := "GraphQL"
deriving DecidableEq, Repr

namespace Text

/-- The number of bytes that the characters take in UTF-8. -/
def byteLength : List Char → Nat
  | [] => 0
  | c :: rest => c.utf8Size + byteLength rest

/-- Splits the characters after the first `bytes` bytes. There is no answer where
the cut would fall inside a character or past the end. -/
def splitAt? : Nat → List Char → Option (List Char × List Char)
  | 0, rest => some ([], rest)
  | _ + 1, [] => none
  | bytes + 1, c :: rest =>
      if c.utf8Size ≤ bytes + 1 then
        (splitAt? (bytes + 1 - c.utf8Size) rest).map fun parts => (c :: parts.1, parts.2)
      else none

/-- The characters of the byte range, where both ends lie between characters. -/
def slice? (start stop : Nat) (cs : List Char) : Option (List Char) := do
  if start ≤ stop then
    let tail ← splitAt? start cs
    let middle ← splitAt? (stop - start) tail.2
    return middle.1
  else none

end Text

namespace Source

def chars (source : Source) : List Char := source.body.toList

/-- The length of the text in bytes. -/
def size (source : Source) : Nat := Text.byteLength source.chars

end Source

/-- The byte range of a source text that a node was read from. -/
structure Span where
  start : Nat
  stop : Nat
  source : Source
deriving DecidableEq, Repr

/-- The text inside the span, empty where an end falls inside a character. -/
def Span.text (span : Span) : String :=
  ((Text.slice? span.start span.stop span.source.chars).map String.ofList).getD ""

end GraphQL
