import GraphQL.Text.Source

/-! Lines and columns. A line ends at LF, at CR, or at CR LF; lines and columns
count from one and columns count characters. The LF of a CR LF pair still
belongs to the line that the pair ends. -/
namespace GraphQL

structure Location where
  line : Nat
  column : Nat
deriving DecidableEq, Repr

namespace Location

def origin : Location := ⟨1, 1⟩

protected def toString (here : Location) : String :=
  toString here.line ++ ":" ++ toString here.column

end Location

namespace Text

/-- Whether a line ends with this character, given what follows it. -/
def endsLine (c : Char) (rest : List Char) : Bool :=
  c == '\n' || (c == '\r' && rest.head? != some '\n')

/-- The location reached from `here` after all characters that start within the
next `bytes` bytes. -/
def locate (here : Location) : Nat → List Char → Location
  | 0, _ => here
  | _ + 1, [] => here
  | bytes + 1, c :: rest =>
      let next := if endsLine c rest then ⟨here.line + 1, 1⟩ else ⟨here.line, here.column + 1⟩
      locate next (bytes + 1 - c.utf8Size) rest

/-- The lines of a text without their terminators. -/
def lines : List Char → List (List Char)
  | [] => [[]]
  | c :: rest =>
      if c == '\n' then [] :: lines rest
      else if c == '\r' then
        if rest.head? == some '\n' then lines rest else [] :: lines rest
      else match lines rest with
        | [] => [[c]]
        | line :: others => (c :: line) :: others

end Text

/-- The line and column of a byte offset; an offset past the end is the end. -/
def Source.location (source : Source) (position : Nat) : Location :=
  Text.locate .origin position source.chars

def Span.location (span : Span) : Location := span.source.location span.start

namespace Text

def padLeft (width : Nat) (s : String) : String :=
  String.ofList (List.replicate (width - s.length) ' ') ++ s

/-- One numbered line of an excerpt. -/
def numbered (width number : Nat) (line : List Char) : String :=
  padLeft width (toString number) ++ ": " ++ String.ofList line ++ "\n"

end Text

/-- The line of a location with its two neighbours, each numbered, and a caret
under the column. Numbers are aligned to the width of the number that follows
the line. -/
def Source.excerpt (source : Source) (here : Location) : String :=
  let lines := Text.lines source.chars
  let width := (toString (here.line + 1)).length
  let before :=
    if 2 ≤ here.line then
      (lines[here.line - 2]?.map (Text.numbered width (here.line - 1))).getD ""
    else ""
  let current :=
    if 1 ≤ here.line then
      (lines[here.line - 1]?.map fun line =>
        Text.numbered width here.line line
          ++ String.ofList (List.replicate (1 + width + here.column) ' ') ++ "^\n").getD ""
    else ""
  let after := (lines[here.line]?.map (Text.numbered width (here.line + 1))).getD ""
  before ++ current ++ after

end GraphQL
