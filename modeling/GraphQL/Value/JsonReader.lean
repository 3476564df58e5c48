import GraphQL.Value.Basic
import GraphQL.Decimal.Reader

/-! Reading JSON text as a value. Whole numbers of 64 bits become integers, all
others doubles; a repeated key keeps its first place and takes the last value. -/
namespace GraphQL

namespace JsonReader

/-- How many arrays and objects may be open at once. -/
def maxDepth : Nat := 127

def isBlank (c : Char) : Bool := c == ' ' || c == '\n' || c == '\t' || c == '\r'

def dropBlanks (cs : List Char) : List Char := cs.dropWhile isBlank

/-- Adds digits to a significand while it fits 64 bits, and gives the digits that
no longer do. -/
def significand (n : Nat) : List Char → Nat × List Char
  | [] => (n, [])
  | c :: rest =>
      let next := n * 10 + Decimal.ofDigits [c]
      if next < Decimal.twoTo 64 then significand next rest else (n, c :: rest)

/-- `x * 10 ^ exponent` with one rounding for each power of ten up to the 308th. There
is no number past the greatest double. -/
def scale (x : Float) (exponent : Int) : Nat → Option Float
  | 0 => some x
  | fuel + 1 =>
      let power := Decimal.nearest 1 (min exponent.natAbs 308)
      if exponent.natAbs ≤ 308 then
        let scaled := if 0 ≤ exponent then x * power else x / power
        if scaled.isInf then none else some scaled
      else if x == 0.0 then some x
      else if 0 ≤ exponent then none
      else scale (x / power) (exponent + 308) fuel

/-- The digits of a number after its sign, and the rest of the text. A fraction and
an exponent are absent or not empty. -/
structure Digits where
  whole : List Char
  fraction : Option (List Char)
  exponent : Option Int

def oneOrMoreDigits (cs : List Char) : Option (List Char × List Char) :=
  match cs.takeWhile Decimal.isDigit with
  | [] => none
  | digits => some (digits, cs.dropWhile Decimal.isDigit)

/-- The whole digits of a number, which start with a zero only if there are no more. -/
def wholeDigits : List Char → Option (List Char × List Char)
  | '0' :: rest =>
      if (rest.head?.map Decimal.isDigit).getD false then none else some (['0'], rest)
  | cs => oneOrMoreDigits cs

def fraction : List Char → Option (Option (List Char) × List Char)
  | '.' :: rest => (oneOrMoreDigits rest).map fun (digits, after) => (some digits, after)
  | cs => some (none, cs)

def exponent : List Char → Option (Option Int × List Char)
  | c :: rest =>
      if c == 'e' || c == 'E' then do
        let (negative, unsigned) := Decimal.sign rest
        let (digits, after) ← oneOrMoreDigits unsigned
        let value := Int.ofNat (Decimal.ofDigits digits)
        return (some (if negative then -value else value), after)
      else some (none, c :: rest)
  | [] => some (none, [])

/-- The value of a number. -/
def numberValue (negative : Bool) (d : Digits) : Option Value :=
  let (whole, dropped) := significand 0 d.whole
  match d.fraction, d.exponent, dropped with
  | none, none, [] =>
      let i : Int := if negative then -(whole : Int) else whole
      if Decimal.fitsBits 64 i && !(negative && whole == 0) then some (.int i)
      else some (.float (Decimal.withSign negative (Float.ofNat whole)))
  | fraction, exponent, dropped => do
      let fraction := fraction.getD []
      let (all, cut) := significand whole fraction
      let places := Int.ofNat dropped.length - (Int.ofNat fraction.length - Int.ofNat cut.length)
      let x ← scale (Float.ofNat all) (places + exponent.getD 0) 4
      return .float (Decimal.withSign negative x)

def number (cs : List Char) : Option (Value × List Char) := do
  let (negative, unsigned) := match cs with
    | '-' :: rest => (true, rest)
    | cs => (false, cs)
  let (whole, afterWhole) ← wholeDigits unsigned
  let (fraction, afterFraction) ← fraction afterWhole
  let (exponent, after) ← exponent afterFraction
  let value ← numberValue negative ⟨whole, fraction, exponent⟩
  return (value, after)

def hexDigit? (c : Char) : Option Nat :=
  if '0' ≤ c && c ≤ '9' then some (c.toNat - '0'.toNat)
  else if 'a' ≤ c && c ≤ 'f' then some (c.toNat - 'a'.toNat + 10)
  else if 'A' ≤ c && c ≤ 'F' then some (c.toNat - 'A'.toNat + 10)
  else none

/-- Four hexadecimal digits. -/
def codeUnit (cs : List Char) : Option (Nat × List Char) :=
  match cs with
  | a :: b :: c :: d :: rest => do
      let a ← hexDigit? a
      let b ← hexDigit? b
      let c ← hexDigit? c
      let d ← hexDigit? d
      return (((a * 16 + b) * 16 + c) * 16 + d, rest)
  | _ => none

/-- The character of a `\u` escape, which may take a pair of them. -/
def unicodeEscape (cs : List Char) : Option (Char × List Char) := do
  let (high, rest) ← codeUnit cs
  if 0xd800 ≤ high && high < 0xdc00 then
    match rest with
    | '\\' :: 'u' :: more =>
        let (low, after) ← codeUnit more
        if 0xdc00 ≤ low && low < 0xe000 then
          return (Char.ofNat (0x10000 + (high - 0xd800) * 0x400 + (low - 0xdc00)), after)
        else none
    | _ => none
  else if high.isValidChar then return (Char.ofNat high, rest)
  else none

def simpleEscape? : Char → Option Char
  | '"' => some '"'
  | '\\' => some '\\'
  | '/' => some '/'
  | 'b' => some '\x08'
  | 'f' => some '\x0c'
  | 'n' => some '\n'
  | 'r' => some '\r'
  | 't' => some '\t'
  | _ => none

/-- The characters up to the closing quote. -/
def stringBody : Nat → List Char → Option (List Char × List Char)
  | 0, _ => none
  | fuel + 1, cs =>
      match cs with
      | '"' :: rest => some ([], rest)
      | '\\' :: 'u' :: rest => do
          let (c, after) ← unicodeEscape rest
          let (more, after) ← stringBody fuel after
          return (c :: more, after)
      | '\\' :: letter :: rest => do
          let c ← simpleEscape? letter
          let (more, after) ← stringBody fuel rest
          return (c :: more, after)
      | c :: rest =>
          if c.toNat < 32 then none
          else do
            let (more, after) ← stringBody fuel rest
            return (c :: more, after)
      | [] => none

def string (cs : List Char) : Option (String × List Char) :=
  match cs with
  | '"' :: rest => (stringBody rest.length rest).map fun (body, after) => (String.ofList body, after)
  | _ => none

/-- Items separated by commas up to the closing character; `first` tells whether no
item came yet. -/
def items {α : Type} (close : Char) (item : List Char → Option (α × List Char)) :
    (first : Bool) → Nat → List Char → Option (List α × List Char)
  | _, 0, _ => none
  | first, fuel + 1, cs =>
      match dropBlanks cs with
      | [] => none
      | c :: rest =>
          if c == close then some ([], rest)
          else do
            let start ← if first then some (c :: rest) else if c == ',' then some rest else none
            let (x, after) ← item (dropBlanks start)
            let (more, after) ← items close item false fuel after
            return (x :: more, after)

/-- A key, a colon and a value. -/
def member (value : List Char → Option (Value × List Char)) (cs : List Char) : Option ((String × Value) × List Char) := do
  let (key, afterKey) ← string cs
  match dropBlanks afterKey with
  | ':' :: rest =>
      let (v, after) ← value (dropBlanks rest)
      return ((key, v), after)
  | _ => none

/-- A value that starts with the first of the characters. -/
def value (depth : Nat) (cs : List Char) : Option (Value × List Char) :=
  match cs with
  | 'n' :: 'u' :: 'l' :: 'l' :: rest => some (.null, rest)
  | 't' :: 'r' :: 'u' :: 'e' :: rest => some (.boolean true, rest)
  | 'f' :: 'a' :: 'l' :: 's' :: 'e' :: rest => some (.boolean false, rest)
  | '"' :: _ => (string cs).map fun (s, after) => (.string s, after)
  | '[' :: rest =>
      match depth with
      | 0 => none
      | depth + 1 =>
          (items ']' (value depth) true cs.length rest).map fun (vs, after) => (.list vs, after)
  | '{' :: rest =>
      match depth with
      | 0 => none
      | depth + 1 =>
          (items '}' (member (value depth)) true cs.length rest).map fun (members, after) =>
            (.object (Entries.ofPairs members), after)
  | _ => number cs

end JsonReader

/-- The value that a JSON text writes, if it is one. -/
def Value.ofJson? (text : String) : Option Value := do
  let (value, rest) ← JsonReader.value JsonReader.maxDepth (JsonReader.dropBlanks text.toList)
  if (JsonReader.dropBlanks rest).isEmpty then return value else none

end GraphQL
