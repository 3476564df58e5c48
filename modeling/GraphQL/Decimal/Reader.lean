import GraphQL.Decimal.Binary64

/-! Reading numbers from text. -/
namespace GraphQL.Decimal

def isDigit (c : Char) : Bool := '0' ≤ c && c ≤ '9'

/-- The number that decimal digits write. -/
def ofDigits (digits : List Char) : Nat :=
  digits.foldl (fun n c => n * 10 + (c.toNat - '0'.toNat)) 0

/-- An optional sign: whether the number is negative, and what follows. -/
def sign : List Char → Bool × List Char
  | '-' :: rest => (true, rest)
  | '+' :: rest => (false, rest)
  | rest => (false, rest)

/-- An optional sign and one or more digits. -/
def int? (cs : List Char) : Option Int :=
  let (negative, digits) := sign cs
  if digits.isEmpty || !digits.all isDigit then none
  else some (if negative then -(ofDigits digits : Int) else ofDigits digits)

def fitsBits (bits : Nat) (i : Int) : Bool :=
  let bound : Int := twoTo (bits - 1)
  i ≥ -bound && i < bound

/-- A text that writes an integer of 64 bits. -/
def int64? (text : String) : Option Int := (int? text.toList).filter (fitsBits 64)

def infinity : Float := 1.0 / 0.0

/-- The number nearest to `mantissa * 10 ^ exponent`. Far outside the range of
doubles the answer is known without computing the power. -/
def nearest (mantissa : Nat) (exponent : Int) : Float :=
  let leading := exponent + (Nat.toDigits 10 mantissa).length
  if mantissa = 0 ∨ leading < -330 then 0.0
  else if 310 < leading then infinity
  else Float.ofScientific mantissa (exponent < 0) exponent.natAbs

def withSign (negative : Bool) (x : Float) : Float := if negative then -x else x

/-- The exponent part of a number, which is the rest of the text. -/
def exponentPart? : List Char → Option Int
  | [] => some 0
  | c :: rest => if c == 'e' || c == 'E' then int? rest else none

/-- Digits with an optional point among or around them, and an optional exponent. -/
def magnitude? (cs : List Char) : Option Float := do
  let whole := cs.takeWhile isDigit
  let afterWhole := cs.dropWhile isDigit
  let (fraction, rest) :=
    match afterWhole with
    | '.' :: tail => (tail.takeWhile isDigit, tail.dropWhile isDigit)
    | tail => ([], tail)
  let digits := whole ++ fraction
  if digits.isEmpty then none
  let exponent ← exponentPart? rest
  return nearest (ofDigits digits) (exponent - fraction.length)

/-- The words for what is not finite, in any case. -/
def special? (cs : List Char) : Option Float :=
  match String.ofList (cs.map Char.toLower) with
  | "inf" | "infinity" => some infinity
  | "nan" => some (0.0 / 0.0)
  | _ => none

/-- A text that writes a number, as a double. -/
def float? (cs : List Char) : Option Float :=
  let (negative, rest) := sign cs
  ((magnitude? rest).orElse fun _ => special? rest).map (withSign negative)

/-- The blanks around a number, in any script. -/
def isBlank (c : Char) : Bool :=
  let n := c.toNat
  (9 ≤ n && n ≤ 13) || n == 0x20 || n == 0x85 || n == 0xa0 || n == 0x1680
    || (0x2000 ≤ n && n ≤ 0x200a) || n == 0x2028 || n == 0x2029 || n == 0x202f || n == 0x205f
    || n == 0x3000

def trim (cs : List Char) : List Char :=
  ((cs.dropWhile isBlank).reverse.dropWhile isBlank).reverse

end GraphQL.Decimal
