import GraphQL.Decimal.Shortest

/-! Written forms of numbers: which are written out in positional notation, whether
whole numbers keep a fraction, and which way a tie goes. -/
namespace GraphQL.Decimal

/-- The decisions of a written form. Numbers whose leading digit stands at a power
of ten within the bounds are written out; the others get an exponent with a sign. -/
structure Style where
  positionalFrom : Option Int
  positionalTo : Option Int
  /-- Written after whole numbers. -/
  wholeSuffix : String
  /-- Decides between two shortest decimals that are equally near. -/
  tie : Tie

namespace Style

/-- Responses write out numbers from 0.00001 up to sixteen digits, and every number
has a point or an exponent. A tie goes to the even digit. -/
def json : Style := ⟨some (-5), some 15, ".0", .toEven⟩

/-- Literals are always written out, whole numbers without a point. A tie goes
away from zero. -/
def plain : Style := ⟨none, none, "", .up⟩

def isPositional (style : Style) (leading : Int) : Bool :=
  style.positionalFrom.all (fun least => least ≤ leading)
    && style.positionalTo.all (fun greatest => leading ≤ greatest)

end Style

def zeros (n : Nat) : List Char := List.replicate n '0'

/-- The digits with a point put in after the first `whole` of them. -/
def withPoint (whole : Nat) (digits : List Char) : List Char :=
  digits.take whole ++ '.' :: digits.drop whole

/-- A decimal in positional notation. -/
def positional (style : Style) (digits : List Char) (exponent : Int) : List Char :=
  let whole := digits.length + exponent
  if 0 ≤ exponent then digits ++ zeros exponent.toNat ++ style.wholeSuffix.toList
  else if 0 < whole then withPoint whole.toNat digits
  else ['0', '.'] ++ zeros (-whole).toNat ++ digits

/-- A decimal with one digit before the point and an exponent. -/
def scientific (digits : List Char) (leading : Int) : List Char :=
  let mantissa := if digits.length = 1 then digits else withPoint 1 digits
  let sign := if leading < 0 then '-' else '+'
  mantissa ++ 'e' :: sign :: (Nat.toDigits 10 leading.natAbs)

/-- The text of a finite number. -/
def Style.text (style : Style) (x : Binary64) : String :=
  let d := shortest style.tie x
  let digits := Nat.toDigits 10 d.digits
  let leading := d.exponent + digits.length - 1
  let magnitude :=
    if style.isPositional leading then positional style digits d.exponent
    else scientific digits leading
  String.ofList (if x.negative then '-' :: magnitude else magnitude)

/-- The text of a number in a response; what is not finite has none. -/
def jsonText? (x : Float) : Option String := (Binary64.ofFloat? x).map Style.json.text

/-- The text of a number written out in full. -/
def plainText (x : Float) : String :=
  match Binary64.ofFloat? x with
  | some parts => Style.plain.text parts
  | none => if x.isNaN then "NaN" else if x < 0 then "-inf" else "inf"

end GraphQL.Decimal
