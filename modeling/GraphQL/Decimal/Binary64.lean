/-! Double-precision numbers as integers scaled by powers of two, and powers of the two bases that
numbers are written in. -/
namespace GraphQL.Decimal

def twoTo (exponent : Nat) : Nat := Nat.pow 2 exponent

def tenTo (exponent : Nat) : Nat := Nat.pow 10 exponent

/-- The number `mantissa * 2 ^ exponent`, negated if `negative`. -/
structure Binary64 where
  negative : Bool
  mantissa : Nat
  exponent : Int
deriving DecidableEq, Repr

namespace Binary64

/-- The parts of a finite number. -/
def ofFloat? (x : Float) : Option Binary64 :=
  let bits := x.toBits.toNat
  let negative := bits / twoTo 63 == 1
  let field := bits / twoTo 52 % twoTo 11
  let fraction := bits % twoTo 52
  if field = 2047 then none
  else if field = 0 then some ⟨negative, fraction, -1074⟩
  else some ⟨negative, fraction + twoTo 52, Int.ofNat field - 1075⟩

/-- The magnitude, where it is a whole number. -/
def magnitude? (x : Binary64) : Option Nat :=
  if 0 ≤ x.exponent then some (x.mantissa * twoTo x.exponent.toNat)
  else
    let unit := twoTo (-x.exponent).toNat
    if x.mantissa % unit = 0 then some (x.mantissa / unit) else none

/-- The number itself, where it is whole. -/
def toInt? (x : Binary64) : Option Int :=
  x.magnitude?.map fun n => if x.negative then -(n : Int) else n

end Binary64

/-- The integer that a number is, if it is finite and whole. -/
def wholeNumber? (x : Float) : Option Int := Binary64.ofFloat? x >>= Binary64.toInt?

end GraphQL.Decimal
