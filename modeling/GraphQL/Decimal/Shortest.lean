import GraphQL.Decimal.Binary64

/-! The shortest decimal that reads back as a given number. Every number between
the midpoints to its two neighbours reads back as it, the midpoints included where
the mantissa is even. Among the decimals there with the fewest digits the nearest
one is taken; which of two equally near ones is up to the written form. -/
namespace GraphQL.Decimal

/-- The number `digits * 10 ^ exponent`. -/
structure Decimal where
  digits : Nat
  exponent : Int
deriving DecidableEq, Repr

/-- Which of two neighbouring decimals stands for the magnitude halfway between
them: the one with the even last digit, or the greater one. -/
inductive Tie where
  | toEven
  | up
deriving DecidableEq, Repr

namespace Tie

/-- Whether the lower of the two neighbours is taken. -/
def keepsLower : Tie → Decimal → Bool
  | .toEven, d => d.digits % 2 = 0
  | .up, _ => false

end Tie

/-- A positive number with the ends of the interval that reads back as it, all
three in units of `up / down`. -/
structure Rounding where
  low : Nat
  value : Nat
  high : Nat
  closed : Bool
  up : Nat
  down : Nat

namespace Rounding

/-- The interval of `mantissa * 2 ^ exponent`. Just above a power of two the lower
neighbour is half as far away as the upper one. -/
def ofBinary (mantissa : Nat) (exponent : Int) : Rounding :=
  let quarter := exponent - 2
  { low := if mantissa = twoTo 52 ∧ exponent ≠ -1074 then 4 * mantissa - 1 else 4 * mantissa - 2
    value := 4 * mantissa
    high := 4 * mantissa + 2
    closed := mantissa % 2 = 0
    up := twoTo quarter.toNat
    down := twoTo (-quarter).toNat }

/-- Whether the decimal lies in the interval. -/
def contains (r : Rounding) (d : Decimal) : Bool :=
  let point := d.digits * tenTo d.exponent.toNat * r.down
  let scale := r.up * tenTo (-d.exponent).toNat
  if r.closed then r.low * scale ≤ point && point ≤ r.high * scale
  else r.low * scale < point && point < r.high * scale

/-- The greatest multiple of `10 ^ exponent` that is not above the value. -/
def floor (r : Rounding) (exponent : Int) : Decimal :=
  ⟨r.value * r.up * tenTo (-exponent).toNat / (r.down * tenTo exponent.toNat), exponent⟩

/-- The nearer to the value of a point of the grid and the next one. It compares
twice the distance down to the point with one step. -/
def nearer (r : Rounding) (tie : Tie) (d : Decimal) : Decimal :=
  let point := d.digits * tenTo d.exponent.toNat * r.down
  let step := tenTo d.exponent.toNat * r.down
  let value := r.value * (r.up * tenTo (-d.exponent).toNat)
  let next : Decimal := ⟨d.digits + 1, d.exponent⟩
  match compare (2 * (value - point)) step with
  | .lt => d
  | .gt => next
  | .eq => if tie.keepsLower d then d else next

/-- The nearest decimal of the interval with this exponent. -/
def onGrid? (r : Rounding) (tie : Tie) (exponent : Int) : Option Decimal :=
  let below := r.floor exponent
  let above : Decimal := ⟨below.digits + 1, exponent⟩
  match r.contains below && below.digits != 0, r.contains above with
  | true, true => some (r.nearer tie below)
  | true, false => some below
  | false, true => some above
  | false, false => none

/-- The power of ten of the value's leading digit. -/
def leading (r : Rounding) : Int :=
  let top := r.value * r.up
  if r.down ≤ top then ((Nat.toDigits 10 (top / r.down)).length : Int) - 1
  else -((Nat.toDigits 10 ((r.down - 1) / top)).length : Int)

end Rounding

/-- The same number without zeros at the end of the digits. -/
def Decimal.strip (d : Decimal) : Nat → Decimal
  | 0 => d
  | fuel + 1 =>
      if d.digits % 10 = 0 ∧ d.digits ≠ 0 then
        Decimal.strip ⟨d.digits / 10, d.exponent + 1⟩ fuel
      else d

/-- The shortest decimal of a finite number's magnitude. Seventeen digits tell all
numbers apart. -/
def shortest (tie : Tie) (x : Binary64) : Decimal :=
  if x.mantissa = 0 then ⟨0, 0⟩
  else
    let r := Rounding.ofBinary x.mantissa x.exponent
    let found := (List.range 17).findSome? fun (n : Nat) => r.onGrid? tie (r.leading - n)
    (found.getD (r.floor (r.leading - 16))).strip 17

end GraphQL.Decimal
