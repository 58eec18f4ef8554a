import ApiClient.Binary64.Basic

/-!
# The shortest decimal of a double

The fewest digits that read back as the same double and, among those, the ones nearest to it. On
each grid of decimals only the two neighbours of the value can be nearest, so the search tries
those on ever finer grids.
-/

namespace ApiClient.Binary64

/-- A decimal `digits * 10 ^ exponent`. -/
structure Decimal where
  digits : Nat
  exponent : Int

/-- The reals that round to a double, scaled to integers over one denominator. -/
structure RoundingInterval where
  low : Nat
  value : Nat
  high : Nat
  denominator : Nat
  /-- Whether the ends belong to it, as they do for an even mantissa. -/
  closed : Bool

/-- The interval of the positive double `mantissa * 2 ^ exponent`. -/
def RoundingInterval.of (mantissa : Nat) (exponent : Int) : RoundingInterval :=
  -- quarters of the last place, since below a power of two the neighbours are twice as dense
  let scale := twoTo (exponent - 2).toNat
  let below := if mantissa = twoTo 52 ∧ leastExponent < exponent then 1 else 2
  { low := (4 * mantissa - below) * scale
    value := 4 * mantissa * scale
    high := (4 * mantissa + 2) * scale
    denominator := twoTo (2 - exponent).toNat
    closed := mantissa % 2 == 0 }

namespace RoundingInterval

/-- Whether a decimal reads back as the double. -/
def holds (interval : RoundingInterval) (decimal : Decimal) : Bool :=
  let up := tenTo (-decimal.exponent).toNat
  let point := decimal.digits * tenTo decimal.exponent.toNat * interval.denominator
  if interval.closed then interval.low * up ≤ point && point ≤ interval.high * up
  else interval.low * up < point && point < interval.high * up

/-- The distance of a decimal from the value, in units common to all decimals of its exponent. -/
def distance (interval : RoundingInterval) (decimal : Decimal) : Nat :=
  let value := interval.value * tenTo (-decimal.exponent).toNat
  let point := decimal.digits * tenTo decimal.exponent.toNat * interval.denominator
  (value - point) + (point - value)

/-- The decimal of the grid `10 ^ exponent` that lies in the interval and nearest to the value. -/
def nearestOn? (interval : RoundingInterval) (exponent : Int) : Option Decimal :=
  let floor := interval.value * tenTo (-exponent).toNat /
    (interval.denominator * tenTo exponent.toNat)
  let below : Decimal := ⟨floor, exponent⟩
  let above : Decimal := ⟨floor + 1, exponent⟩
  match interval.holds below, interval.holds above with
  | false, false => none
  | true, false => some below
  | false, true => some above
  | true, true =>
    if interval.distance below < interval.distance above ∨
        (interval.distance below = interval.distance above ∧ floor % 2 = 0) then some below
    else some above

/-- The power of ten at which the value has its first digit. -/
def magnitude (interval : RoundingInterval) : Int :=
  if interval.denominator ≤ interval.value then
    (decimalLength (interval.value / interval.denominator) : Int) - 1
  else -(decimalLength (interval.denominator / interval.value) : Int)

end RoundingInterval

/-- Drops zeros at the end of a numeral, at most `count` of them. -/
def dropZeros : Nat → Decimal → Decimal
  | 0, decimal => decimal
  | count + 1, decimal =>
    if decimal.digits ≠ 0 ∧ decimal.digits % 10 = 0 then
      dropZeros count ⟨decimal.digits / 10, decimal.exponent + 1⟩
    else decimal

/-- The shortest decimal of the positive double `mantissa * 2 ^ exponent`; 17 digits always do. -/
def shortest (mantissa : Nat) (exponent : Int) : Decimal :=
  let interval := RoundingInterval.of mantissa exponent
  let counts := (List.range 17).map fun (n : Nat) => interval.magnitude - (n : Int)
  dropZeros 17 ((counts.findSome? interval.nearestOn?).getD ⟨mantissa, exponent⟩)

end ApiClient.Binary64
