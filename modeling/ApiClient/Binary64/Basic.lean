/-!
# Binary floating point of 64 bits

Doubles as exact values: a sign, a mantissa and a power of two. A decimal numeral is read to the
nearest of them in exact arithmetic, so the value never depends on a machine's rounding.
-/

namespace ApiClient

/--
A double. A finite one is `± mantissa * 2 ^ exponent`, with the mantissa below `2 ^ 53` and the
exponent at least `-1074`; only at that least exponent is a mantissa below `2 ^ 52`.
-/
inductive Binary64 where
  | nan
  | infinity (negative : Bool)
  | finite (negative : Bool) (mantissa : Nat) (exponent : Int)
  deriving DecidableEq

namespace Binary64

/-- A power of two. -/
def twoTo (exponent : Nat) : Nat := Nat.pow 2 exponent

/-- A power of ten. -/
def tenTo (exponent : Nat) : Nat := Nat.pow 10 exponent

/-- The exponent of the smallest doubles. -/
def leastExponent : Int := -1074

/-- The exponent of the largest doubles. -/
def greatestExponent : Int := 971

/-- The integer nearest to `numerator / denominator`; of two equally near, the even one. -/
def nearestEven (numerator denominator : Nat) : Nat :=
  let quotient := numerator / denominator
  let rest := numerator % denominator
  if 2 * rest < denominator ∨ (2 * rest = denominator ∧ quotient % 2 = 0) then quotient
  else quotient + 1

/-- The exponent at which a positive quotient has a full mantissa, but never below the least. -/
def exponentFor (numerator denominator : Nat) : Int :=
  let guess : Int := (numerator.log2 : Int) - denominator.log2 - 52
  -- the guess is right, or one too large when the quotient's own top bit is lower
  let full :=
    if numerator * twoTo (-guess).toNat < denominator * twoTo guess.toNat * twoTo 52 then guess - 1
    else guess
  max full leastExponent

/-- The double nearest to a positive quotient. -/
def ofQuotient (negative : Bool) (numerator denominator : Nat) : Binary64 :=
  let exponent := exponentFor numerator denominator
  let mantissa :=
    nearestEven (numerator * twoTo (-exponent).toNat) (denominator * twoTo exponent.toNat)
  -- rounding up can reach the next power of two
  let (mantissa, exponent) :=
    if mantissa = twoTo 53 then (twoTo 52, exponent + 1) else (mantissa, exponent)
  if greatestExponent < exponent then infinity negative else finite negative mantissa exponent

/-- Zero, with its sign. -/
def zero (negative : Bool) : Binary64 := finite negative 0 leastExponent

/-- The count of decimal digits of a number. -/
def decimalLength (n : Nat) : Nat := (Nat.toDigits 10 n).length

/-- The double nearest to `± digits * 10 ^ exponent`. -/
def ofDecimal (negative : Bool) (digits : Nat) (exponent : Int) : Binary64 :=
  let magnitude := (decimalLength digits : Int) + exponent
  -- beyond these magnitudes the answer is known, and the powers would be needlessly large
  if digits = 0 ∨ magnitude < -330 then zero negative
  else if 310 < magnitude then infinity negative
  else ofQuotient negative (digits * tenTo exponent.toNat) (tenTo (-exponent).toNat)

/-- Both zeros are zero. -/
def isZero : Binary64 → Bool
  | finite _ mantissa _ => mantissa == 0
  | _ => false

/-- Whether a double is exactly the integer `n`. -/
def equalsInt : Binary64 → Int → Bool
  | finite negative mantissa exponent, n =>
    (negative == (n < 0) || mantissa == 0) &&
      mantissa * twoTo exponent.toNat == n.natAbs * twoTo (-exponent).toNat
  | _, _ => false

/-- Whether two doubles are the same key: as numbers, so that both zeros are one; all NaNs are
one. -/
def sameKey (x y : Binary64) : Bool :=
  x == y || (x.isZero && y.isZero)

end Binary64

end ApiClient
