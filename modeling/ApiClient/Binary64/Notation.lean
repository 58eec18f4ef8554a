import ApiClient.Binary64.Shortest

/-!
# How a double is written

The shortest digits, laid out plainly while the number is of ordinary size and with a power of ten
beyond that. The layout's constants stand in one record.
-/

namespace ApiClient.Binary64

/-- The constants of a layout; a magnitude is the power of ten of a number's first digit. -/
structure Layout where
  /-- The least magnitude written without a power of ten. -/
  leastPlain : Int
  /-- The greatest magnitude written without a power of ten. -/
  greatestPlain : Int
  /-- The least count of digits in a power of ten. -/
  exponentWidth : Nat

/-- From `0.0001` up to sixteen places before the point; `1e-05` and `1e+16` beyond. -/
def layout : Layout := ⟨-4, 15, 2⟩

/-- A run of zeros. -/
def zeros (count : Nat) : String := String.ofList (List.replicate count '0')

/-- A power of ten with its sign, as in `e+16`. -/
def exponentText (power : Int) : String :=
  let digits := toString power.natAbs
  "e" ++ (if power < 0 then "-" else "+") ++ zeros (layout.exponentWidth - digits.length) ++ digits

/-- A decimal without a power of ten; a whole number keeps `.0`. -/
def plainText (digits : List Char) (magnitude : Int) : String :=
  if magnitude < 0 then "0." ++ zeros (-magnitude - 1).toNat ++ String.ofList digits
  else
    let whole := magnitude.toNat + 1
    if digits.length ≤ whole then String.ofList digits ++ zeros (whole - digits.length) ++ ".0"
    else String.ofList (digits.take whole) ++ "." ++ String.ofList (digits.drop whole)

/-- A decimal with one digit before the point and a power of ten. -/
def scientificText (digits : List Char) (magnitude : Int) : String :=
  let fraction := if digits.length ≤ 1 then "" else "." ++ String.ofList (digits.drop 1)
  String.ofList (digits.take 1) ++ fraction ++ exponentText magnitude

/-- A positive finite double in the layout. -/
def positiveText (mantissa : Nat) (exponent : Int) : String :=
  let decimal := shortest mantissa exponent
  let digits := Nat.toDigits 10 decimal.digits
  let magnitude := digits.length + decimal.exponent - 1
  if layout.leastPlain ≤ magnitude ∧ magnitude ≤ layout.greatestPlain then
    plainText digits magnitude
  else scientificText digits magnitude

/-- The words for the values that have no digits. -/
structure SpecialWords where
  nan : String
  infinity : String

/-- A double as text; `words` names what has no digits. -/
def text (words : SpecialWords) : Binary64 → String
  | nan => words.nan
  | infinity negative => (if negative then "-" else "") ++ words.infinity
  | finite negative mantissa exponent =>
    (if negative then "-" else "") ++
      if mantissa = 0 then "0.0" else positiveText mantissa exponent

end ApiClient.Binary64
