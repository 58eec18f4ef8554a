import ApiClient.Json.Basic
import ApiClient.Json.Reader.Basic

/-!
# Reading numbers

A numeral has a whole part and may have a fraction and a power of ten. As many of its parts are
read as are well formed; what follows is left to the reader of the text around it.
-/

namespace ApiClient.Json

/-- The value of a run of decimal digits. -/
def decimalValue (digits : List Char) : Nat :=
  digits.foldl (fun value c => value * 10 + (c.toNat - '0'.toNat)) 0

/-- The digits after a point, if a point with a digit follows, and the rest. -/
def readFraction : List Char → Option (List Char) × List Char
  | '.' :: rest =>
    if (rest.takeWhile Char.isDigit).isEmpty then (none, '.' :: rest)
    else (some (rest.takeWhile Char.isDigit), rest.dropWhile Char.isDigit)
  | text => (none, text)

/-- A power of ten after its `e`, if it has a digit, and the rest. -/
def readPower (text : List Char) : Option (Int × List Char) :=
  let (negative, body) :=
    match text with
    | '-' :: rest => (true, rest)
    | '+' :: rest => (false, rest)
    | _ => (false, text)
  if (body.takeWhile Char.isDigit).isEmpty then none
  else
    let power : Int := decimalValue (body.takeWhile Char.isDigit)
    some (if negative then -power else power, body.dropWhile Char.isDigit)

/-- The power of ten that may end a numeral, and the rest. -/
def readExponent : List Char → Option Int × List Char
  | c :: rest =>
    if c = 'e' ∨ c = 'E' then
      match readPower rest with
      | some (power, after) => (some power, after)
      | none => (none, c :: rest)
    else (none, c :: rest)
  | [] => (none, [])

/-- A numeral in its parts. -/
structure Numeral where
  negative : Bool
  /-- The digits of the whole part. -/
  whole : List Char
  /-- The digits after the point, if there is one. -/
  fraction : Option (List Char)
  /-- The power of ten, if it is given. -/
  power : Option Int

namespace Numeral

/-- The number that a numeral denotes: a double as soon as it has a fraction or a power of ten. -/
def value (numeral : Numeral) : Json :=
  match numeral.fraction, numeral.power with
  | none, none =>
    let magnitude := decimalValue numeral.whole
    int (if numeral.negative then -(magnitude : Int) else magnitude)
  | _, _ =>
    let places := numeral.fraction.getD []
    double (Binary64.ofDecimal numeral.negative (decimalValue (numeral.whole ++ places))
      (numeral.power.getD 0 - places.length))

/-- Whether a numeral denotes a whole number of more digits than are read. A double has no limit,
since it keeps only the leading digits. -/
def isTooLong (numeral : Numeral) : Bool :=
  numeral.fraction.isNone && numeral.power.isNone && decide (mostDigits < numeral.whole.length)

end Numeral

/-- The whole part of a numeral and the rest: a zero alone, or digits that start with another. -/
def readWhole? : List Char → Option (List Char × List Char)
  | [] => none
  | c :: rest =>
    if c = '0' then some (['0'], rest)
    else if c.isDigit then some (c :: rest.takeWhile Char.isDigit, rest.dropWhile Char.isDigit)
    else none

/-- Reads a numeral, if the text starts with one. -/
def readNumeral? (text : List Char) : Option (Numeral × List Char) :=
  let (negative, body) :=
    match text with
    | '-' :: rest => (true, rest)
    | _ => (false, text)
  (readWhole? body).map fun (whole, afterWhole) =>
    let (fraction, afterFraction) := readFraction afterWhole
    let (power, rest) := readExponent afterFraction
    (⟨negative, whole, fraction, power⟩, rest)

theorem length_readFraction_le (text : List Char) :
    (readFraction text).2.length ≤ text.length := by
  unfold readFraction
  split
  · rename_i rest
    split
    · exact Nat.le_refl _
    · exact Nat.le_succ_of_le (length_dropWhile_le _ _)
  · exact Nat.le_refl _

theorem length_of_readPower {text rest : List Char} {power : Int}
    (h : readPower text = some (power, rest)) : rest.length ≤ text.length := by
  unfold readPower at h
  split at h
  rename_i negative body hbody
  have hle : body.length ≤ text.length := by
    split at hbody <;> obtain ⟨_, rfl⟩ := Prod.mk.inj hbody <;> simp
  split at h
  · simp at h
  · obtain ⟨_, rfl⟩ := Prod.mk.inj (Option.some.inj h)
    exact Nat.le_trans (length_dropWhile_le _ _) hle

theorem length_readExponent_le (text : List Char) :
    (readExponent text).2.length ≤ text.length := by
  unfold readExponent
  split
  · rename_i c rest
    split
    · split
      · rename_i power after h
        exact Nat.le_succ_of_le (length_of_readPower h)
      · exact Nat.le_refl _
    · exact Nat.le_refl _
  · exact Nat.le_refl _

theorem length_of_readWhole? {text whole rest : List Char}
    (h : readWhole? text = some (whole, rest)) : rest.length < text.length := by
  unfold readWhole? at h
  split at h
  · simp at h
  · split at h
    · obtain ⟨_, rfl⟩ := Prod.mk.inj (Option.some.inj h)
      exact Nat.lt_succ_self _
    · split at h
      · obtain ⟨_, rfl⟩ := Prod.mk.inj (Option.some.inj h)
        exact Nat.lt_succ_of_le (length_dropWhile_le _ _)
      · simp at h

theorem length_of_readNumeral? {text rest : List Char} {numeral : Numeral}
    (h : readNumeral? text = some (numeral, rest)) : rest.length < text.length := by
  unfold readNumeral? at h
  split at h
  rename_i negative body hbody
  have hle : body.length ≤ text.length := by
    split at hbody <;> obtain ⟨_, rfl⟩ := Prod.mk.inj hbody <;> simp
  obtain ⟨⟨whole, afterWhole⟩, hw, he⟩ := Option.map_eq_some_iff.1 h
  obtain ⟨_, rfl⟩ := Prod.mk.inj he
  exact Nat.lt_of_lt_of_le
    (Nat.lt_of_le_of_lt
      (Nat.le_trans (length_readExponent_le _) (length_readFraction_le _))
      (length_of_readWhole? hw)) hle

end ApiClient.Json
