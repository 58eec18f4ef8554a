import ApiClient.Json.Render
import ApiClient.Proofs.Binary64.Shortest
import ApiClient.Proofs.Json.Numeral

/-!
# Doubles as numerals

The text of a double lays out its shortest digits in one of four ways. Each is a numeral that
denotes the shortest decimal again, so that it is read as the double that was written.
-/

namespace ApiClient.Json

open Binary64

/-! ## Decimals as they are laid out -/

/-- The parts of a numeral without a sign that is read as a double. -/
structure DecimalParts where
  whole : List Char
  fraction : Option (List Char)
  power : Option WrittenPower
  whole_digits : WholeDigits whole
  fraction_digits : ∀ places ∈ fraction, Digits places
  power_digits : ∀ p ∈ power, Digits p.2
  marked : fraction.isSome ∨ power.isSome

namespace DecimalParts

/-- The text that the parts make. -/
def chars (parts : DecimalParts) : List Char :=
  parts.whole ++ (pointed parts.fraction ++ powered parts.power)

/-- All digits before the power of ten, as one number. -/
def digits (parts : DecimalParts) : Nat := decimalValue (parts.whole ++ parts.fraction.getD [])

/-- The power of ten of the last of these digits. -/
def exponent (parts : DecimalParts) : Int :=
  (parts.power.map powerValue).getD 0 - (parts.fraction.getD []).length

/-- The rational that the parts denote. -/
def value (parts : DecimalParts) : ℚ := parts.digits * 10 ^ parts.exponent

/-- A numeral with a point or a power of ten is read as a double. -/
theorem reads (parts : DecimalParts) (negative : Bool) :
    ∃ h, readPlain (signed negative ++ parts.chars) =
      .ok ⟨double (ofDecimal negative parts.digits parts.exponent), [], h⟩ := by
  -- a fraction or a power makes it a double, for which no number of digits is too many
  have hshort :
      Numeral.isTooLong ⟨negative, parts.whole, parts.fraction, parts.power.map powerValue⟩ =
      false := by
    rcases parts.marked with h | h
    all_goals
      obtain ⟨given, hgiven⟩ := Option.isSome_iff_exists.mp h
      simp [Numeral.isTooLong, hgiven]
  have hvalue : Numeral.value ⟨negative, parts.whole, parts.fraction, parts.power.map powerValue⟩ =
      double (ofDecimal negative parts.digits parts.exponent) := by
    unfold Numeral.value
    split
    · rename_i hfraction hpower
      rcases parts.marked with h | h
      · rw [show parts.fraction = none from hfraction] at h
        cases h
      · rw [Option.map_eq_none_iff.mp hpower] at h
        cases h
    · rfl
  rw [← hvalue]
  exact exists_plain negative parts.whole_digits parts.fraction_digits parts.power_digits hshort

/-- A numeral that rounds to a double is read as that double. -/
theorem reads_of_roundsTo (parts : DecimalParts) {mantissa : Nat} {exponent : Int}
    (hnormal : Normal mantissa exponent) (h : RoundsTo parts.value mantissa exponent)
    (negative : Bool) :
    ∃ h, readPlain (signed negative ++ parts.chars) =
      .ok ⟨double (finite negative mantissa exponent), [], h⟩ := by
  rw [← ofDecimal_eq hnormal h negative]
  exact parts.reads negative

end DecimalParts

/-! ## The four layouts -/

theorem toList_zeros (count : Nat) : (zeros count).toList = List.replicate count '0' :=
  String.toList_ofList

theorem digit_of_mem_zeros {count : Nat} : ∀ c ∈ List.replicate count '0', c.isDigit = true := by
  intro c hc
  rw [List.eq_of_mem_replicate hc]
  decide

theorem digits_append {front back : List Char} (hfront : ∀ c ∈ front, c.isDigit = true)
    (hback : Digits back) : Digits (front ++ back) :=
  ⟨List.append_ne_nil_of_right_ne_nil _ hback.ne_nil, fun c hc =>
    (List.mem_append.mp hc).elim (hfront c) (hback.digit c)⟩

/-- Digits that begin like those of a number can stand before a point. -/
theorem wholeDigits_of_head {front : List Char} {n : Nat} (hn : 0 < n)
    (hhead : front.head? = (Nat.toDigits 10 n).head?) (hdigit : ∀ c ∈ front, c.isDigit = true) :
    WholeDigits front where
  ne_nil := by
    rintro rfl
    exact (digits_toDigits n).ne_nil (List.head?_eq_none_iff.mp hhead.symm)
  digit := hdigit
  front := .inr (hhead ▸ head_toDigits hn)

theorem digit_of_mem_toDigits {n : Nat} : ∀ c ∈ Nat.toDigits 10 n, c.isDigit = true :=
  (digits_toDigits n).digit

namespace DecimalParts

/-- A number below one: its digits after a point and zeros. -/
def small (count digits : Nat) : DecimalParts where
  whole := ['0']
  fraction := some (List.replicate count '0' ++ Nat.toDigits 10 digits)
  power := none
  whole_digits := wholeDigits_toDigits 0
  fraction_digits := by
    rintro places hplaces
    obtain rfl := Option.some.inj hplaces
    exact digits_append digit_of_mem_zeros (digits_toDigits digits)
  power_digits := fun _ hp => by cases hp
  marked := .inl rfl

theorem digits_small (count digits : Nat) : (small count digits).digits = digits := by
  show decimalValue (List.replicate (count + 1) '0' ++ Nat.toDigits 10 digits) = digits
  rw [decimalValue_zeros_append, decimalValue_toDigits]

theorem exponent_small (count digits : Nat) :
    (small count digits).exponent = -((count : Int) + decimalLength digits) := by
  show (0 : Int) - (List.replicate count '0' ++ Nat.toDigits 10 digits).length = _
  rw [List.length_append, List.length_replicate, decimalLength]
  omega

/-- A whole number: its digits and zeros, and a zero after the point. -/
def integral (digits count : Nat) (h : 0 < digits) : DecimalParts where
  whole := Nat.toDigits 10 digits ++ List.replicate count '0'
  fraction := some ['0']
  power := none
  whole_digits := by
    refine wholeDigits_of_head h ?_ fun c hc =>
      (List.mem_append.mp hc).elim (digit_of_mem_toDigits c) (digit_of_mem_zeros c)
    obtain ⟨c, rest, hcons⟩ := List.exists_cons_of_ne_nil (digits_toDigits digits).ne_nil
    rw [hcons]
    rfl
  fraction_digits := by
    rintro places hplaces
    obtain rfl := Option.some.inj hplaces
    exact (wholeDigits_toDigits 0).toDigits
  power_digits := fun _ hp => by cases hp
  marked := .inl rfl

theorem digits_integral {digits : Nat} (count : Nat) (h : 0 < digits) :
    (integral digits count h).digits = digits * 10 ^ (count + 1) := by
  show decimalValue (Nat.toDigits 10 digits ++ List.replicate count '0' ++ List.replicate 1 '0') =
    _
  rw [decimalValue_append_zeros, decimalValue_append_zeros, decimalValue_toDigits, mul_assoc,
    ← pow_add]

/-- A number with a point among its digits. -/
def mixed (digits point : Nat) (h : 0 < digits) (hpoint : 0 < point)
    (hlength : point < decimalLength digits) : DecimalParts where
  whole := (Nat.toDigits 10 digits).take point
  fraction := some ((Nat.toDigits 10 digits).drop point)
  power := none
  whole_digits := wholeDigits_of_head h (by rw [List.head?_take, if_neg hpoint.ne'])
    fun c hc => digit_of_mem_toDigits c (List.mem_of_mem_take hc)
  fraction_digits := by
    rintro places hplaces
    obtain rfl := Option.some.inj hplaces
    exact ⟨fun hnil => absurd (List.drop_eq_nil_iff.mp hnil) (not_le.mpr hlength),
      fun c hc => digit_of_mem_toDigits c (List.mem_of_mem_drop hc)⟩
  power_digits := fun _ hp => by cases hp
  marked := .inl rfl

theorem digits_mixed {digits point : Nat} (h : 0 < digits) (hpoint : 0 < point)
    (hlength : point < decimalLength digits) :
    (mixed digits point h hpoint hlength).digits = digits := by
  show decimalValue ((Nat.toDigits 10 digits).take point ++ (Nat.toDigits 10 digits).drop point) =
    _
  rw [List.take_append_drop, decimalValue_toDigits]

/-- The places after a point that stands behind the first digit, if there are any. -/
def placesOf (digits : Nat) : Option (List Char) :=
  if (Nat.toDigits 10 digits).length ≤ 1 then none else some ((Nat.toDigits 10 digits).drop 1)

/-- A number with one digit before the point, and a power of ten. -/
def scientific (digits : Nat) (h : 0 < digits) (power : Int) (padding : Nat) : DecimalParts where
  whole := (Nat.toDigits 10 digits).take 1
  fraction := placesOf digits
  power := some (decide (power < 0), List.replicate padding '0' ++ Nat.toDigits 10 power.natAbs)
  whole_digits := wholeDigits_of_head h (by rw [List.head?_take, if_neg one_ne_zero])
    fun c hc => digit_of_mem_toDigits c (List.mem_of_mem_take hc)
  fraction_digits := by
    intro places hplaces
    unfold placesOf at hplaces
    split at hplaces
    · cases hplaces
    · rename_i hlength
      obtain rfl := Option.some.inj hplaces
      exact ⟨fun hnil => hlength (List.drop_eq_nil_iff.mp hnil),
        fun c hc => digit_of_mem_toDigits c (List.mem_of_mem_drop hc)⟩
  power_digits := by
    rintro p hp
    obtain rfl := Option.some.inj hp
    exact digits_append digit_of_mem_zeros (digits_toDigits _)
  marked := .inr rfl

theorem getD_placesOf (digits : Nat) :
    (placesOf digits).getD [] = (Nat.toDigits 10 digits).drop 1 := by
  unfold placesOf
  split
  · rename_i hlength
    exact (List.drop_eq_nil_of_le hlength).symm
  · rfl

theorem digits_scientific {digits : Nat} (h : 0 < digits) (power : Int) (padding : Nat) :
    (scientific digits h power padding).digits = digits := by
  show decimalValue ((Nat.toDigits 10 digits).take 1 ++ (placesOf digits).getD []) = _
  rw [getD_placesOf, List.take_append_drop, decimalValue_toDigits]

theorem exponent_scientific {digits : Nat} (h : 0 < digits) (power : Int) (padding : Nat) :
    (scientific digits h power padding).exponent = power - (decimalLength digits - 1 : ℕ) := by
  show (powerValue (decide (power < 0),
    List.replicate padding '0' ++ Nat.toDigits 10 power.natAbs)) -
    ((placesOf digits).getD []).length = _
  rw [getD_placesOf, List.length_drop, powerValue, decimalValue_zeros_append,
    decimalValue_toDigits, decimalLength]
  dsimp only
  by_cases hnegative : power < 0
  · rw [if_pos (decide_eq_true hnegative)]
    omega
  · rw [if_neg (by simpa using hnegative)]
    omega

/-! ### Their texts -/

theorem value_eq {parts : DecimalParts} {digits : Nat} {exponent : Int}
    (hdigits : parts.digits = digits)
    (hexponent : parts.exponent = exponent) : parts.value = digits * 10 ^ exponent := by
  rw [value, hdigits, hexponent]

/-- A decimal without a power of ten is a numeral that denotes it. -/
theorem exists_of_plainText {digits : Nat} (h : 0 < digits) {magnitude exponent : Int}
    (hmagnitude : magnitude = decimalLength digits + exponent - 1) :
    ∃ parts : DecimalParts, (plainText (Nat.toDigits 10 digits) magnitude).toList = parts.chars ∧
      parts.value = digits * 10 ^ exponent := by
  unfold plainText
  by_cases hsmall : magnitude < 0
  · -- the first digit comes after the point
    refine ⟨small (-magnitude - 1).toNat digits, ?_, value_eq (digits_small _ _) ?_⟩
    · rw [if_pos hsmall, String.toList_append, String.toList_append, toList_zeros,
        String.toList_ofList]
      simp [chars, small, pointed, powered]
    · rw [exponent_small]
      omega
  · rw [if_neg hsmall]
    dsimp only
    by_cases hlength : (Nat.toDigits 10 digits).length ≤ magnitude.toNat + 1
    · -- the point comes after all digits
      obtain ⟨count, hcount⟩ : ∃ count,
        magnitude.toNat + 1 - (Nat.toDigits 10 digits).length = count :=
        ⟨_, rfl⟩
      refine ⟨integral digits count h, ?_, ?_⟩
      · rw [if_pos hlength, hcount, String.toList_append, String.toList_append, toList_zeros,
          String.toList_ofList]
        simp [chars, integral, pointed, powered]
      · have hexponent : exponent = count := by
          rw [decimalLength] at hmagnitude
          omega
        rw [value, digits_integral, hexponent, zpow_natCast]
        show ((digits * 10 ^ (count + 1) : ℕ) : ℚ) * 10 ^ (-1 : Int) = _
        rw [zpow_neg_one, Nat.cast_mul, Nat.cast_pow, pow_succ, Nat.cast_ofNat]
        field_simp
    · -- the point comes among the digits
      have hpoint : magnitude.toNat + 1 < decimalLength digits := not_le.mp hlength
      refine ⟨mixed digits (magnitude.toNat + 1) h (Nat.succ_pos _) hpoint, ?_,
        value_eq (digits_mixed h _ hpoint) ?_⟩
      · rw [if_neg hlength, String.toList_append, String.toList_append, String.toList_ofList,
          String.toList_ofList]
        simp [chars, mixed, pointed, powered]
      · show (0 : Int) - ((Nat.toDigits 10 digits).drop (magnitude.toNat + 1)).length = exponent
        rw [List.length_drop]
        rw [decimalLength] at hmagnitude hpoint
        omega

/-- A power of ten is written with a sign and zeros before its digits. -/
theorem toList_exponentText (power : Int) : (exponentText power).toList =
    powered (some (decide (power < 0),
      List.replicate (layout.exponentWidth - (toString power.natAbs).length) '0' ++
        Nat.toDigits 10 power.natAbs)) := by
  have hdigits : (toString power.natAbs).toList = Nat.toDigits 10 power.natAbs := by
    rw [Nat.toString_eq_ofList_toDigits, String.toList_ofList]
  rw [exponentText, String.toList_append, String.toList_append, String.toList_append, toList_zeros,
    hdigits, powered]
  by_cases hnegative : power < 0
  · simp [hnegative]
  · simp [hnegative]

/-- A decimal with a power of ten is a numeral that denotes it. -/
theorem exists_of_scientificText {digits : Nat} (h : 0 < digits) {magnitude exponent : Int}
    (hmagnitude : magnitude = decimalLength digits + exponent - 1) :
    ∃ parts : DecimalParts,
      (scientificText (Nat.toDigits 10 digits) magnitude).toList = parts.chars ∧
      parts.value = digits * 10 ^ exponent := by
  refine ⟨scientific digits h magnitude
    (layout.exponentWidth - (toString magnitude.natAbs).length), ?_,
    value_eq (digits_scientific h _ _) ?_⟩
  · -- there is a point just if there are digits behind the first
    have hfraction : (if (Nat.toDigits 10 digits).length ≤ 1 then ""
        else "." ++ String.ofList ((Nat.toDigits 10 digits).drop 1)).toList =
        pointed (placesOf digits) := by
      unfold placesOf
      split
      · rfl
      · rw [String.toList_append, String.toList_ofList, String.toList_ofList]
        rfl
    rw [scientificText, String.toList_append, String.toList_append,
      String.toList_ofList, hfraction, toList_exponentText, List.append_assoc]
    rfl
  · rw [exponent_scientific]
    have hpos : 0 < decimalLength digits := Nat.length_toDigits_pos
    omega

end DecimalParts

/-! ## Doubles -/

/-- The text of a positive double is a numeral that rounds to it. -/
theorem exists_of_positiveText {mantissa : Nat} {exponent : Int}
    (hnormal : Normal mantissa exponent) :
    ∃ parts : DecimalParts, (positiveText mantissa exponent).toList = parts.chars ∧
      RoundsTo parts.value mantissa exponent := by
  have hrounds := roundsTo_shortest hnormal
  have hpos : 0 < (shortest mantissa exponent).digits := by
    rcases Nat.eq_zero_or_pos (shortest mantissa exponent).digits with hzero | hpos
    · have hleast := (bounds_of_roundsTo hnormal hrounds).1
      rw [Decimal.value, hzero, Nat.cast_zero, zero_mul] at hleast
      exact absurd hleast (not_le.mpr (two_zpow_pos _))
    · exact hpos
  unfold positiveText
  dsimp only
  split
  · obtain ⟨parts, htext, hvalue⟩ := DecimalParts.exists_of_plainText hpos rfl
    exact ⟨parts, htext, hvalue ▸ hrounds⟩
  · obtain ⟨parts, htext, hvalue⟩ := DecimalParts.exists_of_scientificText hpos rfl
    exact ⟨parts, htext, hvalue ▸ hrounds⟩

/-- Zero is written with a zero after the point. -/
theorem reads_zero (negative : Bool) : ∃ h, readPlain (signed negative ++ "0.0".toList) =
    .ok ⟨double (zero negative), [], h⟩ := (DecimalParts.small 0 0).reads negative

theorem toList_sign (negative : Bool) (text : String) :
    ((if negative then "-" else "") ++ text).toList = signed negative ++ text.toList := by
  cases negative <;> rw [String.toList_append] <;> rfl

/-- The text of a double is read as the double. -/
theorem reads_double {value : Binary64} (h : Canonical value) :
    ∃ hlength, readPlain (value.text renderedDoubles).toList =
      .ok ⟨double value, [], hlength⟩ := by
  cases value with
  | nan => exact ⟨_, rfl⟩
  | infinity negative => cases negative <;> exact ⟨_, rfl⟩
  | finite negative mantissa exponent =>
    rw [Binary64.text, toList_sign]
    rcases h with ⟨rfl, rfl⟩ | hnormal
    · exact reads_zero negative
    · obtain ⟨parts, htext, hrounds⟩ := exists_of_positiveText hnormal
      rw [if_neg hnormal.pos.ne', htext]
      exact parts.reads_of_roundsTo hnormal hrounds negative

/-! ## Whole numbers -/

/-- The text of a whole number is its sign and its digits. -/
theorem toList_toString_int (value : Int) :
    (toString value).toList = signed (decide (value < 0)) ++
    (Nat.toDigits 10 value.natAbs ++ (pointed none ++ powered none)) := by
  cases value with
  | ofNat n =>
    show (Nat.repr n).toList = _
    rw [Nat.repr_eq_ofList_toDigits, String.toList_ofList]
    simp [signed, pointed, powered]
  | negSucc n =>
    show ("-" ++ Nat.repr (n + 1)).toList = _
    rw [Nat.repr_eq_ofList_toDigits, String.toList_append, String.toList_ofList,
      String.toList_ofList]
    simp [signed, pointed, powered]

theorem value_toDigits (value : Int) :
    Numeral.value ⟨decide (value < 0), Nat.toDigits 10 value.natAbs, none, none⟩ = int value := by
  rw [Numeral.value, decimalValue_toDigits]
  dsimp only
  by_cases hnegative : value < 0
  · rw [if_pos (decide_eq_true hnegative)]
    exact congrArg int (by omega)
  · rw [if_neg (by simpa using hnegative)]
    exact congrArg int (by omega)

/-- The text of a whole number is one numeral, and it denotes the number. -/
theorem readNumeral?_int (value : Int) : ∃ numeral : Numeral,
    readNumeral? (toString value).toList = some (numeral, []) ∧ numeral.value = int value := by
  refine ⟨_, ?_, value_toDigits value⟩
  rw [toList_toString_int]
  exact readNumeral?_parts _ (wholeDigits_toDigits _) (fun _ hp => by cases hp)
    (fun _ hp => by cases hp)

/-- The text of a whole number is read as the number, unless it has too many digits. -/
theorem reads_int {value : Int} (h : (Nat.toDigits 10 value.natAbs).length ≤ mostDigits) :
    ∃ hlength, readPlain (toString value).toList = .ok ⟨int value, [], hlength⟩ := by
  have hshort : Numeral.isTooLong
      ⟨decide (value < 0), Nat.toDigits 10 value.natAbs, none, none⟩ = false := by
    simp [Numeral.isTooLong, h]
  rw [toList_toString_int, ← value_toDigits]
  exact exists_plain _ (wholeDigits_toDigits _) (fun _ hp => by cases hp)
    (fun _ hp => by cases hp) hshort

end ApiClient.Json
