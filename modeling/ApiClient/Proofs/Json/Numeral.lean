import ApiClient.Proofs.Json.Plain
import Mathlib.Algebra.Group.Nat.Defs
import Mathlib.Data.List.Induction
import Mathlib.Data.List.TakeWhile

/-!
# Numerals in their parts

A numeral that is put together from runs of digits is read as those runs again: each run ends
where the mark of the next part stands. The digits of a number have the number as their value,
with any zeros before them, and no zero at their front.
-/

namespace ApiClient.Json

/-! ## Runs of digits -/

/-- A run of digits, at least one. -/
structure Digits (chars : List Char) : Prop where
  ne_nil : chars ≠ []
  digit : ∀ c ∈ chars, c.isDigit = true

/-- Digits before a point: zero alone, or no zero at the front. -/
structure WholeDigits (chars : List Char) : Prop extends Digits chars where
  front : chars = ['0'] ∨ chars.head? ≠ some '0'

theorem decimalValue_eq (digits : List Char) :
    decimalValue digits = Nat.ofDigitChars 10 digits 0 := by
  unfold decimalValue Nat.ofDigitChars
  simp only [Nat.mul_comm]

/-- The digits of a number have its value. -/
theorem decimalValue_toDigits (n : Nat) : decimalValue (Nat.toDigits 10 n) = n := by
  rw [decimalValue_eq, Nat.ofDigitChars_toDigits (by omega) (by omega)]

/-- Zeros before digits do not change their value. -/
theorem decimalValue_zeros_append (count : Nat) (digits : List Char) :
    decimalValue (List.replicate count '0' ++ digits) = decimalValue digits := by
  rw [decimalValue_eq, decimalValue_eq, Nat.ofDigitChars_append, Nat.ofDigitChars_replicate_zero,
    Nat.mul_zero]

/-- Zeros after digits multiply their value. -/
theorem decimalValue_append_zeros (digits : List Char) (count : Nat) :
    decimalValue (digits ++ List.replicate count '0') = decimalValue digits * 10 ^ count := by
  rw [decimalValue_eq, decimalValue_eq, Nat.ofDigitChars_append, Nat.ofDigitChars_replicate_zero,
    Nat.mul_comm]

/-- Digits have a value below the power of ten that has one digit more. -/
theorem decimalValue_lt {digits : List Char} (h : ∀ c ∈ digits, c.isDigit = true) :
    decimalValue digits < 10 ^ digits.length := by
  induction digits using List.reverseRecOn with
  | nil => exact Nat.one_pos
  | append_singleton digits c ih =>
    rw [List.forall_mem_append] at h
    have hdigits := ih h.1
    have hc := h.2 c List.mem_cons_self
    -- the last digit is less than ten
    have hlast : c.toNat - '0'.toNat < 10 := by
      simp only [Char.isDigit, Bool.and_eq_true, decide_eq_true_eq, ge_iff_le,
        UInt32.le_iff_toNat_le] at hc
      have hbound : c.toNat ≤ 57 := hc.2
      have hzero : '0'.toNat = 48 := rfl
      omega
    have hvalue : decimalValue (digits ++ [c]) =
        decimalValue digits * 10 + (c.toNat - '0'.toNat) := by
      rw [decimalValue, List.foldl_append]
      rfl
    rw [hvalue, List.length_append, List.length_singleton, Nat.pow_succ]
    omega

theorem digits_toDigits (n : Nat) : Digits (Nat.toDigits 10 n) :=
  ⟨Nat.toDigits_ne_nil, fun _ h => Nat.isDigit_of_mem_toDigits (by omega) (by omega) h⟩

/-- The digits of a number other than zero do not begin with a zero. -/
theorem head_toDigits {n : Nat} (h : 0 < n) : (Nat.toDigits 10 n).head? ≠ some '0' := by
  induction n using Nat.strong_induction_on with
  | _ n ih =>
    rw [Nat.toDigits_eq_if (by omega)]
    split
    · rename_i hlt
      have hchars : ∀ n < 10, n.digitChar = '0' → n = 0 := by decide
      exact fun hzero => absurd (hchars n hlt (Option.some.inj hzero)) (by omega)
    · have hfront := ih (n / 10) (by omega) (by omega)
      obtain ⟨c, digits, hdigits⟩ :=
        List.exists_cons_of_ne_nil (Nat.toDigits_ne_nil : Nat.toDigits 10 (n / 10) ≠ [])
      rw [hdigits] at hfront ⊢
      exact hfront

theorem wholeDigits_toDigits (n : Nat) : WholeDigits (Nat.toDigits 10 n) where
  toDigits := digits_toDigits n
  front := by
    rcases Nat.eq_zero_or_pos n with rfl | h
    · exact .inl rfl
    · exact .inr (head_toDigits h)

/-- A run of digits ends where no digit stands. -/
theorem span_digits {digits rest : List Char} (hdigits : ∀ c ∈ digits, c.isDigit = true)
    (hrest : ∀ c, rest.head? = some c → c.isDigit = false) :
    (digits ++ rest).takeWhile Char.isDigit = digits ∧
      (digits ++ rest).dropWhile Char.isDigit = rest :=
  ⟨takeWhile_run hrest hdigits, dropWhile_run hrest hdigits⟩

/-! ## Parts -/

/-- The digits after a point, with the point. -/
def pointed : Option (List Char) → List Char
  | none => []
  | some places => '.' :: places

/-- A power of ten as it is written: whether it is negative, and its digits. -/
abbrev WrittenPower := Bool × List Char

/-- A power of ten with its letter and its sign. -/
def powered : Option WrittenPower → List Char
  | none => []
  | some (negative, digits) => 'e' :: (if negative then '-' else '+') :: digits

/-- The power of ten that is written. -/
def powerValue (power : WrittenPower) : Int :=
  if power.1 then -(decimalValue power.2 : Int) else decimalValue power.2

theorem readWhole?_digits {whole rest : List Char} (h : WholeDigits whole)
    (hrest : ∀ c, rest.head? = some c → c.isDigit = false) :
    readWhole? (whole ++ rest) = some (whole, rest) := by
  obtain ⟨c, digits, rfl⟩ := List.exists_cons_of_ne_nil h.ne_nil
  obtain ⟨hc, hdigits⟩ := List.forall_mem_cons.mp h.digit
  rw [List.cons_append, readWhole?]
  by_cases hzero : c = '0'
  · rcases h.front with hone | hfront
    · obtain ⟨rfl, rfl⟩ := List.cons.inj hone
      rw [if_pos rfl, List.nil_append]
    · exact absurd (congrArg some hzero) hfront
  · obtain ⟨htake, hdrop⟩ := span_digits hdigits hrest
    rw [if_neg hzero, if_pos hc, htake, hdrop]

theorem readFraction_pointed {fraction : Option (List Char)}
    (h : ∀ places ∈ fraction, Digits places) {power : Option WrittenPower} :
    readFraction (pointed fraction ++ powered power) = (fraction, powered power) := by
  cases fraction with
  | none =>
    cases power with
    | none => rfl
    | some power => rfl
  | some places =>
    have hplaces := h places rfl
    -- what is behind the places is the letter of the power, or nothing
    have hrest : ∀ c, (powered power).head? = some c → c.isDigit = false := by
      cases power with
      | none => exact fun c hc => by cases hc
      | some power =>
        intro c hc
        obtain rfl := Option.some.inj hc
        decide
    obtain ⟨htake, hdrop⟩ := span_digits hplaces.digit hrest
    rw [pointed, List.cons_append, readFraction, htake, hdrop,
      if_neg (by simpa using hplaces.ne_nil)]

theorem readExponent_powered {power : Option WrittenPower} (h : ∀ p ∈ power, Digits p.2) :
    readExponent (powered power) = (power.map powerValue, []) := by
  cases power with
  | none => rfl
  | some power =>
    obtain ⟨negative, digits⟩ := power
    have hdigits := h _ rfl
    have hspan := @span_digits digits [] hdigits.digit (fun c hc => by cases hc)
    rw [List.append_nil] at hspan
    have hne : ¬ digits.isEmpty = true := by simpa using hdigits.ne_nil
    rw [powered, readExponent, if_pos (.inl rfl)]
    cases negative with
    | true => simp [readPower, hspan.1, hspan.2, hne, powerValue]
    | false => simp [readPower, hspan.1, hspan.2, hne, powerValue]

/-- A sign, if there is one. -/
def signed (negative : Bool) : List Char := if negative then ['-'] else []

/-- A sign in front of a digit is read as a sign. -/
theorem readNumeral?_signed (negative : Bool) {c : Char} (hc : c.isDigit = true)
    (rest : List Char) : readNumeral? (signed negative ++ c :: rest) =
      (readWhole? (c :: rest)).map (finishNumeral negative) := by
  cases negative with
  | true => rfl
  | false =>
    have hminus : c ≠ '-' := by
      rintro rfl
      exact absurd hc (by decide)
    exact readNumeral?_unsigned rest hminus

/-- A numeral is read as the parts that it is put together from. -/
theorem readNumeral?_parts (negative : Bool) {whole : List Char} {fraction : Option (List Char)}
    {power : Option WrittenPower} (hwhole : WholeDigits whole)
    (hfraction : ∀ places ∈ fraction, Digits places) (hpower : ∀ p ∈ power, Digits p.2) :
    readNumeral? (signed negative ++ (whole ++ (pointed fraction ++ powered power))) =
      some (⟨negative, whole, fraction, power.map powerValue⟩, []) := by
  -- what is behind the whole digits is a point, the letter of the power, or nothing
  have hrest : ∀ c, (pointed fraction ++ powered power).head? = some c → c.isDigit = false := by
    intro c hc
    cases fraction with
    | some places =>
      obtain rfl := Option.some.inj hc
      decide
    | none =>
      cases power with
      | none => cases hc
      | some power =>
        obtain rfl := Option.some.inj hc
        decide
  have hread := readWhole?_digits hwhole hrest
  obtain ⟨c, digits, rfl⟩ := List.exists_cons_of_ne_nil hwhole.ne_nil
  rw [List.cons_append] at hread ⊢
  rw [readNumeral?_signed negative (hwhole.digit c List.mem_cons_self), hread, Option.map_some]
  simp only [finishNumeral, readFraction_pointed hfraction, readExponent_powered hpower]

theorem digits_of_readWhole? {text whole rest : List Char}
    (h : readWhole? text = some (whole, rest)) : Digits whole := by
  unfold readWhole? at h
  split at h
  · cases h
  · split at h
    · obtain ⟨rfl, -⟩ := Prod.mk.inj (Option.some.inj h)
      exact ⟨List.cons_ne_nil _ _, by decide⟩
    · split at h
      · rename_i hdigit
        obtain ⟨rfl, -⟩ := Prod.mk.inj (Option.some.inj h)
        refine ⟨List.cons_ne_nil _ _, List.forall_mem_cons.mpr ⟨hdigit, fun c hc => ?_⟩⟩
        exact List.mem_takeWhile_imp hc
      · cases h

theorem digits_of_readNumeral? {text rest : List Char} {numeral : Numeral}
    (h : readNumeral? text = some (numeral, rest)) : Digits numeral.whole := by
  unfold readNumeral? at h
  split at h
  obtain ⟨⟨whole, afterWhole⟩, hwhole, he⟩ := Option.map_eq_some_iff.mp h
  obtain ⟨rfl, -⟩ := Prod.mk.inj he
  exact digits_of_readWhole? hwhole

/-! ## Words and numerals -/

/-- No word begins like a numeral. -/
theorem readWord?_signed (negative : Bool) {c : Char} (hc : c.isDigit = true) (rest : List Char) :
    readWord? (signed negative ++ c :: rest) = none := by
  have hletters : ∀ letter ∈ ['n', 't', 'f', 'N', 'I', '-'], letter ≠ c := by
    rintro letter hletter rfl
    revert letter
    decide
  simp only [List.forall_mem_cons] at hletters
  obtain ⟨hn, ht, hf, hN, hI, hminus, -⟩ := hletters
  cases negative with
  | true => simp [signed, readWord?, wordValues, Text.after?, hI]
  | false => simp [signed, readWord?, wordValues, Text.after?, hn, ht, hf, hN, hI, hminus]

/-- A numeral that is put together from its parts is a plain value,
unless it has too many digits. -/
theorem exists_plain (negative : Bool) {whole : List Char} {fraction : Option (List Char)}
    {power : Option WrittenPower} (hwhole : WholeDigits whole)
    (hfraction : ∀ places ∈ fraction, Digits places) (hpower : ∀ p ∈ power, Digits p.2)
    (hshort : Numeral.isTooLong ⟨negative, whole, fraction, power.map powerValue⟩ = false) :
    ∃ h, readPlain (signed negative ++ (whole ++ (pointed fraction ++ powered power))) =
      .ok ⟨Numeral.value ⟨negative, whole, fraction, power.map powerValue⟩, [], h⟩ := by
  have hnumeral := readNumeral?_parts negative hwhole hfraction hpower
  -- words are tried before numerals
  have hword :
      readWord? (signed negative ++ (whole ++ (pointed fraction ++ powered power))) = none := by
    obtain ⟨c, digits, rfl⟩ := List.exists_cons_of_ne_nil hwhole.ne_nil
    exact readWord?_signed negative (hwhole.digit c List.mem_cons_self) _
  refine ⟨length_of_readNumeral? hnumeral, ?_⟩
  unfold readPlain
  split
  · rename_i hword'
    rw [hword] at hword'
    cases hword'
  · split
    · rename_i hnumeral'
      rw [hnumeral] at hnumeral'
      obtain ⟨rfl, rfl⟩ := Prod.mk.inj (Option.some.inj hnumeral')
      rw [if_neg (by simp [hshort])]
    · rename_i hnumeral'
      rw [hnumeral] at hnumeral'
      cases hnumeral'

end ApiClient.Json
