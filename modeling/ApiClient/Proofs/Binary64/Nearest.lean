import ApiClient.Binary64.Basic
import Mathlib.Algebra.Order.Field.Power
import Mathlib.Data.Nat.Digits.Lemmas
import Mathlib.Data.Rat.Cast.Order
import Mathlib.Tactic.FieldSimp
import Mathlib.Tactic.Linarith
import Mathlib.Tactic.NormNum
import Mathlib.Tactic.Positivity
import Mathlib.Tactic.Ring

/-!
# Reading a decimal to the nearest double

A double stands for an interval of rationals, those that are nearer to it than to any other
double; its ends belong to it if its mantissa is even. A decimal in the interval of a double is
read as that double, whatever its digits are.
-/

namespace ApiClient.Binary64

/-! ## Powers as quotients -/

theorem twoTo_eq (exponent : Nat) : twoTo exponent = 2 ^ exponent := rfl

theorem twoTo_pos (exponent : Nat) : 0 < twoTo exponent := Nat.pow_pos (by omega)

theorem cast_twoTo (exponent : Nat) : ((twoTo exponent : ℕ) : ℚ) = 2 ^ (exponent : Int) := by
  rw [twoTo_eq, zpow_natCast, Nat.cast_pow, Nat.cast_ofNat]

/-- A power is a quotient of two natural powers, of which one is one. -/
theorem zpow_eq_div {base : Nat} (hbase : 0 < base) (exponent : Int) :
    (base : ℚ) ^ exponent =
      ((base ^ exponent.toNat : ℕ) : ℚ) / ((base ^ (-exponent).toNat : ℕ) : ℚ) := by
  have hne : (base : ℚ) ≠ 0 := Nat.cast_ne_zero.mpr hbase.ne'
  rcases Int.le_total 0 exponent with h | h
  · obtain ⟨n, rfl⟩ := Int.eq_ofNat_of_zero_le h
    have hnegative : (-(n : Int)).toNat = 0 := by omega
    rw [hnegative, Int.toNat_natCast, zpow_natCast, pow_zero, Nat.cast_one, div_one, Nat.cast_pow]
  · obtain ⟨n, hn⟩ := Int.eq_ofNat_of_zero_le (Int.neg_nonneg_of_nonpos h)
    obtain rfl : exponent = -(n : Int) := by omega
    have hnegative : (-(n : Int)).toNat = 0 := by omega
    rw [hnegative, neg_neg, Int.toNat_natCast, zpow_neg, zpow_natCast, pow_zero, Nat.cast_one,
      Nat.cast_pow, one_div]

/-- Multiplying one side of a quotient by a power of two divides it by that power. -/
theorem quotient_scaled (numerator denominator : Nat) (exponent : Int) :
    ((numerator * twoTo (-exponent).toNat : ℕ) : ℚ) /
    ((denominator * twoTo exponent.toNat : ℕ) : ℚ) =
      (numerator / denominator : ℚ) / 2 ^ exponent := by
  have hpow := zpow_eq_div (by omega : 0 < 2) exponent
  have htwo : ((2 : ℕ) : ℚ) = 2 := by norm_num
  rw [htwo] at hpow
  rw [hpow, twoTo_eq, twoTo_eq, Nat.cast_mul, Nat.cast_mul, div_div_div_eq]

/-! ## The nearest integer -/

/-- The nearest integer, by bounds that are doubled and multiplied out. -/
theorem nearestEven_of_bounds {numerator denominator nearest : Nat}
    (hdenominator : 0 < denominator)
    (hlow : 2 * nearest * denominator ≤ 2 * numerator + denominator)
    (hhigh : 2 * numerator ≤ 2 * nearest * denominator + denominator)
    (hodd : nearest % 2 = 1 → 2 * nearest * denominator < 2 * numerator + denominator ∧
      2 * numerator < 2 * nearest * denominator + denominator) :
    nearestEven numerator denominator = nearest := by
  have hsplit := Nat.div_add_mod numerator denominator
  have hrest := Nat.mod_lt numerator hdenominator
  unfold nearestEven
  generalize numerator / denominator = quotient at hsplit ⊢
  generalize numerator % denominator = rest at hsplit hrest ⊢
  -- the quotient is the nearest integer or the one below it
  have hquotient : quotient = nearest ∨ quotient + 1 = nearest := by
    have hle : quotient ≤ nearest := by
      by_contra hnot
      have hmul : (nearest + 1) * denominator ≤ quotient * denominator :=
        Nat.mul_le_mul_right _ (by omega)
      nlinarith
    have hge : nearest ≤ quotient + 1 := by
      by_contra hnot
      have hmul : (quotient + 2) * denominator ≤ nearest * denominator :=
        Nat.mul_le_mul_right _ (by omega)
      nlinarith
    omega
  have hcomm : denominator * quotient = quotient * denominator := Nat.mul_comm _ _
  rcases hquotient with rfl | rfl
  · have hdouble : 2 * quotient * denominator = 2 * (quotient * denominator) := Nat.mul_assoc _ _ _
    dsimp only
    by_cases hless : 2 * rest < denominator
    · rw [if_pos (.inl hless)]
    · -- a half is rounded down only to an even integer
      have hhalf : 2 * rest = denominator := by omega
      have heven : quotient % 2 = 0 := by
        by_contra hnot
        have := (hodd (by omega)).2
        omega
      rw [if_pos (.inr ⟨hhalf, heven⟩)]
  · have hdouble : 2 * (quotient + 1) * denominator =
        2 * (quotient * denominator) + 2 * denominator := by
      ring
    dsimp only
    have hnot : ¬ (2 * rest < denominator ∨ (2 * rest = denominator ∧ quotient % 2 = 0)) := by
      rintro (hless | ⟨hhalf, heven⟩)
      · omega
      · have := (hodd (by omega)).1
        omega
    rw [if_neg hnot]

/-- The integer nearest to a quotient is the one within a half of it, and the even one of two. -/
theorem nearestEven_eq {numerator denominator nearest : Nat} (hdenominator : 0 < denominator)
    (hlow : (nearest : ℚ) - 1 / 2 ≤ numerator / denominator)
    (hhigh : (numerator / denominator : ℚ) ≤ nearest + 1 / 2)
    (hodd : nearest % 2 = 1 → (nearest : ℚ) - 1 / 2 < numerator / denominator ∧
      (numerator / denominator : ℚ) < nearest + 1 / 2) :
    nearestEven numerator denominator = nearest := by
  have hpos : (0 : ℚ) < denominator := Nat.cast_pos.mpr hdenominator
  -- over whole numbers each bound is that of the quotient times the denominator
  refine nearestEven_of_bounds hdenominator ?low ?high fun h => ?odd
  case low =>
    rw [le_div_iff₀ hpos] at hlow
    exact_mod_cast (by linarith : (2 * nearest * denominator : ℚ) ≤ 2 * numerator + denominator)
  case high =>
    rw [div_le_iff₀ hpos] at hhigh
    exact_mod_cast (by linarith : (2 * numerator : ℚ) ≤ 2 * nearest * denominator + denominator)
  case odd =>
    obtain ⟨hlow, hhigh⟩ := hodd h
    rw [lt_div_iff₀ hpos] at hlow
    rw [div_lt_iff₀ hpos] at hhigh
    constructor
    · exact_mod_cast (by linarith : (2 * nearest * denominator : ℚ) < 2 * numerator + denominator)
    · exact_mod_cast (by linarith : (2 * numerator : ℚ) < 2 * nearest * denominator + denominator)

/-! ## The exponent -/

theorem two_zpow_pos (exponent : Int) : (0 : ℚ) < 2 ^ exponent := zpow_pos (by norm_num) exponent

theorem two_zpow_add (exponent exponent' : Int) :
    (2 : ℚ) ^ (exponent + exponent') = 2 ^ exponent * 2 ^ exponent' :=
  zpow_add₀ (by norm_num) exponent exponent'

/-- A power of two that is at most a number below another has the smaller exponent. -/
theorem lt_of_two_zpow {exponent exponent' : Int} {value : ℚ} (h : 2 ^ exponent ≤ value)
    (h' : value < 2 ^ exponent') : exponent < exponent' := by
  have hlt : (2 : ℚ) ^ exponent < 2 ^ exponent' := lt_of_le_of_lt h h'
  exact (zpow_lt_zpow_iff_right₀ (by norm_num)).mp hlt

section

variable {numerator denominator : Nat} (hdenominator : 0 < denominator)

include hdenominator

/-- A quotient is more than half the power of two that the binary lengths of its parts give. -/
theorem two_zpow_le_div (hnumerator : 0 < numerator) :
    (2 : ℚ) ^ ((numerator.log2 : Int) - denominator.log2 - 1) ≤ numerator / denominator := by
  have hlength : (twoTo numerator.log2 : ℚ) ≤ numerator :=
    Nat.cast_le.mpr (Nat.log2_self_le hnumerator.ne')
  have hlength' : (denominator : ℚ) < twoTo (denominator.log2 + 1) :=
    Nat.cast_lt.mpr Nat.lt_log2_self
  have hsplit : (2 : ℚ) ^ (numerator.log2 : Int) =
      2 ^ ((numerator.log2 : Int) - denominator.log2 - 1) *
      2 ^ ((denominator.log2 + 1 : ℕ) : Int) := by
    rw [← two_zpow_add]
    congr 1
    push_cast
    omega
  rw [cast_twoTo] at hlength hlength'
  rw [le_div_iff₀ (Nat.cast_pos.mpr hdenominator)]
  -- a number is at least the power of its length, and below the next
  calc (2 : ℚ) ^ ((numerator.log2 : Int) - denominator.log2 - 1) * denominator
      ≤ 2 ^ ((numerator.log2 : Int) - denominator.log2 - 1) *
      2 ^ ((denominator.log2 + 1 : ℕ) : Int) :=
        mul_le_mul_of_nonneg_left hlength'.le (two_zpow_pos _).le
    _ ≤ numerator := by rw [← hsplit]; exact hlength

/-- A quotient is less than twice the power of two that the binary lengths of its parts give. -/
theorem div_lt_two_zpow :
    (numerator / denominator : ℚ) < 2 ^ ((numerator.log2 : Int) - denominator.log2 + 1) := by
  have hlength : (numerator : ℚ) < twoTo (numerator.log2 + 1) := Nat.cast_lt.mpr Nat.lt_log2_self
  have hlength' : (twoTo denominator.log2 : ℚ) ≤ denominator :=
    Nat.cast_le.mpr (Nat.log2_self_le hdenominator.ne')
  have hsplit : (2 : ℚ) ^ ((numerator.log2 + 1 : ℕ) : Int) =
      2 ^ ((numerator.log2 : Int) - denominator.log2 + 1) * 2 ^ (denominator.log2 : Int) := by
    rw [← two_zpow_add]
    congr 1
    push_cast
    omega
  rw [cast_twoTo] at hlength hlength'
  rw [div_lt_iff₀ (Nat.cast_pos.mpr hdenominator)]
  calc (numerator : ℚ)
      < 2 ^ ((numerator.log2 : Int) - denominator.log2 + 1) * 2 ^ (denominator.log2 : Int) := by
        rw [← hsplit]; exact hlength
    _ ≤ 2 ^ ((numerator.log2 : Int) - denominator.log2 + 1) * denominator :=
        mul_le_mul_of_nonneg_left hlength' (two_zpow_pos _).le

/-- Whole numbers tell whether a quotient has fewer than 53 binary digits at an exponent. -/
theorem scaled_lt_iff (exponent : Int) :
    numerator * twoTo (-exponent).toNat < denominator * twoTo exponent.toNat * twoTo 52 ↔
      (numerator / denominator : ℚ) < 2 ^ (52 + exponent) := by
  have hscaled := quotient_scaled numerator denominator exponent
  have hpos : (0 : ℚ) < ((denominator * twoTo exponent.toNat : ℕ) : ℚ) :=
    Nat.cast_pos.mpr (Nat.mul_pos hdenominator (Nat.pow_pos (by omega)))
  have hfull : ((twoTo 52 : ℕ) : ℚ) = 2 ^ (52 : Int) := cast_twoTo 52
  rw [two_zpow_add, ← div_lt_iff₀ (two_zpow_pos exponent), ← hscaled, div_lt_iff₀ hpos, ← hfull,
    ← Nat.cast_mul, Nat.cast_lt, Nat.mul_comm (twoTo 52)]

end

/-- The exponent is the one at which a quotient has 53 binary digits, but never below the least. -/
theorem exponentFor_eq {numerator denominator : Nat} (hnumerator : 0 < numerator)
    (hdenominator : 0 < denominator) :
    ∃ full : Int, (2 : ℚ) ^ (52 + full) ≤ numerator / denominator ∧
      (numerator / denominator : ℚ) < 2 ^ (53 + full) ∧
        exponentFor numerator denominator = max full leastExponent := by
  have hlow := two_zpow_le_div hdenominator hnumerator
  have hhigh := @div_lt_two_zpow numerator denominator hdenominator
  unfold exponentFor
  dsimp only
  -- a guess from the binary lengths is right or one too large, and one comparison tells which
  generalize hguess : (numerator.log2 : Int) - denominator.log2 - 52 = guess
  by_cases h : numerator * twoTo (-guess).toNat < denominator * twoTo guess.toNat * twoTo 52
  · refine ⟨guess - 1, ?_, ?_, by rw [if_pos h]⟩
    · rw [show 52 + (guess - 1) = (numerator.log2 : Int) - denominator.log2 - 1 by omega]
      exact hlow
    · rw [show 53 + (guess - 1) = 52 + guess by omega]
      exact (scaled_lt_iff hdenominator guess).mp h
  · refine ⟨guess, not_lt.mp (mt (scaled_lt_iff hdenominator guess).mpr h), ?_, by rw [if_neg h]⟩
    rw [show 53 + guess = (numerator.log2 : Int) - denominator.log2 + 1 by omega]
    exact hhigh

/-! ## The rationals that round to a double -/

/-- A mantissa and an exponent of a positive finite double. -/
structure Normal (mantissa : Nat) (exponent : Int) : Prop where
  pos : 0 < mantissa
  below : mantissa < twoTo 53
  least : leastExponent ≤ exponent
  greatest : exponent ≤ greatestExponent
  full : leastExponent < exponent → twoTo 52 ≤ mantissa

/-- A double in the one form that it has. -/
def Canonical : Binary64 → Prop
  | finite _ mantissa exponent =>
    (mantissa = 0 ∧ exponent = leastExponent) ∨ Normal mantissa exponent
  | _ => True

/-- How far the interval of a double reaches below it, in units of its last place. Below a power of
two the doubles are twice as dense. -/
def reachBelow (mantissa : Nat) (exponent : Int) : ℚ :=
  if mantissa = twoTo 52 ∧ leastExponent < exponent then 1 / 4 else 1 / 2

/-- A rational, in units of the last place, is in the interval of a double. -/
structure Near (mantissa : Nat) (exponent : Int) (value : ℚ) : Prop where
  low : (mantissa : ℚ) - reachBelow mantissa exponent ≤ value
  high : value ≤ mantissa + 1 / 2
  odd : mantissa % 2 = 1 →
    (mantissa : ℚ) - reachBelow mantissa exponent < value ∧ value < mantissa + 1 / 2

/-- A rational rounds to a double. -/
def RoundsTo (value : ℚ) (mantissa : Nat) (exponent : Int) : Prop :=
  Near mantissa exponent (value / 2 ^ exponent)

theorem reachBelow_le (mantissa : Nat) (exponent : Int) :
    reachBelow mantissa exponent ≤ 1 / 2 := by
  unfold reachBelow
  split <;> norm_num

theorem reachBelow_pos (mantissa : Nat) (exponent : Int) : 0 < reachBelow mantissa exponent := by
  unfold reachBelow
  split <;> norm_num

/-- What rounds to a double is below the next power of two. -/
theorem lt_of_roundsTo {mantissa : Nat} {exponent : Int} (hnormal : Normal mantissa exponent)
    {value : ℚ} (h : RoundsTo value mantissa exponent) : value < 2 ^ (53 + exponent) := by
  have hunit := two_zpow_pos exponent
  have hbelow : ((mantissa + 1 : ℕ) : ℚ) ≤ ((twoTo 53 : ℕ) : ℚ) := Nat.cast_le.mpr hnormal.below
  rw [cast_twoTo, Nat.cast_add, Nat.cast_one] at hbelow
  have hhigh : value ≤ (mantissa + 1 / 2) * 2 ^ exponent := (div_le_iff₀ hunit).mp h.high
  rw [two_zpow_add]
  exact hhigh.trans_lt (mul_lt_mul_of_pos_right (lt_of_lt_of_le (by linarith) hbelow) hunit)

/-- A quotient that is near to a mantissa at an exponent is rounded to it there. -/
theorem nearestEven_of_near {mantissa : Nat} {exponent : Int} {numerator denominator : Nat}
    (hdenominator : 0 < denominator)
    (h : Near mantissa exponent ((numerator / denominator : ℚ) / 2 ^ exponent)) :
    nearestEven (numerator * twoTo (-exponent).toNat) (denominator * twoTo exponent.toNat) =
      mantissa := by
  have hreach := reachBelow_le mantissa exponent
  obtain ⟨hlow, hhigh, hodd⟩ := h
  rw [← quotient_scaled] at hlow hhigh hodd
  refine nearestEven_eq (Nat.mul_pos hdenominator (twoTo_pos _)) (by linarith) hhigh
    fun h => ?_
  obtain ⟨hlow', hhigh'⟩ := hodd h
  exact ⟨by linarith, hhigh'⟩

/-! ## Quotients that round to a double -/

/-- What is made of a nearest mantissa: rounding up can reach the next power of two. -/
def settle (negative : Bool) (mantissa : Nat) (exponent : Int) : Binary64 :=
  let (mantissa, exponent) :=
    if mantissa = twoTo 53 then (twoTo 52, exponent + 1) else (mantissa, exponent)
  if greatestExponent < exponent then infinity negative else finite negative mantissa exponent

theorem ofQuotient_eq_settle (negative : Bool) (numerator denominator : Nat) :
    ofQuotient negative numerator denominator =
      settle negative (nearestEven (numerator * twoTo (-exponentFor numerator denominator).toNat)
        (denominator * twoTo (exponentFor numerator denominator).toNat))
        (exponentFor numerator denominator) := rfl

theorem settle_of_below {mantissa : Nat} {exponent : Int} (hbelow : mantissa < twoTo 53)
    (hgreatest : exponent ≤ greatestExponent) (negative : Bool) :
    settle negative mantissa exponent = finite negative mantissa exponent := by
  unfold settle
  rw [if_neg hbelow.ne]
  exact if_neg (not_lt.mpr hgreatest)

theorem settle_full {exponent : Int} (hgreatest : exponent + 1 ≤ greatestExponent)
    (negative : Bool) :
    settle negative (twoTo 53) exponent = finite negative (twoTo 52) (exponent + 1) := by
  unfold settle
  rw [if_pos rfl]
  exact if_neg (not_lt.mpr hgreatest)

/-- A number that rounds to a double and has a smaller exponent lies just below a power of two. -/
theorem halved_of_below {mantissa : Nat} {exponent : Int} (hnormal : Normal mantissa exponent)
    (hexponent : leastExponent < exponent) {value : ℚ} (h : RoundsTo value mantissa exponent)
    (hless : value < 2 ^ (52 + exponent)) :
    mantissa = twoTo 52 ∧ ((twoTo 53 : ℕ) : ℚ) - 1 / 2 ≤ value / 2 ^ (exponent - 1) ∧
      value / 2 ^ (exponent - 1) < (twoTo 53 : ℕ) := by
  have hunit := two_zpow_pos exponent
  have hdouble : (twoTo 53 : ℕ) = 2 * ((twoTo 52 : ℕ) : ℚ) := by
    rw [cast_twoTo, cast_twoTo]
    norm_num
  -- at the smaller exponent the unit is half as large
  have hhalf : value / 2 ^ (exponent - 1) = 2 * (value / 2 ^ exponent) := by
    rw [zpow_sub_one₀ two_ne_zero]
    field_simp
  rw [two_zpow_add, ← div_lt_iff₀ hunit] at hless
  rw [hdouble, hhalf]
  have hpower : ((twoTo 52 : ℕ) : ℚ) = 2 ^ (52 : Int) := cast_twoTo 52
  rw [← hpower] at hless
  have hmantissa : mantissa = twoTo 52 := by
    have hlow := h.low
    have hreach := reachBelow_le mantissa exponent
    have hcast : (mantissa : ℚ) < (twoTo 52 + 1 : ℕ) := by
      rw [Nat.cast_add, Nat.cast_one]
      linarith
    exact Nat.le_antisymm (Nat.lt_succ_iff.mp (Nat.cast_lt.mp hcast)) (hnormal.full hexponent)
  have hlow := h.low
  rw [reachBelow, if_pos ⟨hmantissa, hexponent⟩, hmantissa] at hlow
  exact ⟨hmantissa, by linarith, by linarith⟩

/-- A quotient that rounds to a double is read as that double. -/
theorem ofQuotient_eq {mantissa : Nat} {exponent : Int} (hnormal : Normal mantissa exponent)
    {numerator denominator : Nat} (hnumerator : 0 < numerator) (hdenominator : 0 < denominator)
    (h : RoundsTo (numerator / denominator) mantissa exponent) (negative : Bool) :
    ofQuotient negative numerator denominator = finite negative mantissa exponent := by
  obtain ⟨full, hlow, hhigh, hexponent⟩ := exponentFor_eq hnumerator hdenominator
  have hfull : full ≤ exponent := by
    have := lt_of_two_zpow hlow (lt_of_roundsTo hnormal h)
    omega
  have hleast := hnormal.least
  rw [ofQuotient_eq_settle]
  by_cases hsame : exponentFor numerator denominator = exponent
  · rw [hsame, nearestEven_of_near hdenominator h]
    exact settle_of_below hnormal.below hnormal.greatest negative
  · -- below a power of two the exponent is one less, and rounding reaches the power again
    have hexponents : full < exponent ∧ leastExponent < exponent := by omega
    have hsmall : (numerator / denominator : ℚ) < 2 ^ (52 + exponent) := by
      refine lt_of_lt_of_le hhigh (zpow_le_zpow_right₀ (by norm_num) ?_)
      omega
    obtain ⟨rfl, hfrom, hto⟩ := halved_of_below hnormal hexponents.2 h hsmall
    have hfullSame : exponentFor numerator denominator = exponent - 1 := by
      have hlarge : (2 : ℚ) ^ (51 + exponent) ≤ numerator / denominator := by
        have hhalf : ((twoTo 52 : ℕ) : ℚ) ≤ (twoTo 53 : ℕ) - 1 / 2 := by
          rw [cast_twoTo, cast_twoTo]
          norm_num
        rw [show 51 + exponent = 52 + (exponent - 1) by omega, two_zpow_add,
          ← le_div_iff₀ (two_zpow_pos _)]
        rw [cast_twoTo] at hhalf
        exact hhalf.trans hfrom
      have := lt_of_two_zpow hlarge hhigh
      omega
    have hnearest : nearestEven (numerator * twoTo (-(exponent - 1)).toNat)
        (denominator * twoTo (exponent - 1).toNat) = twoTo 53 := by
      rw [← quotient_scaled] at hfrom hto
      refine nearestEven_eq (Nat.mul_pos hdenominator (twoTo_pos _)) hfrom (by linarith)
        fun hodd => ?_
      exact absurd hodd (by decide)
    rw [hfullSame, hnearest, settle_full (by have := hnormal.greatest; omega), Int.sub_add_cancel]

/-! ## Whatever is read -/

/-- The nearest integer lies between the integers that a quotient lies between. -/
theorem le_nearestEven {bound numerator denominator : Nat} (hdenominator : 0 < denominator)
    (h : bound * denominator ≤ numerator) : bound ≤ nearestEven numerator denominator := by
  have hquotient := (Nat.le_div_iff_mul_le hdenominator).mpr h
  unfold nearestEven
  dsimp only
  split <;> omega

theorem nearestEven_le {bound numerator denominator : Nat}
    (h : numerator < bound * denominator) : nearestEven numerator denominator ≤ bound := by
  have hquotient := Nat.div_lt_of_lt_mul (Nat.mul_comm bound denominator ▸ h)
  unfold nearestEven
  dsimp only
  split <;> omega

/-- A mantissa that is full, unless the exponent is the least, makes a double in its one form. -/
theorem canonical_settle {mantissa : Nat} {exponent : Int} (hmantissa : mantissa ≤ twoTo 53)
    (hleast : leastExponent ≤ exponent) (hfull : leastExponent < exponent → twoTo 52 ≤ mantissa)
    (negative : Bool) : Canonical (settle negative mantissa exponent) := by
  rcases Nat.lt_or_eq_of_le hmantissa with hbelow | rfl
  · unfold settle
    rw [if_neg hbelow.ne]
    dsimp only
    split
    · trivial
    · rename_i hgreatest
      rcases Nat.eq_zero_or_pos mantissa with rfl | hpos
      · refine .inl ⟨rfl, le_antisymm (not_lt.mp fun hlt => ?_) hleast⟩
        exact absurd (hfull hlt) (not_le.mpr (twoTo_pos 52))
      · exact .inr ⟨hpos, hbelow, hleast, not_lt.mp hgreatest, hfull⟩
  · -- a full mantissa is settled one exponent up
    unfold settle
    rw [if_pos rfl]
    dsimp only
    split
    · trivial
    · rename_i hgreatest
      exact .inr ⟨twoTo_pos 52, by decide, by omega, not_lt.mp hgreatest, fun _ => Nat.le_refl _⟩

/-- What a quotient is rounded to is a double in its one form. -/
theorem canonical_ofQuotient {numerator denominator : Nat} (hnumerator : 0 < numerator)
    (hdenominator : 0 < denominator) (negative : Bool) :
    Canonical (ofQuotient negative numerator denominator) := by
  obtain ⟨full, hlow, hhigh, hexponent⟩ := exponentFor_eq hnumerator hdenominator
  rw [ofQuotient_eq_settle, hexponent]
  have hscaled : 0 < denominator * twoTo (max full leastExponent).toNat :=
    Nat.mul_pos hdenominator (twoTo_pos _)
  have hpos : (0 : ℚ) < ((denominator * twoTo (max full leastExponent).toNat : ℕ) : ℚ) :=
    Nat.cast_pos.mpr hscaled
  -- the quotient has at most 53 binary digits at its exponent, and no fewer
  -- unless that is the least
  refine canonical_settle (nearestEven_le ?_) (le_max_right _ _)
    (fun hless => le_nearestEven hscaled ?_) negative
  · rw [← Nat.cast_lt (α := ℚ), Nat.cast_mul (twoTo 53), ← div_lt_iff₀ hpos, quotient_scaled,
      div_lt_iff₀ (two_zpow_pos _), cast_twoTo, ← two_zpow_add]
    exact hhigh.trans_le (zpow_le_zpow_right₀ (by norm_num) (by omega))
  · have hmax : max full leastExponent = full := by omega
    rw [← Nat.cast_le (α := ℚ), Nat.cast_mul (twoTo 52), ← le_div_iff₀ hpos, quotient_scaled,
      le_div_iff₀ (two_zpow_pos _), cast_twoTo, ← two_zpow_add, hmax]
    exact hlow

/-- What a decimal is read as is a double in its one form. -/
theorem canonical_ofDecimal (negative : Bool) (digits : Nat) (power : Int) :
    Canonical (ofDecimal negative digits power) := by
  unfold ofDecimal
  dsimp only
  split
  · exact .inl ⟨rfl, rfl⟩
  · rename_i hsmall
    split
    · trivial
    · refine canonical_ofQuotient (Nat.mul_pos ?_ (Nat.pow_pos (by omega)))
        (Nat.pow_pos (by omega)) _
      exact Nat.pos_of_ne_zero (not_or.mp hsmall).1

/-! ## Decimals that round to a double -/

theorem tenTo_pos (exponent : Nat) : 0 < tenTo exponent := Nat.pow_pos (by omega)

theorem ten_zpow_pos (exponent : Int) : (0 : ℚ) < 10 ^ exponent := zpow_pos (by norm_num) exponent

/-- A power of ten is a quotient of two powers, of which one is one. -/
theorem ten_zpow_eq_div (exponent : Int) :
    (10 : ℚ) ^ exponent = (tenTo exponent.toNat : ℕ) / (tenTo (-exponent).toNat : ℕ) := by
  have hpow := zpow_eq_div (by omega : 0 < 10) exponent
  rw [Nat.cast_ofNat] at hpow
  exact hpow

theorem cast_tenTo (exponent : Nat) : ((tenTo exponent : ℕ) : ℚ) = 10 ^ (exponent : Int) := by
  rw [tenTo, zpow_natCast]
  exact Nat.cast_pow 10 exponent

/-- All doubles are below this power of ten. -/
theorem two_zpow_le_ten : (2 : ℚ) ^ (1024 : Int) ≤ 10 ^ (310 : Int) := by
  have hpowers : twoTo 1024 ≤ tenTo 310 := by decide +kernel
  have hcast : ((twoTo 1024 : ℕ) : ℚ) ≤ ((tenTo 310 : ℕ) : ℚ) := Nat.cast_le.mpr hpowers
  rw [cast_twoTo, cast_tenTo] at hcast
  exact hcast

/-- All that rounds to a double other than zero is above this power of ten. -/
theorem ten_zpow_le_two : (10 : ℚ) ^ (-331 : Int) ≤ 2 ^ (-1075 : Int) := by
  have hpowers : twoTo 1075 ≤ tenTo 331 := by decide +kernel
  have hcast : ((twoTo 1075 : ℕ) : ℚ) ≤ ((tenTo 331 : ℕ) : ℚ) := Nat.cast_le.mpr hpowers
  rw [cast_twoTo, cast_tenTo] at hcast
  rw [zpow_neg, zpow_neg]
  exact inv_anti₀ (two_zpow_pos _) hcast

/-- A number has as many digits as the power of ten above it says. -/
theorem decimalLength_bounds {digits : Nat} (h : 0 < digits) :
    (10 : ℚ) ^ ((decimalLength digits : Int) - 1) ≤ digits ∧
      (digits : ℚ) < 10 ^ (decimalLength digits : Int) := by
  have hpos : 0 < decimalLength digits := Nat.length_toDigits_pos
  constructor
  · obtain ⟨n, hn⟩ : ∃ n, decimalLength digits = n + 1 := ⟨_, (Nat.succ_pred_eq_of_pos hpos).symm⟩
    rw [hn, Nat.cast_add, Nat.cast_one, add_sub_cancel_right, zpow_natCast]
    rcases Nat.eq_zero_or_pos n with rfl | hn'
    · rw [pow_zero]
      exact_mod_cast h
    · have hnot : ¬ digits < 10 ^ n := by
        rw [← Nat.length_toDigits_le_iff (by omega) hn']
        change ¬ decimalLength digits ≤ n
        omega
      exact_mod_cast Nat.not_lt.mp hnot
  · have hlt : digits < 10 ^ decimalLength digits :=
      (Nat.length_toDigits_le_iff (by omega) hpos).mp (Nat.le_refl _)
    rw [zpow_natCast]
    exact_mod_cast hlt

/-- What rounds to a double is not smaller than half the least of them,
and below all that is infinite. -/
theorem bounds_of_roundsTo {mantissa : Nat} {exponent : Int} (hnormal : Normal mantissa exponent)
    {value : ℚ} (h : RoundsTo value mantissa exponent) :
    (2 : ℚ) ^ (-1075 : Int) ≤ value ∧ value < 2 ^ (1024 : Int) := by
  constructor
  · have hunit := two_zpow_pos exponent
    have hlow := (le_div_iff₀ hunit).mp h.low
    have hreach := reachBelow_le mantissa exponent
    have hone : (1 : ℚ) ≤ mantissa := by exact_mod_cast hnormal.pos
    have hleast : (2 : ℚ) ^ (-1074 : Int) ≤ 2 ^ exponent :=
      zpow_le_zpow_right₀ (by norm_num) hnormal.least
    have hhalf : (2 : ℚ) ^ (-1 : Int) = 1 / 2 := by norm_num
    -- the least value that rounds to a double is half a unit below it
    calc (2 : ℚ) ^ (-1075 : Int)
      _ = 1 / 2 * 2 ^ (-1074 : Int) := by rw [← hhalf, ← two_zpow_add]; rfl
      _ ≤ 1 / 2 * 2 ^ exponent := by linarith
      _ ≤ (mantissa - reachBelow mantissa exponent) * 2 ^ exponent :=
          mul_le_mul_of_nonneg_right (by linarith) hunit.le
      _ ≤ value := hlow
  · have hgreatest := hnormal.greatest
    unfold greatestExponent at hgreatest
    exact (lt_of_roundsTo hnormal h).trans_le (zpow_le_zpow_right₀ (by norm_num) (by omega))

/-- A decimal that rounds to a double is read as that double, whatever its digits are. -/
theorem ofDecimal_eq {mantissa : Nat} {exponent : Int} (hnormal : Normal mantissa exponent)
    {digits : Nat} {power : Int} (h : RoundsTo (digits * 10 ^ power) mantissa exponent)
    (negative : Bool) :
    ofDecimal negative digits power = finite negative mantissa exponent := by
  obtain ⟨hleast, hmost⟩ := bounds_of_roundsTo hnormal h
  have hunit := ten_zpow_pos power
  have hpos : 0 < digits := by
    rcases Nat.eq_zero_or_pos digits with rfl | hpos
    · rw [Nat.cast_zero, zero_mul] at hleast
      exact absurd hleast (not_le.mpr (two_zpow_pos _))
    · exact hpos
  obtain ⟨hfrom, hto⟩ := decimalLength_bounds hpos
  -- what is read as zero or as infinite without a look at its digits is far from every double
  have hsmall : ¬ (digits = 0 ∨ (decimalLength digits : Int) + power < -330) := by
    rintro (hzero | hsmall)
    · omega
    · have hvalue : (digits : ℚ) * 10 ^ power < 10 ^ ((decimalLength digits : Int) + power) := by
        rw [zpow_add₀ (by norm_num)]
        exact mul_lt_mul_of_pos_right hto hunit
      have hten : (10 : ℚ) ^ ((decimalLength digits : Int) + power) ≤ 10 ^ (-331 : Int) :=
        zpow_le_zpow_right₀ (by norm_num) (by omega)
      exact absurd (hvalue.trans_le (hten.trans ten_zpow_le_two)) (not_lt.mpr hleast)
  have hlarge : ¬ 310 < (decimalLength digits : Int) + power := by
    intro hlarge
    have hvalue : (10 : ℚ) ^ ((decimalLength digits : Int) - 1 + power) ≤ digits * 10 ^ power := by
      rw [zpow_add₀ (by norm_num)]
      exact mul_le_mul_of_nonneg_right hfrom hunit.le
    have hten : (10 : ℚ) ^ (310 : Int) ≤ 10 ^ ((decimalLength digits : Int) - 1 + power) :=
      zpow_le_zpow_right₀ (by norm_num) (by omega)
    exact absurd (two_zpow_le_ten.trans (hten.trans hvalue)) (not_le.mpr hmost)
  have hquotient : (digits : ℚ) * 10 ^ power =
      ((digits * tenTo power.toNat : ℕ) : ℚ) / (tenTo (-power).toNat : ℕ) := by
    rw [ten_zpow_eq_div, Nat.cast_mul, mul_div_assoc]
  rw [hquotient] at h
  unfold ofDecimal
  dsimp only
  rw [if_neg hsmall, if_neg hlarge]
  exact ofQuotient_eq hnormal (Nat.mul_pos hpos (tenTo_pos _)) (tenTo_pos _) h negative

end ApiClient.Binary64
