import ApiClient.Binary64.Shortest
import ApiClient.Proofs.Binary64.Nearest
import Mathlib.Data.Nat.Cast.Order.Field

/-!
# Shortest decimals read back

The search for the shortest decimal of a double tries ever finer grids, and takes a decimal only
if it lies in the interval of the double. It always finds one: sixteen places after the first
digit, the points of the grid lie closer to one another than doubles do, so that one of the two
around a double is in its interval.
-/

namespace ApiClient.Binary64

/-- The rational that a decimal denotes. -/
def Decimal.value (decimal : Decimal) : ℚ := decimal.digits * 10 ^ decimal.exponent

namespace RoundingInterval

variable {mantissa : Nat} {exponent : Int}

/-! ## The interval of a double -/

/-- Bounds and points are compared over one denominator. -/
theorem scaled_bound (bound : Nat) (exponent power : Int) :
    ((bound * twoTo (exponent - 2).toNat * tenTo (-power).toNat : ℕ) : ℚ) =
      (twoTo (2 - exponent).toNat * tenTo (-power).toNat) * (bound / 4 * 2 ^ exponent) := by
  have hden : ((twoTo (2 - exponent).toNat : ℕ) : ℚ) ≠ 0 := Nat.cast_ne_zero.mpr (twoTo_pos _).ne'
  have hquarter : (2 : ℚ) ^ exponent = 4 * 2 ^ (exponent - 2) := by
    rw [zpow_sub₀ two_ne_zero]
    norm_num
    ring
  have hpow := zpow_eq_div (by omega : 0 < 2) (exponent - 2)
  rw [neg_sub, Nat.cast_ofNat, ← twoTo_eq, ← twoTo_eq] at hpow
  rw [hquarter, hpow, Nat.cast_mul, Nat.cast_mul]
  field_simp

theorem scaled_point (digits : Nat) (power exponent : Int) :
    ((digits * tenTo power.toNat * twoTo (2 - exponent).toNat : ℕ) : ℚ) =
      (twoTo (2 - exponent).toNat * tenTo (-power).toNat) * (digits * 10 ^ power) := by
  have hup : ((tenTo (-power).toNat : ℕ) : ℚ) ≠ 0 := Nat.cast_ne_zero.mpr (tenTo_pos _).ne'
  rw [ten_zpow_eq_div, Nat.cast_mul, Nat.cast_mul]
  field_simp

theorem scale_pos (exponent power : Int) :
    (0 : ℚ) < twoTo (2 - exponent).toNat * tenTo (-power).toNat :=
  mul_pos (Nat.cast_pos.mpr (twoTo_pos _)) (Nat.cast_pos.mpr (tenTo_pos _))

/-- A decimal is at or above a bound in quarters of the last place. -/
theorem le_point_iff {bound digits : Nat} {power : Int} :
    bound * twoTo (exponent - 2).toNat * tenTo (-power).toNat ≤
        digits * tenTo power.toNat * twoTo (2 - exponent).toNat ↔
      (bound / 4 : ℚ) ≤ digits * 10 ^ power / 2 ^ exponent := by
  rw [← Nat.cast_le (α := ℚ), scaled_bound, scaled_point, mul_le_mul_iff_right₀ (scale_pos _ _),
    le_div_iff₀ (two_zpow_pos _)]

/-- A decimal is at or below a bound in quarters of the last place. -/
theorem point_le_iff {bound digits : Nat} {power : Int} :
    digits * tenTo power.toNat * twoTo (2 - exponent).toNat ≤
        bound * twoTo (exponent - 2).toNat * tenTo (-power).toNat ↔
      (digits * 10 ^ power / 2 ^ exponent : ℚ) ≤ bound / 4 := by
  rw [← Nat.cast_le (α := ℚ), scaled_bound, scaled_point, mul_le_mul_iff_right₀ (scale_pos _ _),
    div_le_iff₀ (two_zpow_pos _)]

/-- The lower bound of an interval, in quarters of the last place. -/
def lowerQuarters (mantissa : Nat) (exponent : Int) : Nat :=
  4 * mantissa - if mantissa = twoTo 52 ∧ leastExponent < exponent then 1 else 2

theorem lowerQuarters_div (hnormal : Normal mantissa exponent) :
    (lowerQuarters mantissa exponent / 4 : ℚ) = mantissa - reachBelow mantissa exponent := by
  have hpos := hnormal.pos
  unfold lowerQuarters reachBelow
  split
  · rw [Nat.cast_sub (by omega), Nat.cast_mul]
    push_cast
    ring
  · rw [Nat.cast_sub (by omega), Nat.cast_mul]
    push_cast
    ring

/-- A decimal is in the interval of a double just if it rounds to it. -/
theorem holds_iff (hnormal : Normal mantissa exponent) {decimal : Decimal} :
    (RoundingInterval.of mantissa exponent).holds decimal = true ↔
      RoundsTo decimal.value mantissa exponent := by
  have hlow := lowerQuarters_div hnormal
  have hhigh : ((4 * mantissa + 2 : ℕ) / 4 : ℚ) = mantissa + 1 / 2 := by
    push_cast
    ring
  have hholds : (RoundingInterval.of mantissa exponent).holds decimal =
      if mantissa % 2 == 0 then
        decide (lowerQuarters mantissa exponent * twoTo (exponent - 2).toNat *
            tenTo (-decimal.exponent).toNat ≤
          decimal.digits * tenTo decimal.exponent.toNat * twoTo (2 - exponent).toNat) &&
        decide (decimal.digits * tenTo decimal.exponent.toNat * twoTo (2 - exponent).toNat ≤
          (4 * mantissa + 2) * twoTo (exponent - 2).toNat * tenTo (-decimal.exponent).toNat)
      else
        decide (lowerQuarters mantissa exponent * twoTo (exponent - 2).toNat *
            tenTo (-decimal.exponent).toNat <
          decimal.digits * tenTo decimal.exponent.toNat * twoTo (2 - exponent).toNat) &&
        decide (decimal.digits * tenTo decimal.exponent.toNat * twoTo (2 - exponent).toNat <
          (4 * mantissa + 2) * twoTo (exponent - 2).toNat * tenTo (-decimal.exponent).toNat) := rfl
  rw [hholds]
  -- the ends belong to the interval of an even mantissa only
  by_cases heven : mantissa % 2 = 0
  · rw [if_pos (by simpa using heven), Bool.and_eq_true, decide_eq_true_iff, decide_eq_true_iff,
      le_point_iff, point_le_iff, hlow, hhigh]
    constructor
    · rintro ⟨h, h'⟩
      exact ⟨h, h', fun hodd => by omega⟩
    · rintro ⟨h, h', -⟩
      exact ⟨h, h'⟩
  · rw [if_neg (by simpa using heven), Bool.and_eq_true, decide_eq_true_iff, decide_eq_true_iff,
      ← not_le, ← not_le, le_point_iff, point_le_iff, hlow, hhigh, not_le, not_le]
    constructor
    · rintro ⟨h, h'⟩
      exact ⟨h.le, h'.le, fun _ => ⟨h, h'⟩⟩
    · rintro ⟨-, -, hodd⟩
      exact hodd (by omega)

/-! ## A grid that is fine enough -/

/-- Of the two points of a fine grid around a double, one rounds to it. -/
theorem near_of_grid (hnormal : Normal mantissa exponent) {step : ℚ} {floor : Nat}
    (hfine : step * 10 ^ 16 ≤ mantissa) (hbelow : floor * step ≤ mantissa)
    (habove : (mantissa : ℚ) < (floor + 1) * step) :
    Near mantissa exponent (floor * step) ∨ Near mantissa exponent ((floor + 1) * step) := by
  have hpower : ((twoTo 53 : ℕ) : ℚ) < 10 ^ 16 := by
    rw [cast_twoTo]
    norm_num
  have hmantissa : (mantissa : ℚ) < (twoTo 53 : ℕ) := Nat.cast_lt.mpr hnormal.below
  have hdouble : ((twoTo 53 : ℕ) : ℚ) = 2 * (twoTo 52 : ℕ) := by
    rw [cast_twoTo, cast_twoTo]
    norm_num
  have hone : step < 1 := by
    by_contra hnot
    linarith
  have hnext : ((floor : ℚ) + 1) * step = floor * step + step := by ring
  rw [hnext] at habove ⊢
  by_cases hedge : mantissa = twoTo 52 ∧ leastExponent < exponent
  · -- the grid is fine enough for the side on which doubles are dense
    have hhalf : step < 1 / 2 := by
      rw [hedge.1] at hfine
      by_contra hnot
      linarith
    right
    have hreach := reachBelow_pos mantissa exponent
    exact ⟨by linarith, by linarith, fun _ => ⟨by linarith, by linarith⟩⟩
  · -- else the nearer of the two is less than a half away
    have hreach : reachBelow mantissa exponent = 1 / 2 := if_neg hedge
    rcases le_total (2 * (mantissa - floor * step)) step with hnear | hfar
    · left
      exact ⟨by linarith, by linarith, fun _ => ⟨by linarith, by linarith⟩⟩
    · right
      exact ⟨by linarith, by linarith, fun _ => ⟨by linarith, by linarith⟩⟩

/-- A decimal is taken only if it lies in the interval. -/
theorem holds_of_nearestOn? {interval : RoundingInterval} {power : Int} {decimal : Decimal}
    (h : interval.nearestOn? power = some decimal) : interval.holds decimal = true := by
  unfold nearestOn? at h
  dsimp only at h
  split at h
  · cases h
  · rename_i hbelow _
    obtain rfl := Option.some.inj h
    exact hbelow
  · rename_i habove
    obtain rfl := Option.some.inj h
    exact habove
  · rename_i hbelow habove
    split at h
    · obtain rfl := Option.some.inj h
      exact hbelow
    · obtain rfl := Option.some.inj h
      exact habove

/-- A decimal is taken if one of the two around the value lies in the interval. -/
theorem exists_nearestOn? {interval : RoundingInterval} {power : Int} {floor : Nat}
    (hfloor : floor = interval.value * tenTo (-power).toNat /
      (interval.denominator * tenTo power.toNat))
    (h : interval.holds ⟨floor, power⟩ = true ∨ interval.holds ⟨floor + 1, power⟩ = true) :
    ∃ decimal, interval.nearestOn? power = some decimal := by
  unfold nearestOn?
  dsimp only
  rw [← hfloor]
  split
  · rename_i hbelow habove
    rw [hbelow, habove] at h
    exact absurd h (by decide)
  · exact ⟨_, rfl⟩
  · exact ⟨_, rfl⟩
  · split
    · exact ⟨_, rfl⟩
    · exact ⟨_, rfl⟩

/-- Where the grid is fine enough, a decimal is found. -/
theorem exists_nearestOn?_of_fine (hnormal : Normal mantissa exponent) {power : Int}
    (hfine : (10 : ℚ) ^ power * 10 ^ 16 ≤ mantissa * 2 ^ exponent) :
    ∃ decimal, (RoundingInterval.of mantissa exponent).nearestOn? power = some decimal := by
  obtain ⟨floor, hfloor⟩ : ∃ floor, floor = (RoundingInterval.of mantissa exponent).value *
    tenTo (-power).toNat / ((RoundingInterval.of mantissa exponent).denominator *
      tenTo power.toNat) := ⟨_, rfl⟩
  refine exists_nearestOn? hfloor ?_
  have hunit := two_zpow_pos exponent
  have hmantissa : ((4 * mantissa : ℕ) / 4 : ℚ) = mantissa := by
    push_cast
    ring
  have hscale : 0 < (RoundingInterval.of mantissa exponent).denominator * tenTo power.toNat :=
    Nat.mul_pos (twoTo_pos _) (tenTo_pos _)
  have hpoint : ∀ digits : Nat, digits * tenTo power.toNat * twoTo (2 - exponent).toNat =
      (RoundingInterval.of mantissa exponent).denominator * tenTo power.toNat * digits := by
    intro digits
    show _ = twoTo (2 - exponent).toNat * _ * _
    ring
  -- the two points that are tried are those around the double
  have hbelow : (floor : ℚ) * 10 ^ power / 2 ^ exponent ≤ mantissa := by
    rw [← hmantissa, ← point_le_iff, hpoint, hfloor]
    exact Nat.mul_div_le _ _
  have habove : (mantissa : ℚ) < (floor + 1 : ℕ) * 10 ^ power / 2 ^ exponent := by
    rw [← hmantissa, ← not_le, ← point_le_iff, hpoint, hfloor, not_le]
    exact Nat.lt_mul_div_succ _ hscale
  have hstep : (10 : ℚ) ^ power / 2 ^ exponent * 10 ^ 16 ≤ mantissa := by
    rw [div_mul_eq_mul_div, div_le_iff₀ hunit]
    exact hfine
  rw [mul_div_assoc] at hbelow habove
  rw [Nat.cast_add, Nat.cast_one] at habove
  rw [holds_iff hnormal, holds_iff hnormal, RoundsTo, RoundsTo, Decimal.value, Decimal.value,
    mul_div_assoc, mul_div_assoc, Nat.cast_add, Nat.cast_one]
  exact near_of_grid hnormal hstep hbelow habove

/-- The magnitude of a value is at most that of its first digit. -/
theorem ten_zpow_magnitude_le {interval : RoundingInterval} (hvalue : 0 < interval.value)
    (hdenominator : 0 < interval.denominator) :
    (10 : ℚ) ^ interval.magnitude ≤ interval.value / interval.denominator := by
  have hpos : (0 : ℚ) < interval.denominator := Nat.cast_pos.mpr hdenominator
  unfold magnitude
  split
  · rename_i hle
    exact (decimalLength_bounds (Nat.div_pos hle hdenominator)).1.trans Nat.cast_div_le
  · rename_i hless
    have hquotient : 0 < interval.denominator / interval.value := Nat.div_pos (by omega) hvalue
    have hto : interval.denominator / interval.value <
        10 ^ decimalLength (interval.denominator / interval.value) :=
      (Nat.length_toDigits_le_iff (by omega) Nat.length_toDigits_pos).mp (Nat.le_refl _)
    have hnat : interval.denominator ≤
        interval.value * 10 ^ decimalLength (interval.denominator / interval.value) :=
      (Nat.lt_mul_div_succ _ hvalue).le.trans (Nat.mul_le_mul_left _ hto)
    rw [zpow_neg, zpow_natCast, le_div_iff₀ hpos, inv_mul_le_iff₀ (by positivity), mul_comm]
    exact_mod_cast hnat

/-- The value of an interval is the double. -/
theorem value_div_denominator (mantissa : Nat) (exponent : Int) :
    ((RoundingInterval.of mantissa exponent).value : ℚ) /
      (RoundingInterval.of mantissa exponent).denominator = mantissa * 2 ^ exponent := by
  have hden : ((twoTo (2 - exponent).toNat : ℕ) : ℚ) ≠ 0 := Nat.cast_ne_zero.mpr (twoTo_pos _).ne'
  have hscaled := scaled_bound (4 * mantissa) exponent 0
  rw [show tenTo (-(0 : Int)).toNat = 1 from rfl, Nat.mul_one, Nat.cast_one, mul_one] at hscaled
  show ((4 * mantissa * twoTo (exponent - 2).toNat : ℕ) : ℚ) / (twoTo (2 - exponent).toNat : ℕ) = _
  rw [hscaled, mul_div_cancel_left₀ _ hden]
  push_cast
  ring

end RoundingInterval

/-! ## The shortest decimal -/

/-- Zeros at the end are dropped without a change of the value. -/
theorem value_dropZeros (count : Nat) (decimal : Decimal) :
    (dropZeros count decimal).value = decimal.value := by
  induction count generalizing decimal with
  | zero => rfl
  | succ count ih =>
    rw [dropZeros]
    split
    · rename_i hzero
      rw [ih, Decimal.value, Decimal.value]
      have hdigits : decimal.digits = 10 * (decimal.digits / 10) := by omega
      have hcast : (decimal.digits : ℚ) = 10 * (decimal.digits / 10 : ℕ) := by
        exact_mod_cast hdigits
      rw [hcast, zpow_add_one₀ (by norm_num)]
      ring
    · rfl

/-- On one of the grids that are tried, a decimal is found, and it lies in the interval. -/
theorem exists_findSome? {mantissa : Nat} {exponent : Int} (hnormal : Normal mantissa exponent) :
    ∃ decimal, ((List.range 17).map fun (n : Nat) =>
        (RoundingInterval.of mantissa exponent).magnitude - (n : Int)).findSome?
        (RoundingInterval.of mantissa exponent).nearestOn? = some decimal ∧
      (RoundingInterval.of mantissa exponent).holds decimal = true := by
  have hpos : 0 < (RoundingInterval.of mantissa exponent).value :=
    Nat.mul_pos (Nat.mul_pos (by omega) hnormal.pos) (twoTo_pos _)
  have hmagnitude := RoundingInterval.ten_zpow_magnitude_le hpos (twoTo_pos _)
  rw [RoundingInterval.value_div_denominator] at hmagnitude
  generalize (RoundingInterval.of mantissa exponent).magnitude = magnitude at hmagnitude ⊢
  have hfine : (10 : ℚ) ^ (magnitude - (16 : ℕ)) * 10 ^ 16 ≤ mantissa * 2 ^ exponent := by
    rw [← zpow_natCast, ← zpow_add₀ (by norm_num), Int.sub_add_cancel]
    exact hmagnitude
  -- if no grid before it does, the last one has a decimal
  obtain ⟨last, hlast⟩ := RoundingInterval.exists_nearestOn?_of_fine hnormal hfine
  have hsome : (((List.range 17).map fun (n : Nat) => magnitude - (n : Int)).findSome?
      (RoundingInterval.of mantissa exponent).nearestOn?).isSome := by
    refine List.findSome?_isSome_iff.mpr ⟨_, List.mem_map.mpr ⟨16, by decide, rfl⟩, ?_⟩
    rw [hlast, Option.isSome_some]
  obtain ⟨decimal, hdecimal⟩ := Option.isSome_iff_exists.mp hsome
  obtain ⟨power, -, hpower⟩ := List.exists_of_findSome?_eq_some hdecimal
  exact ⟨decimal, hdecimal, RoundingInterval.holds_of_nearestOn? hpower⟩

/-- The shortest decimal of a double rounds to it. -/
theorem roundsTo_shortest {mantissa : Nat} {exponent : Int} (hnormal : Normal mantissa exponent) :
    RoundsTo (shortest mantissa exponent).value mantissa exponent := by
  obtain ⟨decimal, hdecimal, hholds⟩ := exists_findSome? hnormal
  unfold shortest
  dsimp only
  rw [value_dropZeros, hdecimal, Option.getD_some]
  exact (RoundingInterval.holds_iff hnormal).mp hholds

end ApiClient.Binary64
