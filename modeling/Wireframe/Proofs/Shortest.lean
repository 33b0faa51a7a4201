import Mathlib.Algebra.Order.Field.Power
import Mathlib.Data.Rat.Cast.Order
import Mathlib.Tactic.FieldSimp
import Mathlib.Tactic.Positivity
import Mathlib.Tactic.Qify
import Wireframe.Number.Shortest
import Wireframe.Proofs.Rounding

/-!
# Shortest decimals read back

The decimal that stands for a double reads back as that double.  On the grid of seventeen
significant digits the multiple nearest to a double lies within half a step of it, which is closer
than doubles can tell apart; on a coarser grid a multiple is taken only if it reads back.
-/

namespace Wireframe
namespace Decimal

open Double

-- Both are powers of two that nothing may compute.
attribute [local irreducible] one limit

/-- The number that a decimal stands for. -/
def value (d : Decimal) : ℚ :=
  d.digits * 10 ^ d.exponent

/-- The number of units nearest to a decimal. -/
def units (d : Decimal) : Nat :=
  roundUnits (d.digits * Nat.pow 10 d.exponent.toNat * one) (Nat.pow 10 (-d.exponent).toNat)

private theorem pow_toNat_div (e : Int) :
    ((Nat.pow 10 e.toNat : Nat) : ℚ) / (Nat.pow 10 (-e).toNat : Nat) = 10 ^ e := by
  obtain ⟨n, rfl | rfl⟩ := e.eq_nat_or_neg
  · simp
  · simp

private theorem quotient_eq (d : Decimal) :
    ((d.digits * Nat.pow 10 d.exponent.toNat * one : Nat) : ℚ) /
      (Nat.pow 10 (-d.exponent).toNat : Nat) = d.value * one := by
  rw [value, ← pow_toNat_div]
  push_cast
  ring

theorem units_le_units {d d' : Decimal} (le : d.value ≤ d'.value) : d.units ≤ d'.units := by
  have positive (e : Int) : 0 < Nat.pow 10 (-e).toNat := Nat.pow_pos (by decide)
  refine roundUnits_mono (positive _) (positive _) ?_
  have scaled := mul_le_mul_of_nonneg_right le (Nat.cast_nonneg (α := ℚ) one)
  rw [← quotient_eq, ← quotient_eq, div_le_div_iff₀ (by exact_mod_cast positive _)
    (by exact_mod_cast positive _)] at scaled
  exact_mod_cast scaled

/-- A decimal that differs from a double by no more than one part in `2 · 10¹⁶` is rounded to it. -/
theorem units_eq_of_near {d : Decimal} {u : Nat} (positive : 0 < u) (exact : roundUnits u 1 = u)
    (near : 2 * 10 ^ 16 * |d.value * one - u| ≤ u) : d.units = u := by
  have below : (0 : ℚ) < (Nat.pow 10 (-d.exponent).toNat : Nat) := by
    exact_mod_cast Nat.pow_pos (by decide)
  have some : (0 : ℚ) < u := by exact_mod_cast positive
  have quotient := quotient_eq d
  rw [div_eq_iff (ne_of_gt below)] at quotient
  rw [units]
  generalize d.digits * Nat.pow 10 d.exponent.toNat * one = num at quotient ⊢
  obtain ⟨low, high⟩ := abs_le.mp (le_div_iff₀' (by norm_num) |>.mpr near)
  refine roundUnits_eq_of_near exact ?_ ?_
  · have above : 2 ^ 54 * (d.value * one) < (2 ^ 54 + 1) * (u : ℚ) := by linarith
    have scaled := mul_lt_mul_of_pos_right above below
    rw [mul_assoc, ← quotient, mul_assoc] at scaled
    exact_mod_cast scaled
  · have under : ((2 ^ 54 - 1 : Nat) : ℚ) * u < 2 ^ 54 * (d.value * one) := by
      norm_num
      linarith
    have scaled := mul_lt_mul_of_pos_right under below
    rw [mul_assoc, mul_assoc, ← quotient] at scaled
    exact_mod_cast scaled

theorem width_bounds {n : Nat} (positive : 0 < n) : 10 ^ (width n - 1) ≤ n ∧ n < 10 ^ width n := by
  have some : 0 < width n := Nat.length_toDigits_pos
  refine ⟨?_, (Nat.length_toDigits_le_iff (by decide) some).mp le_rfl⟩
  by_contra less
  rcases Nat.eq_zero_or_pos (width n - 1) with one | more
  · rw [one] at less
    omega
  · have := (Nat.length_toDigits_le_iff (by decide) more).mpr (Nat.lt_of_not_le less)
    unfold width at some more this
    omega

/-- The power of ten of the leading digit does not exceed a quotient, and the next one does. -/
theorem magnitude_bounds {num den : Nat} (positive : 0 < num) (positive' : 0 < den) :
    (10 : ℚ) ^ magnitude num den ≤ num / den ∧ (num : ℚ) / den < 10 ^ (magnitude num den + 1) := by
  have below : (0 : ℚ) < den := by exact_mod_cast positive'
  unfold magnitude
  split
  · rename_i large
    have some : 0 < num / den := Nat.div_pos large positive'
    obtain ⟨low, high⟩ := width_bounds some
    have digits : 0 < width (num / den) := Nat.length_toDigits_pos
    constructor
    · rw [le_div_iff₀ below]
      have whole := (Nat.le_div_iff_mul_le positive').mp low
      have power : (10 : ℚ) ^ ((width (num / den) : Int) - 1) =
          (10 ^ (width (num / den) - 1) : Nat) := by
        rw [← Nat.cast_pred digits, zpow_natCast]
        norm_num
      rw [power]
      exact_mod_cast whole
    · rw [div_lt_iff₀ below, sub_add_cancel, zpow_natCast]
      exact_mod_cast (Nat.div_lt_iff_lt_mul positive').mp high
  · rename_i small
    have some : 0 < (den - 1) / num := Nat.div_pos (by omega) positive
    obtain ⟨low, high⟩ := width_bounds some
    have digits : 0 < width ((den - 1) / num) := Nat.length_toDigits_pos
    have whole := (Nat.le_div_iff_mul_le positive).mp low
    have behind := (Nat.div_lt_iff_lt_mul positive).mp high
    generalize width ((den - 1) / num) = w at *
    constructor
    · rw [zpow_neg, zpow_natCast, inv_le_iff_one_le_mul₀ (by positivity), ← mul_div_right_comm,
        one_le_div below]
      have : den ≤ num * 10 ^ w := by rw [Nat.mul_comm]; omega
      exact_mod_cast this
    · have power : (10 : ℚ) ^ (-(w : Int) + 1) = 1 / 10 ^ (w - 1) := by
        rw [← zpow_natCast, Nat.cast_pred digits, one_div, ← zpow_neg]
        congr 1
        ring
      rw [power, div_lt_div_iff₀ below (by positivity), one_mul]
      have : num * 10 ^ (w - 1) < den := by rw [Nat.mul_comm]; omega
      exact_mod_cast this

private theorem roundUnits_eq_zero {num den : Nat} (small : 2 * num < den) :
    roundUnits num den = 0 := by
  have below : num < den := by omega
  simp [roundUnits, excess, roundQuotient, Nat.div_eq_of_lt below, Nat.mod_eq_of_lt below, small]

private theorem limit_le_units {d : Decimal} (some : 0 < d.digits) (large : 400 < d.exponent) :
    limit ≤ d.units := by
  obtain ⟨onePower, limitPower, -, size⟩ := one_limit_log2
  have exact : roundUnits limit 1 = limit := by
    rw [limitPower, ← Nat.one_mul (2 ^ _)]
    exact roundUnits_mul_pow (by decide) _
  have outward : (-d.exponent).toNat = 0 := by omega
  have reached : limit ≤ d.digits * 10 ^ d.exponent.toNat * one :=
    calc limit = 2 ^ limit.log2 := limitPower
      _ ≤ 2 ^ (3 * d.exponent.toNat + one.log2) := Nat.pow_le_pow_right (by decide) (by omega)
      _ = 8 ^ d.exponent.toNat * one := by rw [Nat.pow_add, Nat.pow_mul, ← onePower]
      _ ≤ d.digits * 10 ^ d.exponent.toNat * one := Nat.mul_le_mul_right one
          ((Nat.pow_le_pow_left (by decide) _).trans (Nat.le_mul_of_pos_left _ some))
  rw [← exact, units, outward]
  refine roundUnits_mono (by decide) (by decide) ?_
  simpa using reached

private theorem units_eq_zero {d : Decimal}
    (small : 3 * (-d.exponent).toNat > d.digits.log2 + 1200) : d.units = 0 := by
  have inward : d.exponent.toNat = 0 := by omega
  have few : one < 2 ^ (one.log2 + 1) := Nat.lt_log2_self
  have bits := one_limit_log2.2.2.1
  have digits : d.digits < 2 ^ (d.digits.log2 + 1) := Nat.lt_log2_self
  rw [units, inward]
  refine roundUnits_eq_zero ?_
  calc 2 * (d.digits * Nat.pow 10 0 * one)
      = 2 * (d.digits * one) := by simp
    _ < 2 * (2 ^ (d.digits.log2 + 1) * 2 ^ (one.log2 + 1)) := by
        have := Nat.mul_lt_mul'' digits few
        omega
    _ = 2 ^ (d.digits.log2 + 1 + (one.log2 + 1) + 1) := by ring
    _ ≤ 2 ^ (3 * (-d.exponent).toNat) := Nat.pow_le_pow_right (by decide) (by omega)
    _ = 8 ^ (-d.exponent).toNat := by rw [Nat.pow_mul]
    _ ≤ 10 ^ (-d.exponent).toNat := Nat.pow_le_pow_left (by decide) _

/-- A decimal is read as the double nearest to it: no exponent is cut off that has an influence. -/
theorem ofDecimal_eq (negative : Bool) (d : Decimal) :
    ofDecimal negative d.digits d.exponent =
      if d.units < limit then finite negative d.units else infinite negative := by
  unfold ofDecimal
  split
  · rename_i zero
    have none : d.units = 0 := by
      rw [units, zero]
      exact roundUnits_eq_zero (by simp)
    rw [none, if_pos limit_pos]
  · rename_i some
    split
    · rename_i large
      rw [if_neg (Nat.not_lt_of_le (limit_le_units (Nat.pos_of_ne_zero some) large))]
    · split
      · rename_i small
        rw [units_eq_zero small, if_pos limit_pos]
      · rfl

theorem readsBack_iff {d : Decimal} {u : Nat} (small : u < limit) :
    readsBack u d = true ↔ d.units = u := by
  rw [readsBack, ofDecimal_eq, beq_iff_eq]
  constructor
  · intro read
    split at read
    · exact (finite.inj read).2
    · simp at read
  · rintro rfl
    exact if_pos small

/-- The multiple of a power of ten that is nearest to some units. -/
def nearest (u : Nat) (e : Int) : Decimal :=
  ⟨roundQuotient (u * Nat.pow 10 (-e).toNat) (one * Nat.pow 10 e.toNat), e⟩

theorem nearest_cases (u : Nat) (e : Int) :
    nearest u e = ⟨(bracket u one e).lower, e⟩ ∨
      nearest u e = ⟨(bracket u one e).lower + 1, e⟩ := by
  have low := le_roundQuotient (u * Nat.pow 10 (-e).toNat) (one * Nat.pow 10 e.toNat)
  have high := roundQuotient_le (u * Nat.pow 10 (-e).toNat) (one * Nat.pow 10 e.toNat)
  simp only [nearest, bracket, Decimal.mk.injEq, and_true]
  omega

theorem nearest_near (u : Nat) (e : Int) :
    2 * |(nearest u e).value * one - u| ≤ 10 ^ e * one := by
  have positive : 0 < one * Nat.pow 10 e.toNat :=
    Nat.mul_pos Double.one_pos (Nat.pow_pos (by decide))
  obtain ⟨low, high⟩ := roundQuotient_near (u * Nat.pow 10 (-e).toNat) _ positive
  have below : (0 : ℚ) < (Nat.pow 10 (-e).toNat : Nat) := by exact_mod_cast Nat.pow_pos (by decide)
  have step : ((Nat.pow 10 e.toNat : Nat) : ℚ) = 10 ^ e * (Nat.pow 10 (-e).toNat : Nat) :=
    (div_eq_iff (ne_of_gt below)).mp (pow_toNat_div e)
  rw [nearest, value]
  generalize roundQuotient (u * Nat.pow 10 (-e).toNat) (one * Nat.pow 10 e.toNat) = r at low high ⊢
  generalize Nat.pow 10 (-e).toNat = p at low high below step
  qify at low high
  rw [step] at low high
  have close : |r * 10 ^ e * one - (u : ℚ)| ≤ 10 ^ e * one / 2 := by
    refine abs_sub_le_iff.mpr ⟨?_, ?_⟩
    · refine le_of_mul_le_mul_right ?_ below
      linarith
    · refine le_of_mul_le_mul_right ?_ below
      linarith
  linarith

theorem readsBack_of_onGrid? {u : Nat} {e : Int} {d : Decimal} (found : onGrid? u e = some d) :
    readsBack u d = true := by
  unfold onGrid? at found
  simp only at found
  split at found
  · simp at found
  · rename_i back _
    exact Option.some.inj found ▸ back
  · rename_i _ back
    exact Option.some.inj found ▸ back
  · rename_i back back'
    split at found
    · exact Option.some.inj found ▸ back
    · exact Option.some.inj found ▸ back'
    · split at found
      · exact Option.some.inj found ▸ back
      · exact Option.some.inj found ▸ back'

theorem isSome_onGrid? {u : Nat} {e : Int} (back : readsBack u (nearest u e) = true) :
    (onGrid? u e).isSome = true := by
  unfold onGrid?
  simp only
  split
  · rename_i not not'
    rcases nearest_cases u e with lower | upper
    · rw [lower, not] at back
      exact absurd back (by decide)
    · rw [upper, not'] at back
      exact absurd back (by decide)
  · rfl
  · rfl
  · split <;> rfl

/-- The shortest decimal of a double reads back as that double. -/
theorem units_shortest {u : Nat} (rounded : (finite false u).IsRounded) (positive : 0 < u) :
    (shortest u).units = u := by
  obtain ⟨exact, small⟩ := rounded
  have onePos : (0 : ℚ) < one := by exact_mod_cast Double.one_pos
  have step : (10 : ℚ) ^ 16 * (10 ^ (magnitude u one - 16) * one) ≤ u := by
    have split : (10 : ℚ) ^ magnitude u one = 10 ^ 16 * 10 ^ (magnitude u one - 16) := by
      rw [← zpow_natCast (10 : ℚ) 16, ← zpow_add₀ (by norm_num)]
      congr 1
      ring
    rw [← mul_assoc, ← split, ← le_div_iff₀ onePos]
    exact (magnitude_bounds positive Double.one_pos).1
  have near := nearest_near u (magnitude u one - 16)
  have fine : readsBack u (nearest u (magnitude u one - 16)) = true :=
    (readsBack_iff small).mpr (units_eq_of_near positive exact (by linarith))
  obtain ⟨d, found⟩ := Option.isSome_iff_exists.mp (isSome_onGrid? fine)
  have some : ((List.range 17).findSome? fun (extra : Nat) =>
      onGrid? u (magnitude u one - extra)).isSome = true := by
    rw [List.findSome?_isSome_iff]
    exact ⟨16, by simp, by simp [found]⟩
  obtain ⟨d', first⟩ := Option.isSome_iff_exists.mp some
  obtain ⟨extra, -, onGrid⟩ := List.exists_of_findSome?_eq_some first
  rw [shortest, first]
  exact (readsBack_iff small).mp (readsBack_of_onGrid? onGrid)

theorem digits_pos_of_units_pos {d : Decimal} (some : 0 < d.units) : 0 < d.digits := by
  refine Nat.pos_of_ne_zero fun zero => ?_
  rw [units, zero, roundUnits_eq_zero (by simp)] at some
  exact absurd some (by decide)

theorem leading_bounds {d : Decimal} (positive : 0 < d.digits) :
    (10 : ℚ) ^ d.significant.2 ≤ d.value ∧ d.value < 10 ^ (d.significant.2 + 1) := by
  obtain ⟨low, high⟩ := width_bounds positive
  have some : 0 < width d.digits := Nat.length_toDigits_pos
  have leading : d.significant.2 = d.exponent + (width d.digits - 1 : Nat) := by
    change d.exponent + (width d.digits : Int) - 1 = _
    omega
  have next : d.significant.2 + 1 = d.exponent + width d.digits := by omega
  rw [next, leading, zpow_add₀ (by norm_num), zpow_add₀ (by norm_num), zpow_natCast, zpow_natCast,
    value, mul_comm (d.digits : ℚ)]
  have power : (0 : ℚ) < 10 ^ d.exponent := by positivity
  constructor
  · exact mul_le_mul_of_nonneg_left (by exact_mod_cast low) power.le
  · exact mul_lt_mul_of_pos_left (by exact_mod_cast high) power

/-- The double nearest to a ten thousandth is a little larger, and is written as `0.0001`. -/
private theorem units_tenThousandth :
    one ≤ 10 ^ 4 * units ⟨1, -4⟩ ∧ shortest (units ⟨1, -4⟩) = ⟨1, -4⟩ := by
  decide +kernel

private theorem le_units_tenQuadrillion : 2 ^ 53 * one ≤ units ⟨1, 16⟩ := by
  have exact : roundUnits (2 ^ 53 * one) 1 = 2 ^ 53 * one := by
    rw [one_limit_log2.1]
    exact roundUnits_mul_pow le_rfl _
  rw [← exact]
  refine roundUnits_mono (by decide) (by decide) ?_
  exact Nat.mul_le_mul_right 1 (Nat.mul_le_mul_right one (by decide))

private theorem value_one (e : Int) : (Decimal.mk 1 e).value = 10 ^ e := by
  simp [value]

theorem leading_lt_iff {u : Nat} (rounded : (finite false u).IsRounded) (positive : 0 < u) :
    (shortest u).significant.2 < -4 ↔ 10 ^ 4 * u < one := by
  have same := units_shortest rounded positive
  have some : 0 < (shortest u).digits := digits_pos_of_units_pos (by omega)
  obtain ⟨low, high⟩ := leading_bounds some
  obtain ⟨above, written⟩ := units_tenThousandth
  constructor
  · intro small
    by_contra large
    have below : (shortest u).units ≤ units ⟨1, -4⟩ := by
      refine units_le_units ?_
      rw [value_one]
      exact high.le.trans (zpow_le_zpow_right₀ (by norm_num) (by omega))
    have reached : units ⟨1, -4⟩ ≤ roundUnits u 1 := by
      refine roundUnits_mono (by decide) (by decide) ?_
      change 1 * 1 * one * 1 ≤ u * 10 ^ 4
      omega
    obtain rfl : u = units ⟨1, -4⟩ := by
      rw [rounded.1] at reached
      omega
    rw [written] at small
    exact absurd small (by decide)
  · intro tiny
    by_contra large
    have reached : units ⟨1, -4⟩ ≤ (shortest u).units := by
      refine units_le_units ?_
      rw [value_one]
      exact (zpow_le_zpow_right₀ (by norm_num) (by omega)).trans low
    omega

/-- A double with a fractional part is smaller than ten to the sixteenth. -/
theorem leading_le {u : Nat} (rounded : (finite false u).IsRounded) (fraction : u % one ≠ 0) :
    (shortest u).significant.2 ≤ 15 := by
  have positive : 0 < u := by
    refine Nat.pos_of_ne_zero fun zero => fraction ?_
    rw [zero, Nat.zero_mod]
  have same := units_shortest rounded positive
  have some : 0 < (shortest u).digits := digits_pos_of_units_pos (by omega)
  obtain ⟨low, -⟩ := leading_bounds some
  by_contra large
  have reached : units ⟨1, 16⟩ ≤ (shortest u).units := by
    refine units_le_units ?_
    rw [value_one]
    exact (zpow_le_zpow_right₀ (by norm_num) (by omega)).trans low
  have huge : 2 ^ 53 * one ≤ u := same ▸ le_units_tenQuadrillion.trans reached
  obtain ⟨m, bits, multiple⟩ := exists_mul_of_exact rounded.1
  have step : 2 ^ 53 * one < 2 ^ 53 * 2 ^ excess u 1 :=
    calc 2 ^ 53 * one ≤ u := huge
      _ = m * 2 ^ excess u 1 := multiple
      _ < 2 ^ 53 * 2 ^ excess u 1 := Nat.mul_lt_mul_of_pos_right bits (Nat.two_pow_pos _)
  have divides : one ∣ 2 ^ excess u 1 := by
    rw [one_limit_log2.1] at step ⊢
    exact Nat.pow_dvd_pow 2 ((Nat.pow_lt_pow_iff_right (by decide)).mp
      (Nat.lt_of_mul_lt_mul_left step)).le
  refine fraction (Nat.mod_eq_zero_of_dvd ?_)
  rw [multiple]
  exact divides.mul_left m

end Decimal
end Wireframe
