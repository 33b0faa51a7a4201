import Mathlib.Tactic.Linarith
import Mathlib.Tactic.Ring
import Wireframe.Proofs.Numerals

/-!
# Rounding

What a quotient is rounded to depends on its value alone, and larger quotients are rounded to
numbers at least as large.  A quotient that differs from a number of 53 significant bits by less
than one part in `2⁵⁴` is rounded to it.
-/

namespace Wireframe
namespace Double

theorem roundQuotient_mul_left (k num den : Nat) (positive : 0 < k) :
    roundQuotient (k * num) (k * den) = roundQuotient num den := by
  have twice : 2 * (k * (num % den)) = k * (2 * (num % den)) := by ring
  simp only [roundQuotient, Nat.mul_div_mul_left num den positive, Nat.mul_mod_mul_left, twice,
    Nat.mul_lt_mul_left positive, Nat.mul_right_inj (Nat.ne_of_gt positive)]

theorem le_roundQuotient (num den : Nat) : num / den ≤ roundQuotient num den := by
  unfold roundQuotient
  simp only
  split <;> omega

theorem roundQuotient_le_of_le {num num' : Nat} (le : num ≤ num') (den : Nat) :
    roundQuotient num den ≤ roundQuotient num' den := by
  have quotients := Nat.div_le_div_right (c := den) le
  have upper := roundQuotient_le num den
  have lower := le_roundQuotient num' den
  rcases Nat.lt_or_eq_of_le quotients with less | same
  · omega
  · -- In the same step the rest decides, and with the same rest the parity of the step.
    have split := Nat.div_add_mod num den
    have split' := Nat.div_add_mod num' den
    rw [← same] at split'
    unfold roundQuotient
    simp only [← same]
    split
    · split <;> omega
    · rw [if_neg (by omega)]

theorem roundQuotient_eq_of_near {num den n : Nat} (above : 2 * num < 2 * (n * den) + den)
    (below : 2 * (n * den) < 2 * num + den) : roundQuotient num den = n := by
  have positive : 0 < den := by omega
  obtain ⟨low, high⟩ := roundQuotient_near num den positive
  generalize roundQuotient num den = m at low high
  rcases Nat.lt_trichotomy m n with less | same | more
  · have : (m + 1) * den ≤ n * den := Nat.mul_le_mul_right den less
    rw [Nat.add_mul] at this
    omega
  · exact same
  · have : (n + 1) * den ≤ m * den := Nat.mul_le_mul_right den more
    rw [Nat.add_mul] at this
    omega

theorem excess_le_of_le {num num' : Nat} (le : num ≤ num') (den : Nat) :
    excess num den ≤ excess num' den := by
  refine Nat.sub_le_sub_right ?_ 52
  by_cases zero : num / den = 0
  · rw [zero]
    exact Nat.zero_le _
  · have quotients := Nat.div_le_div_right (c := den) le
    have nonzero := Nat.ne_of_gt (Nat.lt_of_lt_of_le (Nat.pos_of_ne_zero zero) quotients)
    exact (Nat.le_log2 nonzero).mpr ((Nat.log2_self_le zero).trans quotients)

theorem excess_mul_left (k num den : Nat) (positive : 0 < k) :
    excess (k * num) (k * den) = excess num den := by
  rw [excess, excess, Nat.mul_div_mul_left num den positive]

theorem roundUnits_mul_left (k num den : Nat) (positive : 0 < k) :
    roundUnits (k * num) (k * den) = roundUnits num den := by
  simp only [roundUnits, excess_mul_left k num den positive, Nat.mul_assoc,
    roundQuotient_mul_left k num _ positive]

private theorem two_pow_le_roundQuotient {num den : Nat} (loses : 0 < excess num den) :
    2 ^ 52 ≤ roundQuotient num (den * Nat.pow 2 (excess num den)) := by
  refine le_trans ?_ (le_roundQuotient num _)
  rw [← Nat.div_div_eq_div_mul]
  refine (Nat.le_div_iff_mul_le (Nat.two_pow_pos _)).mpr ?_
  have nonzero : num / den ≠ 0 := by
    intro zero
    simp [excess, zero] at loses
  rw [← Nat.pow_add]
  refine le_trans (Nat.pow_le_pow_right (by decide) ?_) (Nat.log2_self_le nonzero)
  unfold excess at loses ⊢
  omega

theorem roundUnits_le_of_le {num num' : Nat} (le : num ≤ num') (den : Nat) :
    roundUnits num den ≤ roundUnits num' den := by
  rcases Nat.lt_or_eq_of_le (excess_le_of_le le den) with less | same
  · calc roundUnits num den
        ≤ 2 ^ 53 * 2 ^ excess num den :=
          Nat.mul_le_mul_right _ (roundQuotient_excess_le num den)
      _ = 2 ^ 52 * 2 ^ (excess num den + 1) := by rw [Nat.pow_succ 2 (excess num den)]; ring
      _ ≤ 2 ^ 52 * 2 ^ excess num' den :=
          Nat.mul_le_mul_left _ (Nat.pow_le_pow_right (by decide) less)
      _ ≤ roundUnits num' den :=
          Nat.mul_le_mul_right _ (two_pow_le_roundQuotient (by omega))
  · simp only [roundUnits, ← same]
    exact Nat.mul_le_mul_right _ (roundQuotient_le_of_le le _)

theorem roundUnits_mono {num num' den den' : Nat} (positive : 0 < den) (positive' : 0 < den')
    (le : num * den' ≤ num' * den) : roundUnits num den ≤ roundUnits num' den' := by
  rw [← roundUnits_mul_left den' num den positive',
    ← roundUnits_mul_left den num' den' positive, Nat.mul_comm den' den]
  refine roundUnits_le_of_le ?_ (den * den')
  rwa [Nat.mul_comm den' num, Nat.mul_comm den num']

/-- A number that rounding leaves as it is has 53 bits in front of those that are lost. -/
theorem exists_mul_of_exact {u : Nat} (exact : roundUnits u 1 = u) :
    ∃ m < 2 ^ 53, u = m * 2 ^ excess u 1 := by
  refine ⟨roundQuotient u (1 * Nat.pow 2 (excess u 1)), ?_, exact.symm⟩
  have bound := div_lt_two_pow u 1
  rw [Nat.div_one, Nat.pow_add] at bound
  exact Nat.lt_of_mul_lt_mul_right (a := 2 ^ excess u 1) (lt_of_eq_of_lt exact bound)

theorem excess_le_of_lt {num den n : Nat} (small : num < 2 ^ (53 + n) * den) :
    excess num den ≤ n := by
  by_cases zero : num / den = 0
  · simp [excess, zero]
  · have := (Nat.log2_lt zero).mpr (Nat.div_lt_of_lt_mul (by rwa [Nat.mul_comm] at small))
    unfold excess
    omega

/-- A quotient that exceeds a number of 53 significant bits by little loses no more bits. -/
private theorem excess_le_of_near {u num den : Nat} (exact : roundUnits u 1 = u)
    (above : 2 ^ 54 * num < (2 ^ 54 + 1) * (u * den)) : excess num den ≤ excess u 1 := by
  obtain ⟨m, small, value⟩ := exists_mul_of_exact exact
  refine excess_le_of_lt ?_
  have steps : u * den ≤ (2 ^ 53 - 1) * (2 ^ excess u 1 * den) := by
    rw [← Nat.mul_assoc]
    exact Nat.mul_le_mul_right den (value.trans_le (Nat.mul_le_mul_right _ (by omega)))
  rw [Nat.pow_add, Nat.mul_assoc]
  omega

/-- A number of at most 53 significant bits that is less than half a step away is the nearest
multiple of the step. -/
private theorem roundQuotient_eq_of_bits {num n step : Nat} (bits : num < 2 ^ 53 * step)
    (above : 2 ^ 54 * num < (2 ^ 54 + 1) * (n * step))
    (below : (2 ^ 54 - 1) * (n * step) < 2 ^ 54 * num) : roundQuotient num step = n := by
  have few : n ≤ 2 ^ 53 := by
    by_contra more
    have : (2 ^ 53 + 1) * step ≤ n * step := Nat.mul_le_mul_right step (by omega)
    omega
  have reach : n * step ≤ 2 ^ 53 * step := Nat.mul_le_mul_right step few
  exact roundQuotient_eq_of_near (by omega) (by omega)

/-- A quotient close enough to a number of 53 significant bits is rounded to it. -/
theorem roundUnits_eq_of_near {u num den : Nat} (exact : roundUnits u 1 = u)
    (above : 2 ^ 54 * num < (2 ^ 54 + 1) * (u * den))
    (below : (2 ^ 54 - 1) * (u * den) < 2 ^ 54 * num) : roundUnits num den = u := by
  have positive : 0 < den := by
    refine Nat.pos_of_ne_zero fun zero => ?_
    simp [zero] at above
  -- The quotient loses no more bits than the number, so that the number is a multiple of its step.
  obtain ⟨n, multiple⟩ : ∃ n, u = n * 2 ^ excess num den := by
    obtain ⟨m, -, value⟩ := exists_mul_of_exact exact
    refine ⟨m * 2 ^ (excess u 1 - excess num den), ?_⟩
    rw [Nat.mul_assoc, ← Nat.pow_add, Nat.sub_add_cancel (excess_le_of_near exact above)]
    exact value
  have bits : num < 2 ^ 53 * (den * 2 ^ excess num den) := by
    have bound := (Nat.div_lt_iff_lt_mul positive).mp (div_lt_two_pow num den)
    rwa [Nat.pow_add, Nat.mul_assoc, Nat.mul_comm (2 ^ excess num den)] at bound
  have product : u * den = n * (den * 2 ^ excess num den) := by
    rw [Nat.mul_comm den, ← Nat.mul_assoc, ← multiple]
  rw [product] at above below
  have near : roundQuotient num (den * Nat.pow 2 (excess num den)) = n :=
    roundQuotient_eq_of_bits bits above below
  rw [roundUnits]
  simp only [near]
  exact multiple.symm

end Double
end Wireframe
