/-!
# Double-precision numbers

A finite double is a whole number of smallest units, `2⁻¹⁰⁷⁴` each, with a sign of its own so that
zero has two signs.  Reading a quotient as a double keeps 53 significant bits and rounds to nearest,
ties going to the even neighbour; what would need more than 1024 bits before the point is infinite.
-/

namespace Wireframe

/-- A double-precision number. -/
inductive Double where
  /-- Not a number. -/
  | nan
  /-- An infinity of either sign. -/
  | infinite (negative : Bool)
  /-- A signed whole number of smallest units. -/
  | finite (negative : Bool) (units : Nat)
  deriving DecidableEq, Repr

namespace Double

/-- The number of smallest units in one. -/
def one : Nat := Nat.pow 2 1074

/-- The number of units that no finite double reaches. -/
def limit : Nat := Nat.pow 2 2098

/-- The whole number nearest to a quotient, ties going to the even one. -/
def roundQuotient (num den : Nat) : Nat :=
  let quotient := num / den
  let twice := 2 * (num % den)
  if twice < den ∨ (twice = den ∧ quotient % 2 = 0) then quotient else quotient + 1

/-- The nearest whole number lies within half a step of the quotient. -/
theorem roundQuotient_near (num den : Nat) (positive : 0 < den) :
    2 * num ≤ 2 * (roundQuotient num den * den) + den ∧
      2 * (roundQuotient num den * den) ≤ 2 * num + den := by
  have parts := Nat.div_add_mod num den
  have small := Nat.mod_lt num positive
  rw [Nat.mul_comm] at parts
  unfold roundQuotient
  simp only
  split
  · omega
  · rw [Nat.add_mul]
    omega

/-- A quotient in the middle of two whole numbers goes to the even one. -/
theorem roundQuotient_tie (num den : Nat) (tie : 2 * (num % den) = den) :
    roundQuotient num den % 2 = 0 := by
  unfold roundQuotient
  simp only [tie, Nat.lt_irrefl, false_or, true_and]
  split <;> omega

theorem roundQuotient_mul (n den : Nat) (positive : 0 < den) : roundQuotient (n * den) den = n := by
  simp [roundQuotient, Nat.mul_div_cancel n positive, positive]

/-- The number of low bits that `num / den` units lose to keep 53 significant bits. -/
def excess (num den : Nat) : Nat :=
  (num / den).log2 - 52

/-- The number of units nearest to `num / den` units that has 53 significant bits. -/
def roundUnits (num den : Nat) : Nat :=
  let low := Nat.pow 2 (excess num den)
  roundQuotient num (den * low) * low

/-- The double nearest to `num / den` units. -/
def ofUnits (negative : Bool) (num den : Nat) : Double :=
  let units := roundUnits num den
  if units < limit then finite negative units else infinite negative

/-- The double nearest to `digits · 10 ^ exponent`. -/
def ofDecimal (negative : Bool) (digits : Nat) (exponent : Int) : Double :=
  if digits = 0 then finite negative 0
  else if 400 < exponent then infinite negative
  else if 3 * (-exponent).toNat > digits.log2 + 1200 then finite negative 0
  else ofUnits negative (digits * Nat.pow 10 exponent.toNat * one) (Nat.pow 10 (-exponent).toNat)

/-- The double nearest to a whole number. -/
def ofInt (n : Int) : Double :=
  ofUnits (n < 0) (n.natAbs * one) 1

/-- Whether a double is neither infinite nor nan. -/
def isFinite : Double → Bool
  | finite _ _ => true
  | _ => false

/-- Whether a double is a zero of either sign. -/
def isZero : Double → Bool
  | finite _ units => units == 0
  | _ => false

/-- The whole number that a double is, if it is one. -/
def toInt? : Double → Option Int
  | finite negative units =>
    if units % one = 0 then
      some (if negative then -(units / one : Nat) else (units / one : Nat))
    else none
  | _ => none

/-- The whole part of a finite double, rounding toward zero. -/
def truncate? : Double → Option Int
  | finite negative units =>
    some (if negative then -(units / one : Nat) else (units / one : Nat))
  | _ => none

/-- Whether a double is a whole number. -/
def isInteger (d : Double) : Bool :=
  d.toInt?.isSome

/-- A whole number of at most 53 bits is a number of units as it stands. -/
theorem roundUnits_of_small (n : Nat) (small : n < Nat.pow 2 53) : roundUnits n 1 = n := by
  have none : excess n 1 = 0 := by
    by_cases zero : n = 0
    · simp [excess, zero]
    · have := (Nat.log2_lt zero).2 small
      simp only [excess, Nat.div_one]
      omega
  simp [roundUnits, none, roundQuotient, Nat.mod_one]

end Double
end Wireframe
