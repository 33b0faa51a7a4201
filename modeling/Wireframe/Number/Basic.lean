import Wireframe.Number.Shortest

/-!
# Numbers

A number is a whole number of any size or a double.  Numbers that come from a source are
normalized: a double without a fractional part becomes a whole number.
-/

namespace Wireframe

/-- A whole number or a double. -/
inductive Number where
  /-- A whole number of any size. -/
  | integer (n : Int)
  /-- A double. -/
  | double (d : Double)
  deriving DecidableEq, Repr

namespace Number

/-- Make a whole double a whole number. -/
def normalize : Number → Number
  | integer n => integer n
  | double d =>
    match d.toInt? with
    | some n => integer n
    | none => double d

theorem normalize_normalize (n : Number) : n.normalize.normalize = n.normalize := by
  cases n with
  | integer n => rfl
  | double d =>
    simp only [normalize]
    cases whole : d.toInt? with
    | none => simp [whole]
    | some n => rfl

/-- A normalized double is not whole. -/
theorem toInt?_of_normalize_eq_double {n : Number} {d : Double}
    (kept : n.normalize = double d) : d.toInt? = none := by
  cases n with
  | integer n => simp [normalize] at kept
  | double e =>
    simp only [normalize] at kept
    cases whole : e.toInt? with
    | none =>
      simp only [whole, double.injEq] at kept
      exact kept ▸ whole
    | some n => simp [whole] at kept

/-- A number as it is written in a source. -/
def format : Number → String
  | integer n => toString n
  | double .nan => "NaN"
  | double (.infinite negative) => if negative then "-Infinity" else "Infinity"
  | double (.finite negative units) =>
    match (Double.finite negative units).toInt? with
    | some n => toString n
    | none => (Double.finite negative units).render

/-- Whether a number is a zero. -/
def isZero : Number → Bool
  | integer n => n == 0
  | double d => d.isZero

/-- The double nearest to a number, unless a whole number is too large for one. -/
def toDouble? : Number → Option Double
  | double d => some d
  | integer n =>
    let d := Double.ofInt n
    if d.isFinite then some d else none

end Number
end Wireframe
