import Wireframe.Number.Double

/-!
# Shortest decimals

The decimal that stands for a double has the fewest significant digits that read back as the same
double; of two such decimals it is the nearer one, and of two equally near the even one.  The two
neighbours of the value on each decimal grid are tried, coarsest grid first.
-/

namespace Wireframe

/-- A decimal number `digits · 10 ^ exponent`. -/
structure Decimal where
  /-- The significant digits as a whole number. -/
  digits : Nat
  /-- The power of ten that the last digit counts. -/
  exponent : Int
  deriving DecidableEq, Repr

namespace Decimal

/-- The number of decimal digits of a whole number. -/
def width (n : Nat) : Nat :=
  (Nat.toDigits 10 n).length

/-- The power of ten of the leading digit of a positive quotient. -/
def magnitude (num den : Nat) : Int :=
  if den ≤ num then (width (num / den) : Int) - 1
  else -(width ((den - 1) / num) : Int)

/-- The quotient as a multiple of a power of ten: the multiples just below and just above it, and
twice the distance to the lower one compared with the whole step. -/
structure Bracket where
  /-- The largest multiple that does not exceed the quotient. -/
  lower : Nat
  /-- How the quotient lies to the middle of its step. -/
  side : Ordering

/-- Bracket `num / den` between neighbouring multiples of `10 ^ exponent`. -/
def bracket (num den : Nat) (exponent : Int) : Bracket :=
  let top := num * Nat.pow 10 (-exponent).toNat
  let bottom := den * Nat.pow 10 exponent.toNat
  ⟨top / bottom, compare (2 * (top % bottom)) bottom⟩

/-- Whether a decimal reads back as a finite double of so many units. -/
def readsBack (units : Nat) (d : Decimal) : Bool :=
  Double.ofDecimal false d.digits d.exponent == .finite false units

/-- The multiple of `10 ^ exponent` that reads back as so many units, if a neighbour does. -/
def onGrid? (units : Nat) (exponent : Int) : Option Decimal :=
  let b := bracket units Double.one exponent
  let below : Decimal := ⟨b.lower, exponent⟩
  let above : Decimal := ⟨b.lower + 1, exponent⟩
  match readsBack units below, readsBack units above with
  | false, false => none
  | true, false => some below
  | false, true => some above
  | true, true =>
    match b.side with
    | .lt => some below
    | .gt => some above
    | .eq => some (if b.lower % 2 = 0 then below else above)

/-- The shortest decimal of a positive number of units; seventeen digits always suffice. -/
def shortest (units : Nat) : Decimal :=
  let leading := magnitude units Double.one
  ((List.range 17).findSome? fun (extra : Nat) => onGrid? units (leading - extra)).getD
    ⟨(bracket units Double.one (leading - 16)).lower, leading - 16⟩

/-- The significant digits without the zeros at their end, and the power of ten of the first. -/
def significant (d : Decimal) : List Char × Int :=
  let digits := Nat.toDigits 10 d.digits
  ((digits.reverse.dropWhile (· == '0')).reverse, d.exponent + digits.length - 1)

end Decimal

namespace Double

/-- The powers of ten of the leading digit that are written without an exponent. -/
def isPositional (leading : Int) : Bool :=
  -4 ≤ leading && leading ≤ 15

/-- The digits of a whole number, at least two of them. -/
def twoDigits (n : Nat) : List Char :=
  if n < 10 then '0' :: Nat.toDigits 10 n else Nat.toDigits 10 n

/-- Write digits with the point after the first `leading + 1` of them, filling up with zeros and
keeping at least one decimal. -/
def positional (digits : List Char) (leading : Int) : List Char :=
  if leading < 0 then
    '0' :: '.' :: List.replicate (-leading - 1).toNat '0' ++ digits
  else
    let whole := (leading + 1).toNat
    let decimals := digits.drop whole
    digits.take whole ++ List.replicate (whole - digits.length) '0' ++
      '.' :: (if decimals.isEmpty then ['0'] else decimals)

/-- Write digits with the point after the first and the power of ten behind them. -/
def scientific (digits : List Char) (leading : Int) : List Char :=
  let decimals := digits.drop 1
  digits.take 1 ++ (if decimals.isEmpty then [] else '.' :: decimals) ++
    'e' :: (if leading < 0 then '-' else '+') :: twoDigits leading.natAbs

/-- The shortest decimal of a double, in positional form for moderate sizes. -/
def render : Double → String
  | nan => "nan"
  | infinite negative => if negative then "-inf" else "inf"
  | finite negative units =>
    let digits :=
      if units = 0 then ['0', '.', '0']
      else
        let (digits, leading) := (Decimal.shortest units).significant
        if isPositional leading then positional digits leading else scientific digits leading
    String.ofList (if negative then '-' :: digits else digits)

end Double
end Wireframe
