import Wireframe.Number.Double
import Wireframe.Text.Blank
import Wireframe.Text.Digit
import Wireframe.Text.Letter

/-!
# Numerals

A numeral is a sign, digits with at most one point, and a power of ten.  It is read from the front
of a text, longest reading first: a point needs no digit after it when one stands before it, and an
exponent mark without digits is left unread.  A text is a whole number or a whole decimal only if
nothing but padding surrounds the numeral; its digits may then be grouped by single underscores.
-/

namespace Wireframe

/-- A decimal numeral as written. -/
structure Numeral where
  /-- Whether a minus sign leads. -/
  negative : Bool
  /-- The digits before the point. -/
  whole : List Char
  /-- The digits after the point. -/
  decimals : List Char
  /-- The power of ten behind the exponent mark. -/
  power : Int
  deriving DecidableEq, Repr

namespace Numeral

open Text

/-- Read an optional sign: whether it is a minus, and what follows. -/
def readSign : List Char → Bool × List Char
  | '-' :: rest => (true, rest)
  | '+' :: rest => (false, rest)
  | rest => (false, rest)

/-- Read digits with an optional point, at least one digit in all. -/
def readDigits? (cs : List Char) : Option (List Char × List Char × List Char) :=
  let whole := cs.takeWhile isDigit
  match cs.dropWhile isDigit with
  | '.' :: rest =>
    let decimals := rest.takeWhile isDigit
    if whole.isEmpty && decimals.isEmpty then none
    else some (whole, decimals, rest.dropWhile isDigit)
  | rest => if whole.isEmpty then none else some (whole, [], rest)

/-- The whole number of a sign and digits. -/
def signed (negative : Bool) (digits : List Char) : Int :=
  if negative then -(digitsValue digits : Int) else digitsValue digits

/-- Read an optional exponent, which needs at least one digit. -/
def readPower : List Char → Int × List Char
  | c :: rest =>
    let (negative, tail) := readSign rest
    let digits := tail.takeWhile isDigit
    if (c = 'e' ∨ c = 'E') ∧ digits ≠ [] then (signed negative digits, tail.dropWhile isDigit)
    else (0, c :: rest)
  | [] => (0, [])

/-- Read a numeral from the front of a text. -/
def read? (cs : List Char) : Option (Numeral × List Char) :=
  let (negative, unsigned) := readSign cs
  (readDigits? unsigned).map fun (whole, decimals, rest) =>
    let (power, rest) := readPower rest
    (⟨negative, whole, decimals, power⟩, rest)

/-- The double nearest to a numeral. -/
def toDouble (n : Numeral) : Double :=
  Double.ofDecimal n.negative (digitsValue (n.whole ++ n.decimals)) (n.power - n.decimals.length)

/-- Read a word for an infinite number, without its sign. -/
def readInfinity? (cs : List Char) : Option Double :=
  let (negative, unsigned) := readSign cs
  if "Infinity".toList.isPrefixOf unsigned then some (.infinite negative) else none

/-- The double that leads a text after its blanks, whatever follows it. -/
def leadingDouble? (text : String) : Option Double :=
  let cs := text.toList.dropWhile isBlank
  match read? cs with
  | some (numeral, _) => some numeral.toDouble
  | none => readInfinity? cs

/-- The sign and the digits of the whole number that leads a text after its blanks. -/
def leadingDigits? (text : String) : Option (Bool × List Char) :=
  let (negative, unsigned) := readSign (text.toList.dropWhile isBlank)
  let digits := unsigned.takeWhile isDigit
  if digits.isEmpty then none else some (negative, digits)

/-- Remove the underscores of a text, each of which must stand between two digits. -/
def ungroup? (afterDigit : Bool) : List Char → Option (List Char)
  | [] => some []
  | '_' :: c :: rest =>
    if afterDigit && isDigit c then (ungroup? true rest).map (c :: ·) else none
  | c :: rest => if c = '_' then none else (ungroup? (isDigit c) rest).map (c :: ·)

/-- The double that a word such as `inf` or `nan` denotes, in letters of any case. -/
def ofWord? (cs : List Char) : Option Double :=
  let (negative, word) := readSign cs
  let word := word.map lower
  if word = "inf".toList ∨ word = "infinity".toList then some (.infinite negative)
  else if word = "nan".toList then some .nan
  else none

/-- The double that a whole text denotes. -/
def toDouble? (text : String) : Option Double := do
  let cs ← ungroup? false (trim isPadding text.toList)
  match read? cs with
  | some (numeral, []) => some numeral.toDouble
  | _ => ofWord? cs

/-- The sign and the digits of the whole number that a whole text denotes. -/
def toDigits? (text : String) : Option (Bool × List Char) := do
  let (negative, unsigned) := readSign (trim isPadding text.toList)
  let digits ← ungroup? false unsigned
  if !digits.isEmpty && digits.all isDigit then some (negative, digits) else none

/-- The most digits that are read as a whole number. -/
def digitLimit : Nat := 4300

end Numeral
end Wireframe
