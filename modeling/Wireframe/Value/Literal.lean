import Wireframe.Number.Basic
import Wireframe.Number.Numeral
import Wireframe.Text.Display

/-!
# Literals and scalars

A literal is a value as written: a bare symbol, a quoted text or a number.  A scalar is what it
means.  Conversions come in a lenient form, which has no answer where none applies, and a strict
form, which fails with a cause.

Boolean words are not the same for both shapes: a symbol must be one of `true t false nil` as
spelled, a quoted text one of `true 1 false 0` in letters of any case.
-/

namespace Wireframe

/-- A truth value, a number or a text. -/
inductive Scalar where
  /-- A truth value. -/
  | flag (value : Bool)
  /-- A number. -/
  | number (value : Number)
  /-- A text. -/
  | text (value : String)
  deriving DecidableEq, Repr

/-- A value as written in a source. -/
inductive Literal where
  /-- A bare word. -/
  | symbol (text : String)
  /-- A text between quotes, without its escapes. -/
  | quoted (text : String)
  /-- A number. -/
  | number (value : Number)
  deriving DecidableEq, Repr

/-- What a strict conversion asks for. -/
inductive Wanted where
  | boolean
  | integer
  | number
  deriving DecidableEq, Repr

/-- Why a value cannot be converted. -/
inductive ValueFault where
  /-- The literal does not denote what was asked for. -/
  | mismatch (literal : Literal) (wanted : Wanted)
  /-- The text does not denote a number. -/
  | unreadable (text : String)
  /-- The whole number has more digits than are read. -/
  | tooManyDigits (count : Nat)
  /-- The whole number is larger than every double. -/
  | tooLarge
  deriving DecidableEq, Repr

namespace ValueFault

/-- A literal as it is named in messages. -/
def shown : Literal → String
  | .symbol text => s!"Symbol '{text}'"
  | .quoted text => s!"String '{text}'"
  | .number value => s!"Number {value.format}"

/-- What a conversion asks for as it is named in messages. -/
def asked : Literal → Wanted → String
  | .symbol _, .boolean => "a boolean literal"
  | _, .boolean => "a boolean"
  | _, .integer => "an integer"
  | _, .number => "a number"

/-- The message for a failed conversion. -/
def message : ValueFault → String
  | mismatch literal wanted => s!"{shown literal} is not {asked literal wanted}"
  | unreadable text => s!"could not convert string to float: {Text.display text}"
  | tooManyDigits count =>
    s!"Exceeds the limit ({Numeral.digitLimit} digits) for integer string conversion: " ++
      s!"value has {count} digits; use sys.set_int_max_str_digits() to increase the limit"
  | tooLarge => "int too large to convert to float"

end ValueFault

namespace Number

/-- The normalized number that the text of a number token denotes. -/
def ofText (text : String) : Except ValueFault Number :=
  match Numeral.toDouble? text with
  | some d => .ok (Number.double d).normalize
  | none => .error (.unreadable text)

/-- The whole number that leads a text after its blanks, if one does. -/
def leadingInteger (text : String) : Except ValueFault (Option Int) :=
  match Numeral.leadingDigits? text with
  | none => .ok none
  | some (negative, digits) =>
    if digits.length ≤ Numeral.digitLimit then .ok (some (Numeral.signed negative digits))
    else .error (.tooManyDigits digits.length)

/-- A number as a double. -/
def toDouble (n : Number) : Except ValueFault Double :=
  match n.toDouble? with
  | some d => .ok d
  | none => .error .tooLarge

/-- Whether a number is whole, which takes it to be a double. -/
def isInteger (n : Number) : Except ValueFault Bool :=
  n.toDouble.map Double.isInteger

/-- The whole part of a finite number. -/
def truncate : Number → Except ValueFault (Option Int)
  | integer n => (integer n).toDouble.map fun _ => some n
  | double d => .ok d.truncate?

end Number

namespace Literal

/-- The truth value that a literal denotes, if it denotes one. -/
def toBool? : Literal → Option Bool
  | symbol text =>
    if text = "true" ∨ text = "t" then some true
    else if text = "false" ∨ text = "nil" then some false
    else none
  | quoted text =>
    let word := Text.lowercase text
    if word = "true" ∨ word = "1" then some true
    else if word = "false" ∨ word = "0" then some false
    else none
  | number value => some !value.isZero

/-- The truth value that a literal must denote. -/
def toBool (l : Literal) : Except ValueFault Bool :=
  match l.toBool? with
  | some value => .ok value
  | none => .error (.mismatch l .boolean)

/-- The whole number that leads a text, or the whole part of a number. -/
def toInt? : Literal → Except ValueFault (Option Int)
  | symbol text => Number.leadingInteger text
  | quoted text => Number.leadingInteger text
  | number value => value.truncate

/-- The whole number that a literal must denote. -/
def toInt (l : Literal) : Except ValueFault Int := do
  match ← l.toInt? with
  | some value => .ok value
  | none => .error (.mismatch l .integer)

/-- The double that leads a text, or that a number is. -/
def toDouble? : Literal → Except ValueFault (Option Double)
  | symbol text => .ok (Numeral.leadingDouble? text)
  | quoted text => .ok (Numeral.leadingDouble? text)
  | number value => value.toDouble.map some

/-- The double that a literal must denote. -/
def toDouble (l : Literal) : Except ValueFault Double := do
  match ← l.toDouble? with
  | some value => .ok value
  | none => .error (.mismatch l .number)

/-- A literal as a text. -/
def toText : Literal → String
  | symbol text => text
  | quoted text => text
  | number value => value.format

/-- The value of a literal where no type is declared: a symbol may be a truth value. -/
def natural : Literal → Scalar
  | symbol text =>
    match (symbol text).toBool? with
    | some value => .flag value
    | none => .text text
  | quoted text => .text text
  | number value => .number value

end Literal
end Wireframe
