import Wireframe.Table
import Wireframe.Value.Literal

/-!
# Element schemas

A schema says what an element may hold: leading content, nested forms, and properties with their
types.  A property written without a value takes its default.  Coercion brings a literal to the type
that is declared for it; where no conversion applies the literal keeps its natural value.
-/

namespace Wireframe

/-- The declared type of a property. -/
inductive PropType where
  | boolean
  | number
  | string
  | symbol
  | any
  | navigation
  deriving DecidableEq, Repr

namespace PropType

/-- The name under which a type is declared. -/
def name : PropType → String
  | boolean => "boolean"
  | number => "number"
  | string => "string"
  | symbol => "symbol"
  | any => "any"
  | navigation => "navigation"

/-- All property types. -/
def all : List PropType := [boolean, number, string, symbol, any, navigation]

/-- The type of a name; an unknown name leaves values as they are. -/
def ofName (name : String) : PropType :=
  (all.find? (·.name == name)).getD any

theorem ofName_name (type : PropType) : ofName type.name = type := by
  cases type <;> decide

end PropType

/-- Bring a literal to a declared type. -/
def Literal.coerce (type : PropType) (l : Literal) : Scalar :=
  match type with
  | .boolean =>
    match l.toBool? with
    | some value => .flag value
    | none => l.natural
  | .number =>
    match l with
    | .number value => .number value
    | .symbol text =>
      match l.toBool? with
      | some value => .number (.integer (if value then 1 else 0))
      | none =>
        match Numeral.leadingDouble? text with
        | some d => .number (Number.double d).normalize
        | none => l.natural
    | .quoted text =>
      match Numeral.leadingDouble? text with
      | some d => .number (Number.double d).normalize
      | none => l.natural
  | .string | .symbol => .text l.toText
  | .any | .navigation => l.natural

/-- The type of a property and the value of its bare form, which is true if none is given. -/
structure PropDef where
  /-- The declared type. -/
  type : PropType
  /-- The value of the bare form. -/
  default : Option Scalar
  deriving DecidableEq, Repr

/-- A grouping of elements by purpose. -/
inductive Category where
  | container
  | content
  | interactive
  | input
  | data
  | navigation
  | utility
  | unknown
  deriving DecidableEq, Repr

/-- The name of a category. -/
def Category.name : Category → String
  | container => "container"
  | content => "content"
  | interactive => "interactive"
  | input => "input"
  | data => "data"
  | navigation => "navigation"
  | utility => "utility"
  | unknown => "unknown"

/-- What an element may hold and how it is laid out. -/
structure ElementSchema where
  /-- The name as written. -/
  name : String
  /-- The grouping by purpose. -/
  category : Category
  /-- What the element is, in a line. -/
  description : String
  /-- Whether a leading text or parameter is read as content. -/
  takesContent : Bool
  /-- Whether nested forms are accepted. -/
  takesChildren : Bool
  /-- The known properties. -/
  props : Table PropDef
  /-- Whether each nested form is laid out on a line of its own. -/
  isBlock : Bool
  /-- Whether the name is registered. -/
  isBuiltin : Bool
  deriving DecidableEq

end Wireframe
