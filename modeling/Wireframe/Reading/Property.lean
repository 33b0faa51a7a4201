import Wireframe.Reading.Parts
import Wireframe.Schema.Registry

/-!
# Properties

A property is a keyword with the value behind it.  A known property has a type to which the value is
brought; a navigation property needs a target; the bare form takes the declared default, or else is
true.
-/

namespace Wireframe

/-- Whether a text starts like a URL, in letters of any case. -/
def isUrl (s : String) : Bool :=
  let cs := s.toList.map Text.lower
  Schema.urlProtocols.any (·.toList.isPrefixOf cs)

namespace Literal

/-- The literal that a token is: a number or a text, and else a symbol. -/
def ofToken (t : Token) : Attempt Literal :=
  match t.kind with
  | .number => do return .number (← Attempt.ofValue (Number.ofText t.value))
  | .string => pure (.quoted t.value)
  | _ => pure (.symbol t.value)

end Literal

namespace PropValue

/-- The value true. -/
def yes : PropValue :=
  .scalar (.flag true)

/-- The value that a token gives to a property of a type; a property without a type keeps the
natural value. -/
def ofToken (type : Option PropType) (t : Token) : Attempt PropValue :=
  match t.kind with
  | .param => pure (.param t.value)
  | .hash => pure (.overlay t.value)
  | _ =>
    if t.kind = .string ∧ isUrl t.value then pure (.url t.value)
    else do
      let literal ← Literal.ofToken t
      return .scalar (type.elim literal.natural fun type => literal.coerce type)

/-- The target that a text names: a URL, an overlay after `#`, or a screen. -/
def targetOfText (s : String) : PropValue :=
  if isUrl s then .url s
  else
    match s.toList with
    | '#' :: id => .overlay (String.ofList id)
    | _ => .screen s

/-- The target that a keyword names: an action, or else the word itself. -/
def targetOfKeyword (word : String) : PropValue :=
  match Action.ofName? word with
  | some a => .action a
  | none => .scalar (.text word)

/-- The target that a token names. -/
def targetOfToken (t : Token) : Attempt PropValue :=
  match t.kind with
  | .hash => pure (.overlay t.value)
  | .param => pure (.param t.value)
  | .keyword => pure (targetOfKeyword t.value)
  | .string => pure (targetOfText t.value)
  | .symbol => pure (.screen t.value)
  | _ => Attempt.fail .missingTarget t

/-- The value of a property by its definition and the token behind its keyword, and whether that
token was used. -/
def read (definition : Option PropDef) (next : Token) : Attempt (PropValue × Bool) :=
  match definition with
  | some ⟨.navigation, _⟩ => do return (← targetOfToken next, true)
  | _ =>
    if next.kind.isValue then do return (← ofToken (definition.map PropDef.type) next, true)
    else pure (((definition.bind PropDef.default).map PropValue.scalar).getD yes, false)

end PropValue

/-- Read one property of an element. -/
def readProperty (known : Table PropDef) (props : Table PropValue) (key next : Token) :
    Attempt (Option (Table PropValue × Bool)) := do
  let (value, used) ← PropValue.read (known.find? key.value) next
  return some (props.insert key.value value, used)

/-- Read one fact about the document. -/
def readFact (facts : Table Scalar) (key next : Token) : Attempt (Option (Table Scalar × Bool)) :=
  if next.kind.isValue then
    if next.kind = .param ∨ next.kind = .hash then
      pure (some (facts.insert key.value (.text next.text), true))
    else do
      let literal ← Literal.ofToken next
      return some (facts.insert key.value literal.natural, true)
  else pure (some (facts.insert key.value (.flag true), false))

end Wireframe
