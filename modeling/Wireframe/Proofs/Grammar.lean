import Mathlib.Computability.Language
import Wireframe.Schema.Registry
import Wireframe.Token.Basic

/-!
# The grammar of documents

The token lists of documents as a language over tokens.  Nodes contain each other, so that their
language is given by rules; all others are put together from those of their parts.
-/

namespace Wireframe
namespace Grammar

open scoped Computability

/-- A single token with a property. -/
def one (p : Token → Prop) : Language Token :=
  {ts | ∃ t, ts = [t] ∧ p t}

/-- A token of a kind. -/
def kind (k : TokenKind) : Language Token :=
  one (·.kind = k)

/-- The symbol of a name. -/
def word (name : String) : Language Token :=
  one fun t => t.kind = .symbol ∧ t.value = name

/-- A keyword of a class. -/
def keyword (p : String → Prop) : Language Token :=
  one fun t => t.kind = .keyword ∧ p t.value

/-- A value of a property. -/
def value : Language Token :=
  one (·.kind.isValue = true)

/-- A text, quoted or not. -/
def text : Language Token :=
  one (·.kind ∈ [.string, .symbol])

/-- What is left out or not. -/
def optional (l : Language Token) : Language Token :=
  l + 1

/-- What stands between parentheses. -/
def paren (inner : Language Token) : Language Token :=
  kind .openParen * inner * kind .closeParen

/-- Whether a property of an element is a target of navigation. -/
def IsNavigation (schema : ElementSchema) (key : String) : Prop :=
  (schema.props.find? key).map PropDef.type = some .navigation

/-- A target of navigation. -/
def target : Language Token :=
  one (·.kind ∈ [.hash, .param, .keyword, .string, .symbol])

/-- A property of an element: only one for navigation needs its value. -/
def property (schema : ElementSchema) : Language Token :=
  keyword (IsNavigation schema) * target + keyword (¬IsNavigation schema ·) * optional value

/-- The content of an element, if it takes any. -/
def content (schema : ElementSchema) : Language Token :=
  if schema.takesContent then optional (kind .string + kind .param) else 1

/-- A number that is whole as a double. -/
def whole : Language Token :=
  one fun t => t.kind = .number ∧
    ∃ d, Numeral.toDouble? t.value = some d ∧ d.isInteger = true

/-- An option of a repetition: how often, or the name of the counter. -/
def repeatOption : Language Token :=
  keyword (· = "count") * (whole + kind .param) + keyword (· = "as") * text

/-- Whether a name is that of an element: it has no other place in a document. -/
def IsElementName (name : String) : Prop :=
  name ≠ Schema.repeatForm ∧ name ∉ Schema.overlayForms ∧ name ∉ Schema.topLevelForms

/-- The language of nodes. -/
inductive Node : List Token → Prop where
  /-- A repetition has a single body. -/
  | repetition {opener name closer : Token} {options body : List Token}
      (opens : opener.kind = .openParen) (symbol : name.kind = .symbol)
      (named : name.value = Schema.repeatForm) (isOptions : options ∈ repeatOption∗)
      (isBody : Node body) (closes : closer.kind = .closeParen) :
      Node (opener :: name :: (options ++ body ++ [closer]))
  /-- An element may have content, properties and children, as its schema says. -/
  | element {opener name closer : Token} {atoms : List Token} {children : List (List Token)}
      (opens : opener.kind = .openParen) (symbol : name.kind = .symbol)
      (named : IsElementName name.value)
      (isAtoms : atoms ∈ content (Schema.element name.value) *
        (property (Schema.element name.value))∗)
      (accepts : children ≠ [] → (Schema.element name.value).takesChildren = true)
      (isChildren : ∀ ts ∈ children, Node ts) (closes : closer.kind = .closeParen) :
      Node (opener :: name :: (atoms ++ children.flatten ++ [closer]))

/-- A node. -/
def node : Language Token :=
  {ts | Node ts}

/-- A property of an overlay other than its id. -/
def overlayProperty : Language Token :=
  keyword (· ≠ "id") * optional value

/-- The id of an overlay. -/
def overlayId : Language Token :=
  keyword (· = "id") * text

/-- An id of an overlay that is not empty. -/
def properId : Language Token :=
  keyword (· = "id") * one fun t => t.kind ∈ [.string, .symbol] ∧ t.value ≠ ""

/-- The id and properties of an overlay: the last of its ids is not empty. -/
def overlayOptions : Language Token :=
  (overlayId + overlayProperty)∗ * properId * overlayProperty∗

/-- An overlay. -/
def overlay : Language Token :=
  paren (one (fun t => t.kind = .symbol ∧ t.value ∈ Schema.overlayForms) * overlayOptions * node∗)

/-- A file to include. -/
def inclusion : Language Token :=
  paren (word "include" * kind .string)

/-- Facts about the document. -/
def facts : Language Token :=
  paren (word "meta" * (keyword (fun _ => True) * optional value)∗)

/-- A component. -/
def component : Language Token :=
  paren (word "define" * kind .symbol * paren (kind .symbol)∗ * node)

/-- A layout. -/
def layout : Language Token :=
  paren (word "layout" * kind .symbol * node)

/-- An option of a screen: its viewport, or the name of its layout. -/
def screenOption : Language Token :=
  keyword (· ∈ Schema.viewports) + keyword (· = "layout") * kind .symbol

/-- A screen: a single node among its overlays. -/
def screen : Language Token :=
  paren (word "screen" * kind .symbol * optional (kind .string) * screenOption∗ *
    (overlay∗ * node * overlay∗))

/-- A top-level form. -/
def topLevel : Language Token :=
  inclusion + facts + component + layout + screen

/-- A document: its root form, up to the end of the source. -/
def document : Language Token :=
  paren (word "wire" * topLevel∗) * kind .eof

end Grammar
end Wireframe
