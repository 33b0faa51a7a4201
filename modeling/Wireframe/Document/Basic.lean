import Wireframe.Position
import Wireframe.Table
import Wireframe.Value.Literal

/-!
# Documents

The tree that a source describes: screens made of elements, with overlays, and the components and
layouts that they may use.  Components and layouts are referred to by name only, so a definition
may follow its first use.
-/

namespace Wireframe

/-- The built-in navigation actions. -/
inductive Action where
  | close
  | back
  | submit
  deriving DecidableEq, Repr

namespace Action

/-- The keyword of an action. -/
def name : Action → String
  | close => "close"
  | back => "back"
  | submit => "submit"

/-- The action of a keyword. -/
def ofName? (name : String) : Option Action :=
  [close, back, submit].find? (·.name == name)

end Action

/-- The kinds of overlay. -/
inductive OverlayKind where
  | modal
  | drawer
  | popover
  deriving DecidableEq, Repr

namespace OverlayKind

/-- The form name of a kind of overlay. -/
def name : OverlayKind → String
  | modal => "modal"
  | drawer => "drawer"
  | popover => "popover"

/-- The kind of overlay of a form name. -/
def ofName? (name : String) : Option OverlayKind :=
  [modal, drawer, popover].find? (·.name == name)

end OverlayKind

/-- The value of a property: a scalar, a parameter, or a place to go to. -/
inductive PropValue where
  /-- A truth value, a number or a text. -/
  | scalar (value : Scalar)
  /-- A parameter of the enclosing component or repetition. -/
  | param (name : String)
  /-- A screen by its id. -/
  | screen (id : String)
  /-- An overlay by its id. -/
  | overlay (id : String)
  /-- A built-in action. -/
  | action (action : Action)
  /-- An address outside the document. -/
  | url (url : String)
  deriving DecidableEq, Repr

/-- The content of an element. -/
inductive Content where
  /-- A text. -/
  | text (value : String)
  /-- A parameter of the enclosing component or repetition. -/
  | param (name : String)
  deriving DecidableEq, Repr

/-- How often a repetition repeats. -/
inductive Count where
  /-- A number of times. -/
  | times (n : Int)
  /-- As many times as a parameter says. -/
  | param (name : String)
  deriving DecidableEq, Repr

mutual

/-- An element or a use of a component. -/
structure Element where
  /-- The name of the element or component. -/
  type : String
  /-- The content. -/
  content : Option Content
  /-- The properties. -/
  props : Table PropValue
  /-- The nodes inside, in order. -/
  children : List Child
  /-- The place in the source. -/
  location : Option Location
  /-- Whether the name is not that of a built-in element. -/
  isComponent : Bool

/-- An element that is repeated. -/
structure Repetition where
  /-- How often. -/
  count : Count
  /-- The name under which the body sees the number of the turn. -/
  counter : Option String
  /-- The element repeated. -/
  body : Element
  /-- The place in the source. -/
  location : Option Location

/-- A node inside an element. -/
inductive Child where
  /-- An element. -/
  | element (e : Element)
  /-- A repetition. -/
  | repetition (r : Repetition)

end

instance : Inhabited Element := ⟨⟨"", none, Table.empty, [], none, false⟩⟩

/-- The place of a node in the source. -/
def Child.location : Child → Option Location
  | element e => e.location
  | repetition r => r.location

/-- The definition of a component. -/
structure Component where
  /-- The name. -/
  name : String
  /-- The parameters. -/
  params : List String
  /-- What a use stands for. -/
  body : Element
  /-- The place in the source. -/
  location : Option Location

/-- A frame for screens, with a slot in its body. -/
structure Layout where
  /-- The name. -/
  name : String
  /-- The frame. -/
  body : Element
  /-- The place in the source. -/
  location : Option Location

/-- Something that lies over a screen. -/
structure Overlay where
  /-- The kind of overlay. -/
  kind : OverlayKind
  /-- The id that references use. -/
  id : String
  /-- The properties. -/
  props : Table PropValue
  /-- The nodes inside, in order. -/
  children : List Child
  /-- The place in the source. -/
  location : Option Location

/-- A page. -/
structure Screen where
  /-- The id that references use. -/
  id : String
  /-- The title. -/
  name : Option String
  /-- The viewport. -/
  viewport : Option String
  /-- The name of the layout. -/
  layout : Option String
  /-- The element that fills the page. -/
  root : Element
  /-- The overlays, in order. -/
  overlays : List Overlay
  /-- The place in the source. -/
  location : Option Location

/-- A directive to use the definitions of another file. -/
structure Include where
  /-- The path as written. -/
  path : String
  /-- The place in the source. -/
  location : Option Location

/-- A whole document. -/
structure Document where
  /-- Free facts about the document. -/
  metadata : Table Scalar
  /-- The files to include, in order. -/
  includes : List Include
  /-- The components, in order. -/
  components : List Component
  /-- The layouts, in order. -/
  layouts : List Layout
  /-- The screens, in order. -/
  screens : List Screen
  /-- The place in the source. -/
  location : Option Location

namespace Document

/-- The document without anything in it. -/
def empty : Document :=
  ⟨Table.empty, [], [], [], [], none⟩

instance : Inhabited Document := ⟨empty⟩

/-- The components by name, of which the last of a name counts. -/
def componentTable (d : Document) : Table Component :=
  Table.ofList (d.components.map fun c => (c.name, c))

/-- The layouts by name, of which the last of a name counts. -/
def layoutTable (d : Document) : Table Layout :=
  Table.ofList (d.layouts.map fun l => (l.name, l))

/-- The component of a name. -/
def component? (d : Document) (name : String) : Option Component :=
  d.componentTable.find? name

/-- The layout of a name. -/
def layout? (d : Document) (name : String) : Option Layout :=
  d.layoutTable.find? name

/-- The first screen with an id. -/
def screen? (d : Document) (id : String) : Option Screen :=
  d.screens.find? (·.id == id)

/-- The overlays of all screens, in order. -/
def overlays (d : Document) : List Overlay :=
  d.screens.flatMap Screen.overlays

end Document
end Wireframe
