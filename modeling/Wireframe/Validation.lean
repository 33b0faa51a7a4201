import Wireframe.Document.Basic
import Wireframe.Schema.Registry

/-!
# Validation

A document is checked for what its grammar does not say: ids that come twice, components that shadow
elements, parameters that nothing binds, and references to nothing.  What makes a document unusable
is an error; what may be meant is a warning.
-/

namespace Wireframe

/-- What is doubtful about a document. -/
inductive FindingCause where
  /-- An earlier screen has the same id. -/
  | duplicateScreen (id : String)
  /-- An earlier overlay has the same id. -/
  | duplicateOverlay (id : String)
  /-- A component has the name of a registered element. -/
  | shadowing (name : String)
  /-- Nothing binds the parameter. -/
  | unboundParam (name : String)
  /-- A repetition repeats less than once. -/
  | emptyRepetition
  /-- No layout has the name. -/
  | unknownLayout (name : String)
  /-- Neither an element nor a component has the name. -/
  | unknownElement (name : String)
  /-- No element has the flag. -/
  | unknownFlag (name : String)
  /-- No screen has the id. -/
  | unknownScreen (id : String)
  /-- No overlay has the id. -/
  | unknownOverlay (id : String)
  deriving DecidableEq, Repr

namespace FindingCause

/-- The message for a cause. -/
def message : FindingCause → String
  | duplicateScreen id => s!"Duplicate screen ID: '{id}'"
  | duplicateOverlay id => s!"Duplicate overlay ID: '{id}'"
  | shadowing name => s!"Component '{name}' shadows built-in element type"
  | unboundParam name => s!"Unknown parameter reference '${name}'"
  | emptyRepetition => "Repeat count must be at least 1"
  | unknownLayout name => s!"Reference to unknown layout '{name}'"
  | unknownElement name => s!"Unknown element type: '{name}'"
  | unknownFlag name => s!"Unknown flag ':{name}'"
  | unknownScreen id => s!"Reference to unknown screen '{id}'"
  | unknownOverlay id => s!"Reference to unknown overlay '#{id}'"

/-- Whether a cause makes a document unusable. -/
def isError : FindingCause → Bool
  | duplicateScreen _ | duplicateOverlay _ | shadowing _ | unboundParam _ | emptyRepetition => true
  | _ => false

end FindingCause

/-- A doubtful node of a document. -/
structure Finding where
  /-- What is doubtful. -/
  cause : FindingCause
  /-- The place of the node. -/
  location : Option Location
  deriving DecidableEq, Repr

/-- The message of a finding and the place of its node. -/
def Finding.diagnostic (f : Finding) : Diagnostic :=
  ⟨f.cause.message, (f.location.map Location.start).getD Position.nowhere⟩

/-- A finding is told at the start of its node, or at line and column 0 if the node has no place. -/
theorem Finding.diagnostic_eq_iff {f : Finding} {d : Diagnostic} :
    f.diagnostic = d ↔ d.message = f.cause.message ∧
      ((∃ l, f.location = some l ∧ d.position = l.start) ∨
        f.location = none ∧ d.position = ⟨0, 0⟩) := by
  obtain ⟨cause, location⟩ := f
  obtain ⟨message, position⟩ := d
  cases location with
  | none => simp [diagnostic, Position.nowhere, eq_comm]
  | some l => simp [diagnostic, eq_comm]

/-- The names that a document defines. -/
structure Scope where
  /-- The ids of the screens. -/
  screens : List String
  /-- The ids of the overlays. -/
  overlays : List String
  /-- The names of the components. -/
  components : List String
  /-- The names of the layouts. -/
  layouts : List String

namespace Scope

/-- The names that a document defines. -/
def ofDocument (d : Document) : Scope :=
  ⟨d.screens.map Screen.id, d.overlays.map Overlay.id, d.components.map Component.name,
    d.layouts.map Layout.name⟩

/-- Whether an element may have the name. -/
def knowsElement (s : Scope) (name : String) : Bool :=
  Schema.isBuiltin name || s.components.contains name || name == Schema.repeatContainer

/-- The finding for a parameter, if nothing binds it. -/
def checkParam (params : List String) (location : Option Location) (name : String) :
    List Finding :=
  if params.contains name then [] else [⟨.unboundParam name, location⟩]

/-- The findings for the value of a property. -/
def checkProp (params : List String) (location : Option Location) (prop : String × PropValue) :
    List Finding :=
  match prop.2 with
  | .scalar (.flag true) =>
    if Schema.validFlags.contains prop.1 || Schema.knownProps.contains prop.1 then []
    else [⟨.unknownFlag prop.1, location⟩]
  | .param name => checkParam params location name
  | _ => []

/-- The findings for properties. -/
def checkProps (params : List String) (location : Option Location) (props : Table PropValue) :
    List Finding :=
  props.entries.flatMap (checkProp params location)

/-- The findings for a navigation target. -/
def checkTarget (s : Scope) (location : Option Location) : PropValue → List Finding
  | .screen id => if s.screens.contains id then [] else [⟨.unknownScreen id, location⟩]
  | .overlay id => if s.overlays.contains id then [] else [⟨.unknownOverlay id, location⟩]
  | _ => []

/-- The findings for content. -/
def checkContent (params : List String) (location : Option Location) :
    Option Content → List Finding
  | some (.param name) => checkParam params location name
  | _ => []

/-- The findings for how often a repetition repeats. -/
def checkCount (params : List String) (location : Option Location) : Count → List Finding
  | .param name => checkParam params location name
  | .times n => if n < 1 then [⟨.emptyRepetition, location⟩] else []

/-- The parameters inside a repetition, which binds its counter. -/
def bind (params : List String) (counter : Option String) : List String :=
  match counter with
  | some name => if name = "" then params else name :: params
  | none => params

/-- The findings for an element, its children apart. -/
def checkNode (s : Scope) (params : List String) (type : String) (content : Option Content)
    (props : Table PropValue) (location : Option Location) : List Finding :=
  (if s.knowsElement type then [] else [⟨.unknownElement type, location⟩]) ++
    checkContent params location content ++ checkProps params location props ++
    ((props.find? "to").map (s.checkTarget location)).getD []

mutual

/-- The findings for an element inside which some parameters are bound. -/
def checkElement (s : Scope) (params : List String) : Element → List Finding
  | ⟨type, content, props, children, location, _⟩ =>
    s.checkNode params type content props location ++ s.checkChildren params children

/-- The findings for a repetition. -/
def checkRepetition (s : Scope) (params : List String) : Repetition → List Finding
  | ⟨count, counter, body, location⟩ =>
    checkCount params location count ++ s.checkElement (bind params counter) body

/-- The findings for a node. -/
def checkChild (s : Scope) (params : List String) : Child → List Finding
  | .element e => s.checkElement params e
  | .repetition r => s.checkRepetition params r

/-- The findings for nodes, in order. -/
def checkChildren (s : Scope) (params : List String) : List Child → List Finding
  | [] => []
  | child :: rest => s.checkChild params child ++ s.checkChildren params rest

end

/-- The findings for a component. -/
def checkComponent (s : Scope) (c : Component) : List Finding :=
  (if Schema.isBuiltin c.name then [⟨.shadowing c.name, c.location⟩] else []) ++
    s.checkElement c.params c.body

/-- The findings for an overlay. -/
def checkOverlay (s : Scope) (o : Overlay) : List Finding :=
  checkProps [] o.location o.props ++ s.checkChildren [] o.children

/-- The finding for the layout of a screen. -/
def checkLayout (s : Scope) (location : Option Location) : Option String → List Finding
  | none => []
  | some name =>
    if name = "" ∨ s.layouts.contains name then [] else [⟨.unknownLayout name, location⟩]

/-- The findings for a screen. -/
def checkScreen (s : Scope) (screen : Screen) : List Finding :=
  s.checkLayout screen.location screen.layout ++ s.checkElement [] screen.root ++
    screen.overlays.flatMap s.checkOverlay

end Scope

namespace Document

/-- The findings for overlays whose ids come earlier, given the ids seen before. -/
def duplicateOverlays (seen : List String) : List Overlay → List Finding
  | [] => []
  | o :: rest =>
    (if seen.contains o.id then [⟨.duplicateOverlay o.id, o.location⟩] else []) ++
      duplicateOverlays (o.id :: seen) rest

/-- The findings for screens and overlays whose ids come earlier, given the ids seen before. -/
def duplicates (seenScreens seenOverlays : List String) : List Screen → List Finding
  | [] => []
  | s :: rest =>
    (if seenScreens.contains s.id then [⟨.duplicateScreen s.id, s.location⟩] else []) ++
      duplicateOverlays seenOverlays s.overlays ++
      duplicates (s.id :: seenScreens) ((s.overlays.map Overlay.id).reverse ++ seenOverlays) rest

/-- The findings for a document, in order. -/
def findings (d : Document) : List Finding :=
  let scope := Scope.ofDocument d
  duplicates [] [] d.screens ++ d.components.flatMap scope.checkComponent ++
    d.screens.flatMap scope.checkScreen

/-- The findings that make a document unusable. -/
def errors (d : Document) : List Diagnostic :=
  (d.findings.filter (·.cause.isError)).map Finding.diagnostic

/-- The findings that may be meant. -/
def warnings (d : Document) : List Diagnostic :=
  (d.findings.filter (!·.cause.isError)).map Finding.diagnostic

/-- Whether a document has no errors. -/
def isValid (d : Document) : Bool :=
  d.errors.isEmpty

end Document
end Wireframe
