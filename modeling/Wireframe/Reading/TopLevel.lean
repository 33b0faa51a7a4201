import Wireframe.Reading.Node

/-!
# Top-level forms

The forms directly inside the root form: includes, facts about the document, components, layouts and
screens with their overlays.
-/

namespace Wireframe

/-- What a top-level form adds to a document. -/
inductive Entry where
  /-- A file to include. -/
  | inclusion (i : Include)
  /-- Facts about the document. -/
  | facts (facts : Table Scalar)
  /-- A component. -/
  | component (c : Component)
  /-- A layout. -/
  | layout (l : Layout)
  /-- A screen. -/
  | screen (s : Screen)

namespace Parts

/-- Read an include. -/
def toInclude (p : Parts) (left : List Token) : Attempt Include := do
  let path := p.current left
  if path.kind ≠ .string then Attempt.fail .includePath path
  let closer ← Attempt.expect .closeParen (p.current left.tail)
  return ⟨path.value, some (← Attempt.place p.opener closer)⟩

/-- Read facts about the document. -/
def toFacts (p : Parts) (left : List Token) : Attempt (Table Scalar) := do
  let (facts, left) ← readClauses p.afterHead readFact Table.empty left
  let _ ← Attempt.expect .closeParen (p.current left)
  return facts

/-- Read the names of a parameter list, given the token that ends it. -/
def names (closer : Token) : List Item → Attempt (List String)
  | [] => do
    let _ ← Attempt.expect .closeParen closer
    return []
  | item :: rest => do
    let token ← Attempt.expect .symbol item.first
    return token.value :: (← names closer rest)

/-- Read the parameter list of a definition. -/
def params : Form → Attempt (List String)
  | .atom token => Attempt.unexpected .openParen token
  | .list _ items closer => names closer (Form.readItems items)

/-- Read a component. -/
def toComponent (p : Parts) (left : List Token) : Attempt Component := do
  let (name, left) ← p.symbol left
  match p.upcoming left with
  | [] => Attempt.unexpected .openParen (p.closing left)
  | n :: rest =>
    let params ← params n.form
    let (body, nested) ← Parts.element { p with nested := rest } []
    let closer ← p.closeBody Schema.defineForm nested
    return ⟨name, params, body, some (← Attempt.place p.opener closer)⟩

/-- Read a layout. -/
def toLayout (p : Parts) (left : List Token) : Attempt Layout := do
  let (name, left) ← p.symbol left
  let (body, nested) ← p.element left
  let closer ← p.closeBody "layout" nested
  return ⟨name, body, some (← Attempt.place p.opener closer)⟩

/-- What the head of an overlay says. -/
structure OverlayOptions where
  /-- The id, empty if none is given. -/
  id : String
  /-- The properties. -/
  props : Table PropValue

/-- Read one property of an overlay, of which the id is set apart. -/
def overlayOption (s : OverlayOptions) (key next : Token) :
    Attempt (Option (OverlayOptions × Bool)) :=
  if key.value = "id" then
    if next.kind = .string ∨ next.kind = .symbol then pure (some (⟨next.value, s.props⟩, true))
    else do
      Attempt.note .overlayId key
      return some (s, next.kind.isValue)
  else do
    let (value, used) ← PropValue.read (Schema.overlayProps.find? key.value) next
    return some (⟨s.id, s.props.insert key.value value⟩, used)

/-- The id of an overlay that has none of its own. -/
def fallbackId (kind : OverlayKind) (p : Position) : String :=
  s!"{kind.name}-{p.line}-{p.column}"

/-- Read an overlay, the name of which is the first atom. -/
def toOverlay (p : Parts) (kind : OverlayKind) : Attempt Overlay := do
  let (options, left) ← readClauses p.afterHead overlayOption ⟨"", Table.empty⟩ p.head.tail
  let children ← readNested (p.upcoming left)
  let closer ← Attempt.expect .closeParen (p.closing left)
  if options.id = "" then Attempt.note (.missingId kind) p.opener
  let id := if options.id = "" then fallbackId kind p.opener.start else options.id
  return ⟨kind, id, options.props, children, some (← Attempt.place p.opener closer)⟩

/-- What the options of a screen say. -/
structure ScreenOptions where
  /-- The viewport. -/
  viewport : Option String
  /-- The name of the layout. -/
  layout : Option String

/-- Read one option of a screen. -/
def screenOption (s : ScreenOptions) (key next : Token) : Attempt (Option (ScreenOptions × Bool)) :=
  if Schema.viewports.contains key.value then pure (some (⟨some key.value, s.layout⟩, false))
  else if key.value = "layout" then do
    let name ← Attempt.expect .symbol next
    return some (⟨s.viewport, some name.value⟩, true)
  else do
    Attempt.note (.unknownOption key.value) key
    return some (s, next.kind.isValue)

/-- The kind of overlay that a form is by its name. -/
def overlayKind? : Form → Option OverlayKind
  | .list _ (.atom token :: _) _ =>
    if token.kind = .symbol then OverlayKind.ofName? token.value else none
  | _ => none

/-- Read the forms of a screen: its root, if one was read, and its overlays. -/
def screenForms (screen : String) :
    Option Element → List Nested → Attempt (Option Element × List Overlay)
  | root, [] => pure (root, [])
  | root, n :: rest =>
    match overlayKind? n.form with
    | some kind => do
      let overlay ← (n.form.parts.toOverlay kind).recover
      let (root, overlays) ← screenForms screen root rest
      return (root, overlay.toList ++ overlays)
    | none =>
      match root with
      | none => do
        let child ← n.child.recover
        screenForms screen (child.map Child.toElement) rest
      | some root => do
        Attempt.note (.secondRoot screen) n.opener
        screenForms screen (some root) rest

/-- The title that leads the atoms left. -/
def title : List Token → Option String × List Token
  | t :: rest => if t.kind = .string then (some t.value, rest) else (none, t :: rest)
  | [] => (none, [])

/-- Read a screen. -/
def toScreen (p : Parts) (left : List Token) : Attempt Screen := do
  let (id, left) ← p.symbol left
  let (name, left) := title left
  let (options, left) ← readClauses p.afterHead screenOption ⟨none, none⟩ left
  let (root, overlays) ← screenForms id none (p.upcoming left)
  let closer ← Attempt.expect .closeParen (p.closing left)
  match root with
  | none => Attempt.fail (.missingRoot id) p.opener
  | some root =>
    let location ← Attempt.place p.opener closer
    return ⟨id, name, options.viewport, options.layout, root, overlays, some location⟩

/-- Read a top-level form; one of an unknown name adds nothing. -/
def toEntry? (p : Parts) : Attempt (Option Entry) := do
  let (name, left) ← p.symbol p.head
  match name with
  | "include" => return some (.inclusion (← p.toInclude left))
  | "meta" => return some (.facts (← p.toFacts left))
  | "define" => return some (.component (← p.toComponent left))
  | "layout" => return some (.layout (← p.toLayout left))
  | "screen" => return some (.screen (← p.toScreen left))
  | _ =>
    Attempt.note (.unknownForm name) p.opener
    return none

end Parts

/-- Read a form directly inside the root form, which must be a list. -/
def Form.entry? : Form → Attempt (Option Entry)
  | atom token => Attempt.unexpected .openParen token
  | list opener items closer => (list opener items closer).parts.toEntry?

end Wireframe
