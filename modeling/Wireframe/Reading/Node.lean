import Wireframe.Reading.Property

/-!
# Nodes

Elements and repetitions are read from lists.  The nested forms of a list have been attempted
already, so a node is put together from its parts; a nested form that failed is left out and its
fault noted.
-/

namespace Wireframe

/-- The element that stands for a node where a single element is expected: a repetition is put into
a container at its place. -/
def Child.toElement : Child → Element
  | element e => e
  | repetition r => ⟨Schema.repeatContainer, none, Table.empty, [.repetition r], r.location, false⟩

/-- The nodes of nested forms, without those that failed. -/
def readNested : List Nested → Attempt (List Child)
  | [] => pure []
  | n :: rest => do
    let child ← n.child.recover
    let children ← readNested rest
    return child.toList ++ children

namespace Parts

/-- Read the next nested form as a single element: the element and the nested forms behind it. -/
def element (p : Parts) (left : List Token) : Attempt (Element × List Nested) :=
  match p.upcoming left with
  | n :: rest => do return ((← n.child).toElement, rest)
  | [] => Attempt.unexpected .openParen (p.closing left)

/-- Need the end of a list behind its body. -/
def closeBody (p : Parts) (form : String) : List Nested → Attempt Token
  | n :: _ => Attempt.fail (.secondBody form) n.opener
  | [] => Attempt.expect .closeParen p.next

/-- The content that leads the atoms left, if the element takes content. -/
def content (schema : ElementSchema) : List Token → Option Content × List Token
  | t :: rest =>
    if schema.takesContent ∧ t.kind = .string then (some (.text t.value), rest)
    else if schema.takesContent ∧ t.kind = .param then (some (.param t.value), rest)
    else (none, t :: rest)
  | [] => (none, [])

/-- The children among the nested forms that come next, none if the element takes none. -/
def children (schema : ElementSchema) (nested : List Nested) : Attempt (List Child) :=
  match nested with
  | [] => pure []
  | n :: _ =>
    if schema.takesChildren then readNested nested
    else do
      Attempt.note (.childrenOfLeaf schema.name) n.opener
      let _ ← readNested nested
      return []

/-- Read an element whose name has been read. -/
def toElement (p : Parts) (name : String) (left : List Token) : Attempt Element := do
  let schema := Schema.element name
  let (content, left) := content schema left
  let (props, left) ← readClauses p.afterHead (readProperty schema.props) Table.empty left
  let children ← children schema (p.upcoming left)
  let closer ← Attempt.expect .closeParen (p.closing left)
  let location ← Attempt.place p.opener closer
  return ⟨name, content, props, children, some location, !schema.isBuiltin⟩

/-- What the options of a repetition say. -/
structure RepeatOptions where
  /-- How often. -/
  count : Count
  /-- The name of the counter. -/
  counter : Option String

/-- Read one option of a repetition. -/
def repeatOption (s : RepeatOptions) (key next : Token) : Attempt (Option (RepeatOptions × Bool)) :=
  if key.value = "count" then
    match next.kind with
    | .number => do
      let number ← Attempt.ofValue (Number.ofText next.value)
      let times ← Attempt.ofValue (Literal.number number).toInt
      let whole ← Attempt.ofValue number.isInteger
      if !whole then Attempt.note .fractionalCount next
      return some (⟨.times times, s.counter⟩, true)
    | .param => pure (some (⟨.param next.value, s.counter⟩, true))
    | kind => do
      Attempt.note .badCount next
      return some (s, kind.isValue)
  else if key.value = "as" then
    if next.kind = .string ∨ next.kind = .symbol then
      pure (some (⟨s.count, some next.value⟩, true))
    else do
      Attempt.note .badCounter next
      return some (s, next.kind.isValue)
  else pure none

/-- Read a repetition whose name has been read. -/
def toRepetition (p : Parts) (left : List Token) : Attempt Repetition := do
  let (options, left) ← readClauses p.afterHead repeatOption ⟨.times 1, none⟩ left
  let (body, nested) ← p.element left
  let closer ← p.closeBody Schema.repeatForm nested
  let location ← Attempt.place p.opener closer
  return ⟨options.count, options.counter, body, some location⟩

/-- Read an element or a repetition. -/
def toChild (p : Parts) : Attempt Child := do
  let (name, left) ← p.symbol p.head
  if name = Schema.repeatForm then return .repetition (← p.toRepetition left)
  else if Schema.overlayForms.contains name then
    Attempt.fail (.misplacedOverlay name) p.opener
  else if Schema.topLevelForms.contains name then
    Attempt.fail (.misplacedForm name) (p.current p.head)
  else return .element (← p.toElement name left)

end Parts

/-- The item that a form is, given the attempt to read it as a node. -/
def Item.ofForm (form : Form) (child : Attempt Child) : Item :=
  match form with
  | .atom token => .atom token
  | .list .. => .nested ⟨form, child⟩

namespace Form

mutual

/-- The attempt to read a form as a node. -/
def child : Form → Attempt Child
  | atom token => Attempt.unexpected .openParen token
  | list opener items closer => (Parts.ofItems opener (readItems items) closer).toChild
termination_by structural form => form

/-- The items of a list, each nested form with the attempt to read it. -/
def readItems : List Form → List Item
  | [] => []
  | form :: rest => Item.ofForm form (child form) :: readItems rest
termination_by structural forms => forms

end

/-- The parts of a list; an atom has no head and ends itself. -/
def parts : Form → Parts
  | atom token => ⟨token, [], [], token⟩
  | list opener items closer => Parts.ofItems opener (readItems items) closer

end Form
end Wireframe
