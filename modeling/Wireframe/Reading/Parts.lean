import Wireframe.Form
import Wireframe.Reading.Attempt

/-!
# The parts of a list

A list is read in three parts: the atoms at its head, the forms nested behind them, and the token
that comes next, which ends the list unless an atom stands behind a nested form.  Each nested form
comes with the attempt to read it as a node.
-/

namespace Wireframe

/-- A nested form with the attempt to read it as a node. -/
structure Nested where
  /-- The form. -/
  form : Form
  /-- The attempt. -/
  child : Attempt Child

/-- A form inside a list. -/
inductive Item where
  /-- A single token. -/
  | atom (token : Token)
  /-- A nested list. -/
  | nested (n : Nested)

/-- The opening parenthesis of a nested form. -/
def Nested.opener (n : Nested) : Token :=
  n.form.first

/-- The first token of an item. -/
def Item.first : Item → Token
  | atom token => token
  | nested n => n.opener

/-- The parts of a list. -/
structure Parts where
  /-- The opening parenthesis. -/
  opener : Token
  /-- The atoms at the head. -/
  head : List Token
  /-- The forms nested behind the head. -/
  nested : List Nested
  /-- The token behind them. -/
  next : Token

namespace Parts

/-- Split off the leading atoms. -/
def splitAtoms : List Item → List Token × List Item
  | .atom token :: rest =>
    let (atoms, rest) := splitAtoms rest
    (token :: atoms, rest)
  | items => ([], items)

/-- Split off the leading nested forms. -/
def splitNested : List Item → List Nested × List Item
  | .nested n :: rest =>
    let (forms, rest) := splitNested rest
    (n :: forms, rest)
  | items => ([], items)

/-- Splitting off the leading atoms loses no item. -/
theorem map_atom_splitAtoms (items : List Item) :
    (splitAtoms items).1.map Item.atom ++ (splitAtoms items).2 = items := by
  fun_induction splitAtoms items with
  | case1 token rest atoms behind same ih => simpa [same] using ih
  | case2 => rfl

/-- Splitting off the leading nested forms loses no item. -/
theorem map_nested_splitNested (items : List Item) :
    (splitNested items).1.map Item.nested ++ (splitNested items).2 = items := by
  fun_induction splitNested items with
  | case1 n rest forms behind same ih => simpa [same] using ih
  | case2 => rfl

/-- The parts of the list with the given items. -/
def ofItems (opener : Token) (items : List Item) (closer : Token) : Parts :=
  let (head, rest) := splitAtoms items
  let (nested, rest) := splitNested rest
  ⟨opener, head, nested, (rest.head?.map Item.first).getD closer⟩

/-- The token behind the head. -/
def afterHead (p : Parts) : Token :=
  (p.nested.head?.map Nested.opener).getD p.next

/-- The token to read next when some atoms of the head are left. -/
def current (p : Parts) (left : List Token) : Token :=
  left.head?.getD p.afterHead

/-- The token that should close the list, after the nested forms if no atom is left before them. -/
def closing (p : Parts) (left : List Token) : Token :=
  left.head?.getD p.next

/-- Read a symbol from the atoms that are left. -/
def symbol (p : Parts) (left : List Token) : Attempt (String × List Token) := do
  let token ← Attempt.expect .symbol (p.current left)
  return (token.value, left.tail)

/-- The nested forms that come next, none if an atom is left before them. -/
def upcoming (p : Parts) : List Token → List Nested
  | [] => p.nested
  | _ :: _ => []

end Parts

/-- Read the keywords that come next, each with what `step` makes of it and of the token behind it:
nothing if the keyword does not belong here, or else a new state and whether that token was used.
The answer is the last state and the tokens left. -/
def readClauses {σ : Type} (after : Token)
    (step : σ → Token → Token → Attempt (Option (σ × Bool))) :
    σ → List Token → Attempt (σ × List Token)
  | s, [] => pure (s, [])
  | s, [key] =>
    if key.kind = .keyword then do
      match ← step s key after with
      | none => return (s, [key])
      | some (s, _) => return (s, [])
    else pure (s, [key])
  | s, key :: next :: rest =>
    if key.kind = .keyword then do
      match ← step s key next with
      | none => return (s, key :: next :: rest)
      | some (s, true) => readClauses after step s rest
      | some (s, false) => readClauses after step s (next :: rest)
    else pure (s, key :: next :: rest)

end Wireframe
