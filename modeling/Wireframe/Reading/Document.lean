import Wireframe.Reading.TopLevel

/-!
# Reading documents

A document is the root form of a source with what its top-level forms add.  A source without a root
form, or one whose lists are nested too deeply, has no document; any other fault leaves out only the
form that it is found in.
-/

namespace Wireframe
namespace Entry

/-- The include that an entry is. -/
def include? : Entry → Option Include
  | inclusion i => some i
  | _ => none

/-- The component that an entry is. -/
def component? : Entry → Option Component
  | component c => some c
  | _ => none

/-- The layout that an entry is. -/
def layout? : Entry → Option Layout
  | layout l => some l
  | _ => none

/-- The screen that an entry is. -/
def screen? : Entry → Option Screen
  | screen s => some s
  | _ => none

/-- The facts that an entry states. -/
def statements : Entry → List (String × Scalar)
  | facts stated => stated.entries
  | _ => []

end Entry

namespace Document

/-- The document of what top-level forms add, in order. -/
def ofEntries (entries : List Entry) (location : Location) : Document where
  metadata := Table.ofList (entries.flatMap Entry.statements)
  includes := entries.filterMap Entry.include?
  components := entries.filterMap Entry.component?
  layouts := entries.filterMap Entry.layout?
  screens := entries.filterMap Entry.screen?
  location := some location

/-- What the forms inside the root form add, without those that failed. -/
def entries : List Form → Attempt (List Entry)
  | [] => pure []
  | form :: rest => do
    let entry ← form.entry?.recover
    let later ← entries rest
    return entry.join.toList ++ later

/-- Need the name of the root form at the head of its items: the items behind it. -/
def rootItems (closer : Token) (items : List Form) : Attempt (List Form) := do
  let name ← Attempt.expect .symbol ((items.head?.map Form.first).getD closer)
  if name.value ≠ Schema.rootForm then
    Attempt.fail (.expectedWord Schema.rootForm name.value) name
  return items.tail

/-- Note what is wrong behind the items of the root form: it is not closed, or something follows
it. -/
def checkEnd (closer : Token) (behind : List Token) : Attempt Unit :=
  if closer.isEnd then Attempt.note (.unclosed Schema.rootForm) closer
  else
    match behind with
    | [] => pure ()
    | t :: _ => Attempt.note (.trailing Schema.rootForm) t

/-- Read the document of a root form, given the tokens behind it. -/
def ofForm (behind : List Token) : Form → Attempt Document
  | .atom token => Attempt.unexpected .openParen token
  | .list opener items closer => do
    let items ← rootItems closer items
    let entries ← entries items
    checkEnd closer behind
    return ofEntries entries (← Attempt.place opener closer)

/-- The first form of a source and the tokens behind it. -/
def rootForm (tokens : List Token) : Form × List Token :=
  let eof := Token.ending tokens
  match Token.beforeEnd tokens with
  | [] => (.atom eof, [])
  | t :: rest =>
    if t.kind = .openParen then OpenList.read eof ⟨t, []⟩ [] rest else (.atom t, rest)

/-- Read the document of a list of tokens, with a limit to the nesting of lists. -/
def ofTokens (limit : Int) (tokens : List Token) : Attempt Document :=
  match Token.tooDeep? limit 0 tokens with
  | some t => Attempt.fail .tooDeep t
  | none =>
    let (form, behind) := rootForm tokens
    ofForm behind form

/-- Read the document of a source, with a limit to the nesting of lists. -/
def ofSource (limit : Int) (source : String) : Attempt Document :=
  match Token.ofSource source with
  | .ok tokens => ofTokens limit tokens
  | .error f => ⟨[], .fault ⟨.lexical f.cause, f.position⟩⟩

end Document
end Wireframe
