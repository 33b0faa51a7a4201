import Wireframe.Text.Blank
import Wireframe.Token.Source

/-!
# Comments

Comments are found in the characters of a source, not in its tokens: a semicolon outside quotes
starts one, which runs to the end of the line.  Quotes may hold line breaks; an escape does not
reach over one.
-/

namespace Wireframe

/-- A comment of a source. -/
structure Comment where
  /-- The line that it stands in. -/
  line : Int
  /-- The column of its semicolon. -/
  column : Int
  /-- The comment from its semicolon, without blanks at its end. -/
  text : String
  /-- Whether only blanks stand before it in its line. -/
  standalone : Bool
  deriving DecidableEq, Repr

namespace Comment

/-- Where the search for comments stands in a source. -/
structure Scan where
  /-- Whether a text between quotes goes on. -/
  quoted : Bool
  /-- Whether the next character is escaped. -/
  escaped : Bool
  /-- Whether the line has held only blanks so far. -/
  blank : Bool
  /-- The place of the next character. -/
  position : Position

namespace Scan

/-- The start of a source. -/
def start : Scan := ⟨false, false, true, Position.first⟩

/-- Walk over a character that starts no comment. -/
def step (s : Scan) (c : Char) : Scan :=
  let position := s.position.after c
  if c = '\n' then ⟨s.quoted, false, true, position⟩
  else
    let blank := s.blank && Text.isBlank c
    if s.quoted then
      if s.escaped then ⟨true, false, blank, position⟩
      else if c = '\\' then ⟨true, true, blank, position⟩
      else ⟨c ≠ '"', false, blank, position⟩
    else ⟨c = '"', false, blank, position⟩

/-- Whether a character starts a comment. -/
def startsComment (s : Scan) (c : Char) : Bool :=
  c == ';' && !s.quoted

end Scan

/-- The comment that starts at a place with its semicolon, given the rest of its line. -/
def ofLine (s : Scan) (rest : List Char) : Comment :=
  ⟨s.position.line, s.position.column,
    String.ofList (Text.dropEndWhile Text.isBlank (';' :: rest)), s.blank⟩

/-- The comments of a text, in order. -/
def ofChars (s : Scan) : List Char → List Comment
  | [] => []
  | c :: rest =>
    if s.startsComment c then
      let line := rest.takeWhile Token.isInLine
      ofLine s line ::
        ofChars { s with position := s.position.afterAll (c :: line) }
          (rest.dropWhile Token.isInLine)
    else ofChars (s.step c) rest
termination_by cs => cs.length
decreasing_by
  · have := (List.dropWhile_sublist Token.isInLine (l := rest)).length_le
    simp only [List.length_cons]
    omega
  · simp

/-- The comments of a source, in order. -/
def ofSource (source : String) : List Comment :=
  ofChars Scan.start source.toList

end Comment
end Wireframe
