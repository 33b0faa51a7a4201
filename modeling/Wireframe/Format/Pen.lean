import Wireframe.Format.Balance
import Wireframe.Format.Comment

/-!
# The pen

Formatted text is written by a pen that knows the open forms, the column that it has reached, the
line of the source that it has come to and the comments that wait to be put back.  A line break
writes the margin of the line that it begins.
-/

namespace Wireframe

/-- How text is laid out. -/
structure Style where
  /-- What one level of nesting indents by. -/
  indent : List Char
  /-- The width that lines should keep to, if it is positive. -/
  width : Int
  deriving DecidableEq, Repr

/-- A form that is open on the page. -/
structure Frame where
  /-- The name of the form, empty for a list without a name. -/
  name : String
  /-- Whether its nested forms stand on lines of their own. -/
  isBlock : Bool
  deriving DecidableEq, Repr

/-- A pen on its way through the tokens of a source. -/
structure Pen where
  /-- What has been written, latest first. -/
  written : List (List Char)
  /-- The open forms, innermost first. -/
  frames : List Frame
  /-- The column reached, counted from zero. -/
  column : Nat
  /-- The line of the source at which the last token or comment ended. -/
  line : Int
  /-- Whether nothing but the margin stands in the line. -/
  isFresh : Bool
  /-- Whether a comment was written last, so that the line may hold nothing more. -/
  afterComment : Bool
  /-- The kind of the last token. -/
  previous : Option TokenKind
  /-- The comments that wait, in order. -/
  waiting : List Comment

namespace Pen

/-- A pen on an empty page. -/
def start (waiting : List Comment) : Pen :=
  ⟨[], [], 0, 0, true, false, none, waiting⟩

/-- The text on the page. -/
def text (p : Pen) : List Char :=
  p.written.reverse.flatten

/-- Whether the pen has been used. -/
def isUsed (p : Pen) : Bool :=
  !p.written.isEmpty

/-- Write in the line. -/
def write (p : Pen) (text : List Char) : Pen :=
  { p with
    written := text :: p.written
    column := p.column + text.length
    isFresh := false }

/-- The margin of a line at a level of nesting. -/
def margin (style : Style) (level : Nat) : List Char :=
  (List.replicate level style.indent).flatten

/-- What ends the line before a new one, nothing on an empty page. -/
def lineEnd (p : Pen) (blank : Bool) : List Char :=
  if !p.isUsed then [] else if blank then ['\n', '\n'] else ['\n']

/-- Begin a line at a level of nesting, behind a blank line if asked for. -/
def newLine (style : Style) (p : Pen) (level : Nat) (blank : Bool) : Pen :=
  let margin := margin style level
  { p with
    written := (p.lineEnd blank ++ margin) :: p.written
    column := margin.length
    isFresh := true
    afterComment := false }

/-- The level of nesting inside the innermost open form. -/
def level (p : Pen) : Nat :=
  p.frames.length

@[simp]
theorem text_start (waiting : List Comment) : (start waiting).text = [] := rfl

@[simp]
theorem text_write (p : Pen) (text : List Char) : (p.write text).text = p.text ++ text := by
  simp [write, Pen.text]

@[simp]
theorem text_newLine (style : Style) (p : Pen) (level : Nat) (blank : Bool) :
    (p.newLine style level blank).text = p.text ++ (p.lineEnd blank ++ margin style level) := by
  simp [newLine, text]

@[simp]
theorem level_write (p : Pen) (text : List Char) : (p.write text).level = p.level := rfl

@[simp]
theorem level_newLine (style : Style) (p : Pen) (level : Nat) (blank : Bool) :
    (p.newLine style level blank).level = p.level := rfl

theorem length_margin (style : Style) (level : Nat) :
    (margin style level).length = level * style.indent.length := by
  simp [margin]

@[simp]
theorem column_newLine (style : Style) (p : Pen) (level : Nat) (blank : Bool) :
    (p.newLine style level blank).column = level * style.indent.length :=
  length_margin style level

/-- Write a comment on a line of its own, keeping one blank line of the source before it. -/
def comment (style : Style) (p : Pen) (c : Comment) : Pen :=
  let p' := (p.newLine style p.level (p.line + 1 < c.line && p.isUsed)).write c.text.toList
  { p' with afterComment := true, line := c.line }

/-- Write the waiting comments that stand before a line, or all of them, leaving out those that the
source has already passed. -/
def comments (style : Style) (before : Option Int) : List Comment → Pen → Pen
  | [], p => { p with waiting := [] }
  | c :: rest, p =>
    if before.any (· ≤ c.line) then { p with waiting := c :: rest }
    else if c.line ≤ p.line then comments style before rest p
    else comments style before rest (p.comment style c)

/-- Write the waiting comments that stand before a line, or all of them. -/
def flush (style : Style) (p : Pen) (before : Option Int) : Pen :=
  comments style before p.waiting p

/-- Begin a line for a token that stands behind a comment, some levels further out than the
innermost open form. -/
def leaveComment (style : Style) (p : Pen) (outward : Nat) : Pen :=
  if p.afterComment then p.newLine style (p.level - outward) false else p

/-- Go to where a form of a name begins: on a line of its own outside all forms or directly inside a
block form, keeping a blank line of the source there. -/
def approach (style : Style) (p : Pen) (t : Token) (name : String) : Pen :=
  let gap : Bool := p.line + 1 < t.start.line
  match p.frames with
  | [] => if p.isUsed then p.newLine style 0 (gap || !p.afterComment) else p
  | parent :: _ =>
    if name ≠ "" ∧ parent.isBlock then
      p.newLine style p.level (gap && parent.name == Schema.rootForm && 0 < p.line)
    else if p.afterComment then p.newLine style p.level false
    else if !p.isFresh ∧ p.previous ≠ some TokenKind.openParen then p.write [' ']
    else p

/-- Open a form of a name. -/
def openForm (style : Style) (p : Pen) (t : Token) (name : String) : Pen :=
  let p' := (p.approach style t name).write ['(']
  { p' with frames := ⟨name, name ≠ "" && Schema.isBlockForm name⟩ :: p'.frames }

/-- Close the innermost open form. -/
def closeForm (style : Style) (p : Pen) : Pen :=
  let p' := (p.leaveComment style 1).write [')']
  { p' with frames := p'.frames.tail }

/-- Write the name of a form behind its parenthesis. -/
def name (style : Style) (p : Pen) (t : Token) : Pen :=
  (p.leaveComment style 0).write t.value.toList

/-- The width that an atom needs with the space before it, together with the value behind it if it
is a keyword. -/
def needed (t next : Token) : Nat :=
  t.render.length + 1 +
    if t.kind = .keyword ∧ next.kind.isValue then next.render.length + 1 else 0

/-- Whether a line is broken before an atom: it would not fit, and it is not the value of the
keyword before it. -/
def wraps (style : Style) (p : Pen) (t next : Token) : Bool :=
  0 < style.width && style.width < p.column + needed t next && !p.isFresh &&
    !(p.previous == some TokenKind.keyword && t.kind.isValue)

/-- Write an atom behind a space, on a new line if it does not fit. -/
def atom (style : Style) (p : Pen) (t next : Token) : Pen :=
  let p :=
    if p.afterComment || p.wraps style t next then p.newLine style p.level false else p
  let p := if p.isFresh then p else p.write [' ']
  p.write t.render.toList

/-- Write a token, given the name of the form that it opens and the token behind it. -/
def token (style : Style) (p : Pen) (t : Token) (name : String) (next : Token) : Pen :=
  let p := p.flush style (some t.start.line)
  let p :=
    match t.kind with
    | .openParen => p.openForm style t name
    | .closeParen => p.closeForm style
    | .symbol =>
      if p.previous = some TokenKind.openParen then p.name style t else p.atom style t next
    | _ => p.atom style t next
  { p with previous := some t.kind, line := max p.line t.stop.line }

/-- Write tokens up to the end of the source, and then the comments that are left. -/
def tokens (style : Style) : Pen → List (Token × String) → Pen
  | p, [] => p.flush style none
  | p, (t, name) :: rest =>
    if t.isEnd then p.flush style none
    else tokens style (p.token style t name ((rest.head?.map Prod.fst).getD t)) rest

end Pen
end Wireframe
