import Wireframe.Format.Basic
import Wireframe.Proofs.Word

/-!
# Strokes

What the pen writes is a row of strokes.  A stroke has a lead, which is nothing, a space or the
start of a line, and a mark, which is a word or a comment.  A page is a pen without its place in a
source: drawing a stroke needs no more than the page, and the source decides only which stroke comes
next.
-/

namespace Wireframe

/-- What is written before a word or a comment. -/
inductive Lead where
  | none
  | space
  | line (breaks level : Nat)
  deriving DecidableEq, Repr

/-- A word with the name of the form that it opens, or a comment. -/
inductive Mark where
  | word (w : Word) (name : String)
  | comment (text : String)
  deriving DecidableEq, Repr

/-- A mark with what is written before it. -/
structure Stroke where
  lead : Lead
  mark : Mark
  deriving DecidableEq, Repr

namespace Lead

/-- The number of line breaks in a lead. -/
def breaks : Lead → Nat
  | line breaks _ => breaks
  | _ => 0

def chars (style : Style) : Lead → List Char
  | none => []
  | space => [' ']
  | line breaks level => List.replicate breaks '\n' ++ Pen.margin style level

end Lead

def Mark.chars : Mark → List Char
  | word w _ => w.chars
  | comment text => text.toList

namespace Stroke

def chars (style : Style) (s : Stroke) : List Char :=
  s.lead.chars style ++ s.mark.chars

/-- The text that strokes leave. -/
def text (style : Style) (strokes : List Stroke) : List Char :=
  strokes.flatMap (chars style)

/-- The words of strokes, with the names of the forms that they open. -/
def words (strokes : List Stroke) : List (Word × String) :=
  strokes.filterMap fun s =>
    match s.mark with
    | .word w name => some (w, name)
    | .comment _ => none

@[simp]
theorem text_nil (style : Style) : text style [] = [] := rfl

@[simp]
theorem text_cons (style : Style) (s : Stroke) (rest : List Stroke) :
    text style (s :: rest) = s.lead.chars style ++ (s.mark.chars ++ text style rest) := by
  simp [text, chars]

theorem text_append (style : Style) (left right : List Stroke) :
    text style (left ++ right) = text style left ++ text style right :=
  List.flatMap_append

theorem words_append (left right : List Stroke) :
    words (left ++ right) = words left ++ words right :=
  List.filterMap_append

end Stroke

namespace Pen

/-- A pen without its place in a source. -/
def page (p : Pen) : Pen :=
  { p with line := 0, waiting := [] }

/-- Write a lead. -/
def go (style : Style) (p : Pen) : Lead → Pen
  | .none => p
  | .space => p.write [' ']
  | .line breaks level =>
    { p with
      written := Lead.chars style (.line breaks level) :: p.written
      column := (margin style level).length
      isFresh := true
      afterComment := false }

/-- The forms that are open behind a word. -/
def framesBehind (w : Word) (name : String) (frames : List Frame) : List Frame :=
  match w.kind with
  | .openParen => ⟨name, name ≠ "" && Schema.isBlockForm name⟩ :: frames
  | .closeParen => frames.tail
  | _ => frames

/-- Write a stroke. -/
def draw (style : Style) (p : Pen) (s : Stroke) : Pen :=
  let q := (p.go style s.lead).write s.mark.chars
  match s.mark with
  | .word w name => { q with frames := framesBehind w name q.frames, previous := some w.kind }
  | .comment _ => { q with afterComment := true }

theorem page_draw (style : Style) (p : Pen) (s : Stroke) :
    (p.draw style s).page = (p.page.draw style s).page := by
  obtain ⟨lead, mark⟩ := s
  cases mark with
  | word w name => cases lead <;> rfl
  | comment text => cases lead <;> rfl

theorem text_draw (style : Style) (p : Pen) (s : Stroke) :
    (p.draw style s).text = p.text ++ s.chars style := by
  obtain ⟨lead, mark⟩ := s
  have went : (p.go style lead).text = p.text ++ lead.chars style := by
    cases lead with
    | none => simp [go, Lead.chars]
    | space => simp [go, Lead.chars]
    | line breaks level => simp [go, Pen.text]
  have wrote := text_write (p.go style lead) mark.chars
  rw [went, List.append_assoc] at wrote
  cases mark with
  | word w name => exact wrote
  | comment text => exact wrote

/-- The line breaks that begin a line, none on an empty page. -/
def breaks (p : Pen) (blank : Bool) : Nat :=
  if !p.isUsed then 0 else if blank then 2 else 1

theorem newLine_eq_go (style : Style) (p : Pen) (level : Nat) (blank : Bool) :
    p.newLine style level blank = p.go style (.line (p.breaks blank) level) := by
  have same : p.lineEnd blank = List.replicate (p.breaks blank) '\n' := by
    unfold lineEnd breaks
    split
    · rfl
    · split
      · rfl
      · rfl
  rw [newLine, go, Lead.chars, same]

/-- Whether a source leaves a blank line before a token, as far as the pen heeds it. -/
def gapBefore (p : Pen) (t : Token) : Bool :=
  p.line + 1 < t.start.line && (p.frames.isEmpty || 0 < p.line)

/-- The lead of the start of a form. -/
def openLead (p : Pen) (name : String) (gap : Bool) : Lead :=
  match p.frames with
  | [] => if p.isUsed then .line (p.breaks (gap || !p.afterComment)) 0 else .none
  | parent :: _ =>
    if name ≠ "" ∧ parent.isBlock then
      .line (p.breaks (gap && parent.name == Schema.rootForm)) p.level
    else if p.afterComment then .line (p.breaks false) p.level
    else if !p.isFresh ∧ p.previous ≠ some TokenKind.openParen then .space
    else .none

/-- The lead of the end of a form or of its name, some levels further out than the innermost open
form. -/
def tightLead (p : Pen) (outward : Nat) : Lead :=
  if p.afterComment then .line (p.breaks false) (p.level - outward) else .none

/-- The lead of an atom. -/
def atomLead (style : Style) (p : Pen) (w next : Word) : Lead :=
  if p.afterComment ||
      p.wraps style (w.place Position.first Position.first)
        (next.place Position.first Position.first) then
    .line (p.breaks false) p.level
  else if p.isFresh then .none else .space

/-- The lead of a word, given the word behind it. -/
def leadOf (style : Style) (p : Pen) (w next : Word) (name : String) (gap : Bool) : Lead :=
  match w.kind with
  | .openParen => p.openLead name gap
  | .closeParen => p.tightLead 1
  | .symbol =>
    if p.previous = some TokenKind.openParen then p.tightLead 0 else p.atomLead style w next
  | _ => p.atomLead style w next

theorem leadOf_page (style : Style) (p : Pen) (w next : Word) (name : String) (gap : Bool) :
    p.page.leadOf style w next name gap = p.leadOf style w next name gap := rfl

theorem breaks_page (p : Pen) (blank : Bool) : p.page.breaks blank = p.breaks blank := rfl

private theorem approach_eq_go (style : Style) (p : Pen) (t : Token) (name : String) :
    p.approach style t name = p.go style (p.openLead name (p.gapBefore t)) := by
  unfold approach openLead gapBefore
  cases p.frames with
  | nil =>
      cases used : p.isUsed with
      | false => rfl
      | true => simp [newLine_eq_go]
  | cons parent outer =>
      simp only [newLine_eq_go, List.isEmpty_cons, Bool.false_or]
      split
      · rw [Bool.and_right_comm]
      · split
        · rfl
        · split
          · rfl
          · rfl

private theorem leaveComment_eq_go (style : Style) (p : Pen) (outward : Nat) :
    p.leaveComment style outward = p.go style (p.tightLead outward) := by
  unfold leaveComment tightLead
  split
  · exact newLine_eq_go style p (p.level - outward) false
  · rfl

private theorem atom_eq_go (style : Style) (p : Pen) (t next : Token) :
    p.atom style t next = (p.go style (p.atomLead style t.word next.word)).write t.word.chars := by
  unfold atom atomLead
  have wraps : p.wraps style t next =
      p.wraps style (t.word.place Position.first Position.first)
        (next.word.place Position.first Position.first) := rfl
  rw [← wraps, newLine_eq_go]
  split
  · simp [go, Token.toList_render]
  · by_cases fresh : p.isFresh = true
    · simp [go, fresh, Token.toList_render]
    · simp [go, fresh, Token.toList_render]

private theorem name_eq_go (style : Style) (p : Pen) {t : Token} (symbol : t.kind = .symbol) :
    p.name style t = (p.go style (p.tightLead 0)).write t.word.chars := by
  have other : t.word.kind ≠ .string := by simp [symbol]
  have chars : t.word.chars = t.value.toList := by
    rw [Word.chars_of_ne_string other, Token.word_kind, symbol]
    rfl
  rw [name, leaveComment_eq_go, chars]

/-- Writing a token draws a stroke behind the comments that stand before the token. -/
theorem token_eq_draw (style : Style) (p : Pen) {t : Token} (name : String) (next : Token)
    (spelled : t.word.IsSpelled) :
    p.token style t name next =
      let q := p.flush style (some t.start.line)
      { q.draw style
          ⟨q.leadOf style t.word next.word name (q.gapBefore t), .word t.word name⟩ with
        line := max q.line t.stop.line } := by
  rw [token]
  generalize p.flush style (some t.start.line) = q
  have line (lead : Lead) : (q.go style lead).line = q.line := by cases lead <;> rfl
  have atom : q.atom style t next = (q.go style (q.atomLead style t.word next.word)).write
      t.word.chars := atom_eq_go style q t next
  cases kind : t.kind with
  | openParen =>
      have chars := Word.chars_of_openParen spelled kind
      simp [openForm, approach_eq_go, leadOf, draw, framesBehind, Mark.chars, kind, chars, line,
        write]
  | closeParen =>
      have chars := Word.chars_of_closeParen spelled kind
      simp [closeForm, leaveComment_eq_go, leadOf, draw, framesBehind, Mark.chars, kind, chars,
        line, write]
  | symbol =>
      by_cases behind : q.previous = some TokenKind.openParen
      · simp [name_eq_go, leadOf, draw, framesBehind, Mark.chars, kind, behind, line, write]
      · simp [atom, leadOf, draw, framesBehind, Mark.chars, kind, behind, line, write]
  | string => simp [atom, leadOf, draw, framesBehind, Mark.chars, kind, line, write]
  | number => simp [atom, leadOf, draw, framesBehind, Mark.chars, kind, line, write]
  | keyword => simp [atom, leadOf, draw, framesBehind, Mark.chars, kind, line, write]
  | param => simp [atom, leadOf, draw, framesBehind, Mark.chars, kind, line, write]
  | hash => simp [atom, leadOf, draw, framesBehind, Mark.chars, kind, line, write]
  | eof => simp [atom, leadOf, draw, framesBehind, Mark.chars, kind, line, write]

/-- The stroke of a comment. -/
def remark (p : Pen) (c : Comment) : Stroke :=
  ⟨.line (p.breaks (p.line + 1 < c.line && p.isUsed)) p.level, .comment c.text⟩

theorem comment_eq_draw (style : Style) (p : Pen) (c : Comment) :
    p.comment style c = { p.draw style (p.remark c) with line := c.line } := by
  rw [comment, newLine_eq_go]
  rfl

/-- The strokes of the comments that are written before a line, or of all that are left. -/
def remarks (style : Style) (before : Option Int) : List Comment → Pen → List Stroke
  | [], _ => []
  | c :: rest, p =>
    if before.any (· ≤ c.line) then []
    else if c.line ≤ p.line then remarks style before rest p
    else p.remark c :: remarks style before rest (p.comment style c)

/-- The stroke of a token, given the name of the form that it opens and the token behind it. -/
def stroke (style : Style) (p : Pen) (t : Token) (name : String) (next : Token) : Stroke :=
  let q := p.flush style (some t.start.line)
  ⟨q.leadOf style t.word next.word name (q.gapBefore t), .word t.word name⟩

/-- The strokes of the tokens up to the end of a source, with those of its comments. -/
def strokes (style : Style) : Pen → List (Token × String) → List Stroke
  | p, [] => remarks style none p.waiting p
  | p, (t, name) :: rest =>
    if t.isEnd then remarks style none p.waiting p
    else
      let next := (rest.head?.map Prod.fst).getD t
      remarks style (some t.start.line) p.waiting p ++
        p.stroke style t name next :: strokes style (p.token style t name next) rest

private theorem text_comments (style : Style) (before : Option Int) (cs : List Comment) (p : Pen) :
    (comments style before cs p).text =
      p.text ++ Stroke.text style (remarks style before cs p) := by
  induction cs generalizing p with
  | nil => exact (List.append_nil p.text).symm
  | cons c rest ih =>
      rw [comments, remarks]
      split
      · exact (List.append_nil p.text).symm
      · split
        · exact ih p
        · have wrote : (p.comment style c).text = p.text ++ (p.remark c).chars style := by
            rw [comment_eq_draw]
            exact text_draw style p (p.remark c)
          rw [ih, wrote, List.append_assoc]
          rfl

private theorem text_token (style : Style) (p : Pen) {t : Token} (name : String) (next : Token)
    (spelled : t.word.IsSpelled) :
    (p.token style t name next).text =
      p.text ++ (Stroke.text style (remarks style (some t.start.line) p.waiting p) ++
        (p.stroke style t name next).chars style) := by
  rw [token_eq_draw style p name next spelled, ← List.append_assoc, ← text_comments]
  exact text_draw style (p.flush style (some t.start.line)) (p.stroke style t name next)

/-- Strokes make up what is written. -/
theorem text_tokens (style : Style) (p : Pen) {entries : List (Token × String)}
    (spelled : ∀ entry ∈ entries, entry.1.kind ≠ .eof → entry.1.word.IsSpelled) :
    (tokens style p entries).text = p.text ++ Stroke.text style (strokes style p entries) := by
  induction entries generalizing p with
  | nil => exact text_comments style none p.waiting p
  | cons entry rest ih =>
      obtain ⟨t, name⟩ := entry
      rw [tokens, strokes]
      split
      · exact text_comments style none p.waiting p
      · rename_i inner
        have head : t.word.IsSpelled :=
          spelled (t, name) List.mem_cons_self (by simpa [Token.isEnd] using inner)
        rw [ih _ fun entry later => spelled entry (List.mem_cons_of_mem _ later),
          text_token style p name _ head, Stroke.text_append, List.append_assoc, List.append_assoc]
        rfl

private theorem words_remarks (style : Style) (before : Option Int) (cs : List Comment) (p : Pen) :
    Stroke.words (remarks style before cs p) = [] := by
  induction cs generalizing p with
  | nil => rfl
  | cons c rest ih =>
      rw [remarks]
      split
      · rfl
      · split
        · exact ih p
        · exact ih (p.comment style c)

/-- Strokes have the words of the tokens that they are drawn for. -/
theorem words_strokes (style : Style) (p : Pen) (entries : List (Token × String)) :
    Stroke.words (strokes style p entries) =
      (entries.takeWhile (!·.1.isEnd)).map fun entry => (entry.1.word, entry.2) := by
  induction entries generalizing p with
  | nil => exact words_remarks style none p.waiting p
  | cons entry rest ih =>
      obtain ⟨t, name⟩ := entry
      rw [strokes]
      cases ends : t.isEnd with
      | true => simp [ends, words_remarks]
      | false =>
          simp only [Bool.false_eq_true, if_false, List.takeWhile_cons, ends, Bool.not_false,
            if_true, List.map_cons, Stroke.words_append, words_remarks, List.nil_append]
          rw [← ih]
          rfl

end Pen
end Wireframe
