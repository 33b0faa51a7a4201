import Mathlib.Data.List.Chain
import Wireframe.Proofs.Course
import Wireframe.Proofs.Passing

/-!
# Lines of written text

The lines of written text are the rows that strokes make up: a lead with line breaks ends a row and
begins one, with a blank row between them if it has two breaks.  A row other than a blank one begins
with a margin and a mark, and ends with a mark; no mark begins or ends with a blank.
-/

namespace Wireframe

namespace Text

/-- The lines of a text without the breaks that end them.  What stands behind the last break is a
line unless it is empty. -/
def lines : List Char → List (List Char)
  | [] => []
  | c :: cs =>
    if c = '\n' then [] :: lines cs
    else
      match lines cs with
      | [] => [[c]]
      | line :: later => (c :: line) :: later

/-- Whether a line holds only blanks. -/
def IsBlankLine (line : List Char) : Prop :=
  ∀ c ∈ line, isBlank c = true

/-- Whether a text ends with one line break, has no blanks at the end of a line, never two blank
lines in a row, and none at its start. -/
structure IsTidy (text : List Char) : Prop where
  /-- The text ends with a line break, and what is before that does not. -/
  ended : ∃ body, text = body ++ ['\n'] ∧ body.getLast? ≠ some '\n'
  /-- No line ends with a blank. -/
  trimmed : ∀ line ∈ lines text, ∀ c, line.getLast? = some c → isBlank c = false
  /-- No blank line stands right below another. -/
  spaced : (lines text).IsChain fun upper lower => ¬(IsBlankLine upper ∧ IsBlankLine lower)
  /-- The first line is blank only if it is all there is. -/
  begun : ∀ line, (lines text).head? = some line → IsBlankLine line → text = ['\n']

theorem lines_append {line : List Char} (inLine : '\n' ∉ line) (rest : List Char) :
    lines (line ++ '\n' :: rest) = line :: lines rest := by
  induction line with
  | nil => simp [lines]
  | cons c line ih =>
      obtain ⟨notNewline, later⟩ := List.ne_and_not_mem_of_not_mem_cons inLine
      rw [List.cons_append, lines, if_neg notNewline.symm, ih later]

theorem lines_breaks (n : Nat) (rest : List Char) :
    lines (List.replicate n '\n' ++ rest) = List.replicate n [] ++ lines rest := by
  induction n with
  | zero => rfl
  | succ n ih =>
      rw [List.replicate_succ, List.cons_append, ← List.nil_append ('\n' :: _),
        lines_append List.not_mem_nil, ih]
      rfl

example : lines ['a', '\n', '\n', 'b'] = [['a'], [], ['b']] := by
  decide

/-- Whether a line ends with a character that is not blank. -/
def EndsVisibly (line : List Char) : Prop :=
  ∃ front c, line = front ++ [c] ∧ isBlank c = false

theorem EndsVisibly.prepend {line : List Char} (visible : EndsVisibly line) (front : List Char) :
    EndsVisibly (front ++ line) := by
  obtain ⟨inner, c, rfl, notBlank⟩ := visible
  exact ⟨front ++ inner, c, (List.append_assoc front inner [c]).symm, notBlank⟩

theorem EndsVisibly.not_blank {line : List Char} (visible : EndsVisibly line) :
    ¬IsBlankLine line := by
  obtain ⟨front, c, rfl, notBlank⟩ := visible
  intro blank
  rw [blank c (List.mem_append_right front List.mem_cons_self)] at notBlank
  exact absurd notBlank (by decide)

theorem EndsVisibly.getLast? {line : List Char} (visible : EndsVisibly line) {c : Char}
    (last : line.getLast? = some c) : isBlank c = false := by
  obtain ⟨front, d, rfl, notBlank⟩ := visible
  rw [List.getLast?_concat] at last
  exact Option.some.inj last ▸ notBlank

end Text

namespace Word

theorem isBlank_of_mem_chars {w : Word} (spelled : w.IsSpelled) (other : w.kind ≠ .string)
    {c : Char} (member : c ∈ w.chars) : Text.isBlank c = false := by
  cases isWordChar_of_mem_chars spelled other member with
  | symbol inside =>
      simp only [Lexeme.isSymbolChar, Bool.or_eq_true, beq_iff_eq] at inside
      rcases inside with (starts | digit) | rfl
      · obtain ⟨low, high⟩ := Lexeme.bounds_of_isSymbolStart starts
        exact Lexeme.isBlank_of_bounds low high
      · obtain ⟨low, high⟩ := Lexeme.bounds_of_isDigit digit
        exact Lexeme.isBlank_of_bounds low high
      · decide
  | sign isSign =>
      simp only [List.mem_cons, List.not_mem_nil, or_false] at isSign
      rcases isSign with rfl | rfl | rfl | rfl <;> decide
  | opener => decide
  | closer => decide

theorem exists_first {w : Word} (spelled : w.IsSpelled) :
    ∃ c tail, w.chars = c :: tail ∧ Text.isBlank c = false := by
  have ends : w.EndsBefore [] := Or.inr (by simp [Breaks])
  obtain ⟨c, tail, chars, reads⟩ := readsAs_chars spelled ends
  exact ⟨c, tail, chars, Lexeme.isBlank_of_read reads.read⟩

theorem endsVisibly_chars {w : Word} (spelled : w.IsSpelled) : Text.EndsVisibly w.chars := by
  by_cases string : w.kind = .string
  · rw [chars_of_string string, ← List.cons_append]
    exact ⟨_, '"', rfl, by decide⟩
  · obtain ⟨c, tail, chars, -⟩ := exists_first spelled
    have nonempty : w.chars ≠ [] := by simp [chars]
    exact ⟨_, _, (List.dropLast_concat_getLast nonempty).symm,
      isBlank_of_mem_chars spelled string (List.getLast_mem nonempty)⟩

end Word

theorem IsRemark.endsVisibly {text : String} (remark : IsRemark text) :
    Text.EndsVisibly text.toList := by
  obtain ⟨⟨line, chars, -⟩, trimmed⟩ := remark
  have nonempty : text.toList ≠ [] := by simp [chars]
  have last := List.rdropWhile_eq_self_iff.mp trimmed nonempty
  exact ⟨_, _, (List.dropLast_concat_getLast nonempty).symm, Bool.eq_false_iff.mpr last⟩

namespace Mark

theorem exists_first {mark : Mark} (sound : mark.IsSound) :
    ∃ c tail, mark.chars = c :: tail ∧ Text.isBlank c = false := by
  cases mark with
  | word w name => exact Word.exists_first sound
  | comment text =>
      obtain ⟨⟨line, chars, -⟩, -⟩ := sound
      exact ⟨';', line, chars, by decide⟩

theorem endsVisibly_chars {mark : Mark} (sound : mark.IsSound) : Text.EndsVisibly mark.chars := by
  cases mark with
  | word w name => exact Word.endsVisibly_chars sound
  | comment text => exact IsRemark.endsVisibly sound

end Mark

/-- What a lead writes in the line of its mark. -/
def Lead.inLine (style : Style) : Lead → List Char
  | none => []
  | space => [' ']
  | line _ level => Pen.margin style level

theorem Lead.chars_eq (style : Style) (lead : Lead) :
    lead.chars style = List.replicate lead.breaks '\n' ++ lead.inLine style := by
  cases lead <;> rfl

namespace Stroke

variable {style : Style}

/-- What a stroke writes in the line of its mark. -/
def body (style : Style) (s : Stroke) : List Char :=
  s.lead.inLine style ++ s.mark.chars

/-- The lines of strokes, the first of which goes on from a text. -/
def rows (style : Style) : List Char → List Stroke → List (List Char)
  | line, [] => [line]
  | line, s :: rest =>
    match s.lead.breaks with
    | 0 => rows style (line ++ s.body style) rest
    | n + 1 => line :: (List.replicate n [] ++ rows style (s.body style) rest)

theorem newline_not_mem_body (inLine : '\n' ∉ style.indent) {s : Stroke} (sound : s.mark.IsSound) :
    '\n' ∉ s.body style := by
  intro member
  rcases List.mem_append.mp member with inLead | inMark
  · obtain ⟨lead, mark⟩ := s
    cases lead with
    | none => simp [Lead.inLine] at inLead
    | space => simp [Lead.inLine] at inLead
    | line breaks level => exact Pen.newline_not_mem_margin inLine level inLead
  · exact newline_not_mem_mark sound inMark

/-- The lines of written text are the rows of the strokes. -/
theorem lines_text (inLine : '\n' ∉ style.indent) {before : Option Mark} {strokes : List Stroke}
    (legible : Legible before strokes) {line : List Char} (fresh : '\n' ∉ line) :
    Text.lines (line ++ (text style strokes ++ ['\n'])) = rows style line strokes := by
  induction strokes generalizing before line with
  | nil => exact Text.lines_append fresh []
  | cons s rest ih =>
      obtain ⟨-, sound, later⟩ := legible
      have body := newline_not_mem_body inLine sound
      have chars : text style (s :: rest) ++ ['\n'] =
          List.replicate s.lead.breaks '\n' ++ (s.body style ++ (text style rest ++ ['\n'])) := by
        simp [Lead.chars_eq, Stroke.body]
      rw [chars, rows]
      cases s.lead.breaks with
      | zero =>
          have going : '\n' ∉ line ++ s.body style := by simp [fresh, body]
          rw [List.replicate_zero, List.nil_append, ← List.append_assoc, ih later going]
      | succ n =>
          rw [List.replicate_succ, List.cons_append, Text.lines_append fresh, Text.lines_breaks,
            ih later body]

/-- Whether lines begin with one that ends visibly, and go on with such lines and empty ones between
them. -/
structure Ruled (lines : List (List Char)) : Prop where
  first : ∃ line later, lines = line :: later ∧ Text.EndsVisibly line
  visible : ∀ line ∈ lines, line = [] ∨ Text.EndsVisibly line
  spaced : lines.IsChain fun upper lower => Text.EndsVisibly upper ∨ Text.EndsVisibly lower

theorem Ruled.below {lines : List (List Char)} (ruled : Ruled lines) {line : List Char}
    (visible : Text.EndsVisibly line) {n : Nat} (few : n ≤ 1) :
    Ruled (line :: (List.replicate n [] ++ lines)) := by
  obtain ⟨⟨first, later, rfl, firstVisible⟩, visibles, spaced⟩ := ruled
  refine ⟨⟨line, _, rfl, visible⟩, ?_, ?_⟩
  · intro other member
    simp only [List.mem_cons, List.mem_append, List.mem_replicate] at member
    rcases member with rfl | ⟨-, rfl⟩ | isLater
    · exact Or.inr visible
    · exact Or.inl rfl
    · exact visibles other (List.mem_cons.mpr isLater)
  · obtain rfl | rfl : n = 0 ∨ n = 1 := by omega
    · exact List.IsChain.cons_cons (Or.inl visible) spaced
    · exact List.IsChain.cons_cons (Or.inl visible)
        (List.IsChain.cons_cons (Or.inr firstVisible) spaced)

/-- Strokes with at most two breaks each rule their lines. -/
theorem ruled_rows {before : Option Mark} {strokes : List Stroke}
    (legible : Legible before strokes) (few : ∀ s ∈ strokes, s.lead.breaks ≤ 2) {line : List Char}
    (visible : Text.EndsVisibly line) : Ruled (rows style line strokes) := by
  induction strokes generalizing before line with
  | nil =>
      refine ⟨⟨line, [], rfl, visible⟩, fun other member => ?_, .singleton line⟩
      rw [List.mem_singleton.mp member]
      exact Or.inr visible
  | cons s rest ih =>
      obtain ⟨-, sound, later⟩ := legible
      have body : Text.EndsVisibly (s.body style) := (Mark.endsVisibly_chars sound).prepend _
      have fewLater t member := few t (List.mem_cons_of_mem s member)
      have fewBreaks := few s List.mem_cons_self
      rw [rows]
      cases breaks : s.lead.breaks with
      | zero => exact ih later fewLater (body.prepend line)
      | succ n => exact (ih later fewLater body).below visible (by omega)

theorem breaks_le_two (p : Pen) (blank : Bool) : p.breaks blank ≤ 2 := by
  unfold Pen.breaks
  cases p.isUsed <;> cases blank <;> decide

theorem Composed.breaks_le {strokes : List Stroke} (composed : Composed style strokes)
    (inLine : '\n' ∉ style.indent) {s : Stroke} (member : s ∈ strokes) : s.lead.breaks ≤ 2 := by
  obtain ⟨front, rest, split⟩ := List.append_of_mem member
  obtain ⟨p, -, chosen⟩ := composed.exists_pen inLine split
  have choice := choice_chosenLead style p s.mark rest (1 < s.lead.breaks)
  rw [← chosen] at choice
  cases lead : s.lead with
  | none => exact Nat.zero_le 2
  | space => exact Nat.zero_le 2
  | line breaks level =>
      rw [lead] at choice
      cases choice with
      | line blank => exact breaks_le_two p blank

/-- The first stroke begins the first line. -/
theorem breaks_first {s : Stroke} (follows : s.Follows none) : s.lead.breaks = 0 := by
  cases follows <;> rfl

theorem tidy_of_ruled {body : List Char} (visible : Text.EndsVisibly body)
    (ruled : Ruled (Text.lines (body ++ ['\n']))) : Text.IsTidy (body ++ ['\n']) := by
  obtain ⟨⟨first, later, lines, firstVisible⟩, visibles, spaced⟩ := ruled
  refine ⟨⟨body, rfl, fun newline => ?_⟩, fun line member c last => ?_, ?_,
    fun line head blank => ?_⟩
  · exact absurd (visible.getLast? newline) (by decide)
  · rcases visibles line member with rfl | lineVisible
    · simp at last
    · exact lineVisible.getLast? last
  · refine spaced.imp fun upper lower seen blank => ?_
    rcases seen with upperVisible | lowerVisible
    · exact upperVisible.not_blank blank.1
    · exact lowerVisible.not_blank blank.2
  · rw [lines] at head
    exact absurd (Option.some.inj head ▸ blank) firstVisible.not_blank

theorem endsVisibly_text {before : Option Mark} {strokes : List Stroke}
    (legible : Legible before strokes) (some : strokes ≠ []) :
    Text.EndsVisibly (text style strokes) := by
  induction strokes generalizing before with
  | nil => exact absurd rfl some
  | cons s rest ih =>
      obtain ⟨-, sound, later⟩ := legible
      rw [text_cons, ← List.append_assoc]
      cases rest with
      | nil =>
          rw [text_nil, List.append_nil]
          exact (Mark.endsVisibly_chars sound).prepend _
      | cons t rest => exact (ih later (List.cons_ne_nil t rest)).prepend _

/-- Text that the pen writes is tidy. -/
theorem Composed.tidy {strokes : List Stroke} (composed : Composed style strokes)
    (inLine : '\n' ∉ style.indent) : Text.IsTidy (text style strokes ++ ['\n']) := by
  have legible := composed.legible
  cases strokes with
  | nil =>
      refine ⟨⟨[], rfl, by simp⟩, fun line member c last => ?_, .singleton [], fun _ _ _ => rfl⟩
      rw [List.mem_singleton.mp member] at last
      simp at last
  | cons s rest =>
      have lines : Text.lines ([] ++ (text style (s :: rest) ++ ['\n'])) =
          rows style [] (s :: rest) := lines_text inLine legible List.not_mem_nil
      obtain ⟨follows, sound, later⟩ := legible
      have few t (isLater : t ∈ rest) := composed.breaks_le inLine (List.mem_cons_of_mem s isLater)
      have body : Text.EndsVisibly (s.body style) := (Mark.endsVisibly_chars sound).prepend _
      have ruled : Ruled (rows style (s.body style) rest) := ruled_rows later few body
      rw [rows, breaks_first follows] at lines
      refine tidy_of_ruled (endsVisibly_text composed.legible (List.cons_ne_nil s rest)) ?_
      exact lines ▸ ruled

end Stroke

namespace Style

open Stroke

/-- Formatted text is tidy. -/
theorem format_tidy (style : Style) (unmarked : ∀ c ∈ style.indent, c = ' ' ∨ c = '\t')
    {source : String} {tokens : List Token} (found : Token.ofSource source = .ok tokens) :
    ∃ text, style.format source = .ok text ∧ Text.IsTidy text.toList := by
  refine ⟨_, style.format_eq found, ?_⟩
  rw [String.toList_ofList]
  exact (style.composed_strokes found).tidy (newline_not_mem_indent unmarked)

theorem format_tidy_unclosed :
    ∃ text, (Style.mk ['\t'] (-1)).format "(wire\n\n;a\n(b" = .ok text ∧
      Text.IsTidy text.toList := by
  have tokens : Token.ofSource "(wire\n\n;a\n(b" =
      .ok [⟨.openParen, "(", ⟨1, 1⟩, ⟨1, 2⟩⟩, ⟨.symbol, "wire", ⟨1, 2⟩, ⟨1, 6⟩⟩,
        ⟨.openParen, "(", ⟨4, 1⟩, ⟨4, 2⟩⟩, ⟨.symbol, "b", ⟨4, 2⟩, ⟨4, 3⟩⟩, Token.eof ⟨4, 3⟩] := by
    cbv
  exact format_tidy ⟨['\t'], -1⟩ (by simp) tokens

end Style
end Wireframe
