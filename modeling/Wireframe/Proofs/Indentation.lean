import Wireframe.Proofs.Lines

/-!
# Indentation of written text

A row that is not blank is begun by one stroke, and the forms open there are those that the rows
above leave open.  The pen chooses the margin of the stroke by its frames, which are the open forms,
so that the indentation of written text shows its nesting.
-/

namespace Wireframe

open Balance

/-- Whether the lines of a text show the nesting of its words. -/
structure Style.Indents (style : Style) (text : List Char) (words : List Token) : Prop where
  /-- A line that is not blank has one indent for each form that the lines above it leave open, or
  one fewer if it begins with a closing parenthesis. -/
  margins : ∀ (n : Nat) line, (Text.lines text)[n]? = some line → ¬Text.IsBlankLine line →
    ∃ level c rest, line = (List.replicate level style.indent).flatten ++ c :: rest ∧
      Text.isBlank c = false ∧
      (level : Int) + (if c = ')' then 1 else 0) = unclosed (words.filter (·.start.line ≤ n))
  /-- A form with a name directly inside a block form begins a line.  A list without a name is
  neither such a form nor a block form. -/
  blocks : ∀ before t name behind parent, Token.named [] words = before ++ (t, name) :: behind →
    t.kind = .openParen → name ≠ "" → (openForms [] before).head? = some parent → parent ≠ "" →
    Schema.isBlockForm parent = true → t.Leads (before.map Prod.fst)

namespace Stroke

variable {style : Style} {strokes front rest : List Stroke} {s : Stroke}

/-- The line breaks of strokes. -/
def breaks : List Stroke → Nat
  | [] => 0
  | s :: rest => s.lead.breaks + breaks rest

theorem breaks_concat (front : List Stroke) (s : Stroke) :
    breaks (front ++ [s]) = breaks front + s.lead.breaks := by
  induction front with
  | nil => exact (Nat.zero_add _).symm
  | cons t front ih => rw [List.cons_append, breaks, ih, breaks, Nat.add_assoc]

theorem line_text (inLine : '\n' ∉ style.indent) {before : Option Mark}
    (legible : Legible before strokes) (p : Position) :
    (p.afterAll (text style strokes)).line = p.line + breaks strokes := by
  induction strokes generalizing before p with
  | nil => simp [breaks]
  | cons s rest ih =>
      obtain ⟨-, sound, later⟩ := legible
      rw [text_cons, Position.afterAll_append, Position.afterAll_append, ih later, line_mark sound,
        line_lead inLine, breaks]
      omega

/-- A row that is not empty goes on from the text before the strokes, or a stroke with line breaks
begins it. -/
theorem begun_of_getElem?_rows {line row : List Char} {n : Nat}
    (isRow : (rows style line strokes)[n]? = some row) (nonempty : row ≠ []) :
    (n = 0 ∧ line <+: row) ∨ ∃ front s rest, strokes = front ++ s :: rest ∧ 0 < s.lead.breaks ∧
      n = breaks (front ++ [s]) ∧ s.body style <+: row := by
  induction strokes generalizing line n with
  | nil =>
      obtain ⟨rfl, rfl⟩ : n = 0 ∧ row = line := by
        cases n with
        | zero => exact ⟨rfl, (Option.some.inj isRow).symm⟩
        | succ n => simp [rows] at isRow
      exact Or.inl ⟨rfl, List.prefix_rfl⟩
  | cons s rest ih =>
      rw [rows] at isRow
      cases stops : s.lead.breaks with
      | zero =>
          rw [stops] at isRow
          rcases ih isRow with ⟨rfl, goesOn⟩ | ⟨front, t, back, rfl, begins, rfl, body⟩
          · exact Or.inl ⟨rfl, (List.prefix_append line _).trans goesOn⟩
          · refine Or.inr ⟨s :: front, t, back, rfl, begins, ?_, body⟩
            simp [breaks, stops]
      | succ k =>
          rw [stops] at isRow
          cases n with
          | zero =>
              obtain rfl : line = row := Option.some.inj isRow
              exact Or.inl ⟨rfl, List.prefix_rfl⟩
          | succ m =>
              right
              rw [List.getElem?_cons_succ] at isRow
              by_cases inside : m < k
              · rw [List.getElem?_append_left (by simpa using inside), List.getElem?_replicate,
                  if_pos inside] at isRow
                exact absurd (Option.some.inj isRow).symm nonempty
              · rw [List.getElem?_append_right (by simpa using inside), List.length_replicate]
                  at isRow
                rcases ih isRow with ⟨first, body⟩ | ⟨front, t, back, rfl, begins, count, body⟩
                · refine ⟨[], s, rest, rfl, by omega, ?_, body⟩
                  rw [breaks_concat, breaks, stops]
                  omega
                · refine ⟨s :: front, t, back, rfl, begins, ?_, body⟩
                  rw [List.cons_append, breaks, ← count, stops]
                  omega

theorem Composed.exists_begun (composed : Composed style strokes) (inLine : '\n' ∉ style.indent)
    {n : Nat} {row : List Char}
    (isRow : (Text.lines (text style strokes ++ ['\n']))[n]? = some row) (nonempty : row ≠ []) :
    ∃ front s rest, strokes = front ++ s :: rest ∧ (front = [] ∨ 0 < s.lead.breaks) ∧
      n = breaks (front ++ [s]) ∧ s.body style <+: row := by
  have legible := composed.legible
  have lines : Text.lines ([] ++ (text style strokes ++ ['\n'])) = rows style [] strokes :=
    lines_text inLine legible List.not_mem_nil
  rw [List.nil_append] at lines
  rw [lines] at isRow
  cases strokes with
  | nil =>
      rcases begun_of_getElem?_rows isRow nonempty with ⟨rfl, -⟩ | ⟨front, t, back, split, -⟩
      · exact absurd (Option.some.inj isRow).symm nonempty
      · simp at split
  | cons s rest =>
      have first := breaks_first legible.1
      rw [rows, first] at isRow
      rcases begun_of_getElem?_rows isRow nonempty with
        ⟨rfl, body⟩ | ⟨front, t, back, rfl, begins, rfl, body⟩
      · exact ⟨[], s, rest, rfl, Or.inl rfl, by simp [breaks, first], body⟩
      · exact ⟨s :: front, t, back, rfl, Or.inr begins, by simp [breaks, first], body⟩

theorem line_le_start (inLine : '\n' ∉ style.indent) {before : Option Mark}
    (legible : Legible before (s :: rest)) (p : Position) :
    ∀ entry ∈ located style p (s :: rest), p.line + s.lead.breaks ≤ entry.1.start.line := by
  obtain ⟨lead, mark⟩ := s
  obtain ⟨-, sound, later⟩ := legible
  have start := line_lead inLine lead p
  have stop := line_mark sound (p.afterAll (lead.chars style))
  have below := (line_le inLine later ((p.afterAll (lead.chars style)).afterAll mark.chars)).1
  rw [stop, start] at below
  intro entry member
  cases mark with
  | word w name =>
      rcases List.mem_cons.mp member with rfl | further
      · exact Int.le_of_eq start.symm
      · exact below entry further
  | comment remark => exact below entry member

/-- The words above a row are those before the stroke that begins it. -/
theorem Composed.above (composed : Composed style strokes) (inLine : '\n' ∉ style.indent)
    (split : strokes = front ++ s :: rest) (begins : front = [] ∨ 0 < s.lead.breaks) :
    ((located style Position.first strokes).map Prod.fst).filter
        (·.start.line ≤ (breaks (front ++ [s]) : Int)) =
      (located style Position.first front).map Prod.fst := by
  obtain ⟨legible, later⟩ := composed.legible_split split
  have line := line_text inLine legible Position.first
  have count := breaks_concat front s
  have kept : ∀ t ∈ (located style Position.first front).map Prod.fst,
      decide (t.start.line ≤ (breaks (front ++ [s]) : Int)) = true := by
    intro t member
    obtain ⟨entry, isEntry, rfl⟩ := List.mem_map.mp member
    obtain ⟨sameLine, above⟩ := stop_le legible Position.first entry isEntry
    have first : Position.first.line = 1 := rfl
    rcases begins with rfl | begins
    · simp [located] at isEntry
    · simp only [decide_eq_true_eq]
      omega
  have dropped : ∀ t ∈ (located style (Position.first.afterAll (text style front))
      (s :: rest)).map Prod.fst, ¬decide (t.start.line ≤ (breaks (front ++ [s]) : Int)) = true := by
    intro t member
    obtain ⟨entry, isEntry, rfl⟩ := List.mem_map.mp member
    have below := line_le_start inLine later _ entry isEntry
    have first : Position.first.line = 1 := rfl
    simp only [decide_eq_true_eq]
    omega
  rw [split, located_append, List.map_append, List.filter_append, List.filter_eq_self.mpr kept,
    List.filter_eq_nil_iff.mpr dropped, List.append_nil]

theorem outward_le (settled : Settled [] (located style Position.first (front ++ s :: rest))) :
    outward s.mark ≤ (openForms [] (located style Position.first front)).length := by
  rw [located_append] at settled
  obtain ⟨later, -⟩ := settled_append settled
  obtain ⟨lead, mark⟩ := s
  cases mark with
  | comment remark => exact Nat.zero_le _
  | word w name =>
      rw [outward]
      split
      · rename_i closes
        refine Nat.one_le_iff_ne_zero.mpr fun none => ?_
        rw [List.eq_nil_of_length_eq_zero none] at later
        exact not_settled_surplus closes later
      · exact Nat.zero_le _

/-- The stroke that begins a row is indented by the forms that the strokes before it leave open. -/
theorem Composed.exists_level (composed : Composed style strokes) (inLine : '\n' ∉ style.indent)
    (settled : Settled [] (located style Position.first strokes))
    (split : strokes = front ++ s :: rest) (begins : front = [] ∨ 0 < s.lead.breaks) :
    ∃ level, s.lead.inLine style = Pen.margin style level ∧
      (level : Int) + outward s.mark =
        unclosed ((located style Position.first front).map Prod.fst) := by
  rw [split] at settled
  have enough := outward_le settled
  rw [located_append] at settled
  have count := (settled_append settled).2
  obtain ⟨p, reached, chosen⟩ := composed.exists_pen inLine split
  have choice := choice_chosenLead style p s.mark rest (1 < s.lead.breaks)
  have open' : p.level = (openForms [] (located style Position.first front)).length := by
    rw [Pen.level, reached.frames, List.length_map]
  obtain ⟨-, follows, -⟩ := composed.legible_split split
  rw [← chosen] at choice
  generalize isLead : s.lead = lead at choice begins ⊢
  cases choice with
  | none =>
      obtain rfl : front = [] := begins.resolve_right (Nat.lt_irrefl 0)
      have closed : outward s.mark = 0 := Nat.le_zero.mp enough
      exact ⟨0, rfl, by simp [closed, located, unclosed]⟩
  | space =>
      obtain rfl : front = [] := begins.resolve_right (Nat.lt_irrefl 0)
      obtain ⟨lead, mark⟩ := s
      cases follows <;> cases isLead
  | line blank =>
      refine ⟨p.level - outward s.mark, rfl, ?_⟩
      simp only [List.length_nil] at count
      omega

theorem outward_eq {mark : Mark} (sound : mark.IsSound) {c : Char} {tail : List Char}
    (chars : mark.chars = c :: tail) : outward mark = if c = ')' then 1 else 0 := by
  cases mark with
  | comment remark =>
      obtain ⟨⟨line, start, -⟩, -⟩ := sound
      obtain ⟨rfl, -⟩ := List.cons.inj (start.symm.trans chars)
      rfl
  | word w name =>
      by_cases closes : w.kind = .closeParen
      · obtain ⟨rfl, -⟩ := List.cons.inj ((Word.chars_of_closeParen sound closes).symm.trans chars)
        simp [outward, closes]
      · have other : c ≠ ')' := by
          rintro rfl
          by_cases string : w.kind = .string
          · obtain ⟨quote, -⟩ := List.cons.inj ((Word.chars_of_string string).symm.trans chars)
            exact absurd quote (by decide)
          · have first : ')' ∈ w.chars := by
              change w.chars = _ at chars
              rw [chars]
              exact List.mem_cons_self
            cases Word.isWordChar_of_mem_chars sound string first with
            | symbol inside => exact absurd inside (by decide)
            | sign isSign => exact absurd isSign (by decide)
            | closer closes' => exact closes closes'
        rw [outward, if_neg closes, if_neg other]

theorem Composed.margins (composed : Composed style strokes) (inLine : '\n' ∉ style.indent)
    (settled : Settled [] (located style Position.first strokes)) {n : Nat} {line : List Char}
    (isLine : (Text.lines (text style strokes ++ ['\n']))[n]? = some line)
    (visible : ¬Text.IsBlankLine line) :
    ∃ level c rest, line = Pen.margin style level ++ c :: rest ∧ Text.isBlank c = false ∧
      (level : Int) + (if c = ')' then 1 else 0) =
        unclosed (((located style Position.first strokes).map Prod.fst).filter
          (·.start.line ≤ n)) := by
  have nonempty : line ≠ [] := by
    rintro rfl
    exact visible fun c member => absurd member List.not_mem_nil
  obtain ⟨front, s, rest, split, begins, rfl, more, body⟩ :=
    composed.exists_begun inLine isLine nonempty
  obtain ⟨-, -, sound, -⟩ := composed.legible_split split
  obtain ⟨c, tail, chars, notBlank⟩ := Mark.exists_first sound
  obtain ⟨level, margin, count⟩ := composed.exists_level inLine settled split begins
  rw [outward_eq sound chars] at count
  refine ⟨level, c, tail ++ more, ?_, notBlank, ?_⟩
  · rw [← body, Stroke.body, margin, chars, List.append_assoc, List.cons_append]
  · rw [composed.above inLine split begins, ← count]
    split
    · rfl
    · rfl

theorem Composed.blocks (composed : Composed style strokes) (inLine : '\n' ∉ style.indent)
    {before behind : List (Token × String)} {t : Token} {name parent : String}
    (split : located style Position.first strokes = before ++ (t, name) :: behind)
    (opens : t.kind = .openParen) (named : name ≠ "")
    (inside : (openForms [] before).head? = some parent) (parentNamed : parent ≠ "")
    (block : Schema.isBlockForm parent = true) : t.Leads (before.map Prod.fst) := by
  obtain ⟨front, lead, w, rest, strokesEq, rfl, rfl⟩ := exists_stroke split
  obtain ⟨p, reached, chosen⟩ := composed.exists_pen inLine strokesEq
  obtain ⟨legible, -⟩ := composed.legible_split strokesEq
  obtain ⟨outer, frames⟩ := List.head?_eq_some_iff.mp inside
  have onPage : p.frames = Frame.ofName parent :: outer.map Frame.ofName := by
    rw [reached.frames, frames, List.map_cons]
  have isBlock : (Frame.ofName parent).isBlock = true := by simp [Frame.ofName, parentNamed, block]
  have behind := reached.behind
  cases last : front.getLast?.map mark with
  | none =>
      rw [Option.map_eq_none_iff, List.getLast?_eq_none_iff] at last
      simp [last, located, openForms] at inside
  | some mark =>
      rw [last] at behind
      refine leads_of_breaks inLine legible ?_ w
      have kind : w.kind = .openParen := opens
      change lead = p.leadOf style w (nextWord rest) name (1 < lead.breaks) at chosen
      rw [chosen, Pen.leadOf, kind, Pen.openLead, onPage]
      simp only [if_pos (And.intro named isBlock)]
      exact behind.breaks_pos _

end Stroke

namespace Style

open Stroke

/-- The indentation of formatted text shows its nesting. -/
theorem format_indents (style : Style) (unmarked : ∀ c ∈ style.indent, c = ' ' ∨ c = '\t')
    {source : String} {tokens : List Token} (found : Token.ofSource source = .ok tokens) :
    ∃ text words e, style.format source = .ok text ∧
      Token.ofSource text = .ok (words ++ [Token.eof e]) ∧ style.Indents text.toList words := by
  obtain ⟨e, read⟩ := ofSource_strokes (isSpace_indent unmarked) found
  have composed := style.composed_strokes found
  have inLine := newline_not_mem_indent unmarked
  have named := style.named_located (Comment.ofSource source) tokens Position.first
  refine ⟨_, _, e, style.format_eq found, read, ?_, ?_⟩
  · rw [String.toList_ofList]
    have words := (style.located_strokes (Comment.ofSource source) tokens Position.first).1
    have settled := settled_named_congr words.symm (settled_ofTokens tokens)
    rw [named] at settled
    exact fun n line isLine => composed.margins inLine settled isLine
  · rw [named]
    exact fun before t name behind parent split => composed.blocks inLine split

theorem format_indents_unclosed :
    ∃ text words e, (Style.mk [' ', '\t'] 0).format "(wire (b c\n;d\n) (" = .ok text ∧
      Token.ofSource text = .ok (words ++ [Token.eof e]) ∧
      (Style.mk [' ', '\t'] 0).Indents text.toList words := by
  have tokens : Token.ofSource "(wire (b c\n;d\n) (" =
      .ok [⟨.openParen, "(", ⟨1, 1⟩, ⟨1, 2⟩⟩, ⟨.symbol, "wire", ⟨1, 2⟩, ⟨1, 6⟩⟩,
        ⟨.openParen, "(", ⟨1, 7⟩, ⟨1, 8⟩⟩, ⟨.symbol, "b", ⟨1, 8⟩, ⟨1, 9⟩⟩,
        ⟨.symbol, "c", ⟨1, 10⟩, ⟨1, 11⟩⟩, ⟨.closeParen, ")", ⟨3, 1⟩, ⟨3, 2⟩⟩,
        ⟨.openParen, "(", ⟨3, 3⟩, ⟨3, 4⟩⟩, Token.eof ⟨3, 4⟩] := by
    cbv
  exact format_indents ⟨[' ', '\t'], 0⟩ (by simp) tokens

end Style
end Wireframe
