import Wireframe.Proofs.Legible

/-!
# Comments of written text

A mark stays in its line, so that the line of a mark is known from the leads before it.  The
comments found in the text of legible strokes are the comments of the strokes, each on a line of its
own: a semicolon in a text stands between quotes, and no other word has one.
-/

namespace Wireframe

namespace Word

/-- What a character of a word may be, unless the word is a text. -/
inductive IsWordChar (kind : TokenKind) : Char → Prop
  | symbol {c : Char} (inside : Lexeme.isSymbolChar c = true) : IsWordChar kind c
  | sign {c : Char} (isSign : c ∈ ['.', ':', '$', '#']) : IsWordChar kind c
  | opener (opens : kind = .openParen) : IsWordChar kind '('
  | closer (closes : kind = .closeParen) : IsWordChar kind ')'

private theorem IsWordChar.digit {kind : TokenKind} {c : Char} (digit : Lexeme.isDigit c = true) :
    IsWordChar kind c :=
  .symbol (by simp [Lexeme.isSymbolChar, digit])

private theorem IsWordChar.ofNumeral {kind : TokenKind} {cs : List Char} (numeral : IsNumeral cs)
    {c : Char} (member : c ∈ cs) : IsWordChar kind c := by
  obtain ⟨sign, digits, fraction, rfl, signShape, ⟨-, isDigit⟩, shape⟩ := numeral
  rcases List.mem_append.mp member with front | inFraction
  · rcases List.mem_append.mp front with inSign | inDigits
    · rcases signShape with rfl | rfl
      · simp at inSign
      · obtain rfl := List.mem_singleton.mp inSign
        exact .symbol (by decide)
    · exact .digit (isDigit c inDigits)
  · rcases shape with rfl | ⟨decimals, rfl, -, inside⟩
    · simp at inFraction
    · rcases List.mem_cons.mp inFraction with rfl | later
      · exact .sign (by decide)
      · exact .digit (inside c later)

private theorem IsWordChar.ofMark {kind : TokenKind} {c : Char} (member : c ∈ kind.mark.toList) :
    IsWordChar kind c := by
  refine .sign ?_
  cases kind <;> simp [TokenKind.mark] at member <;> simp [member]

private theorem IsWordChar.ofValue {w : Word} (spelled : w.IsSpelled) (other : w.kind ≠ .string)
    {c : Char} (member : c ∈ w.value.toList) : IsWordChar w.kind c := by
  cases kind : w.kind with
  | string => exact absurd kind other
  | eof => simp [IsSpelled, kind] at spelled
  | openParen =>
      rw [IsSpelled, kind] at spelled
      obtain rfl := List.mem_singleton.mp (spelled ▸ member)
      exact .opener rfl
  | closeParen =>
      rw [IsSpelled, kind] at spelled
      obtain rfl := List.mem_singleton.mp (spelled ▸ member)
      exact .closer rfl
  | number =>
      rw [IsSpelled, kind] at spelled
      exact .ofNumeral spelled member
  | symbol =>
      rw [IsSpelled, kind] at spelled
      obtain ⟨d, tail, value, starts, inside⟩ := spelled
      rcases List.mem_cons.mp (value ▸ member) with rfl | later
      · exact .symbol (by simp [Lexeme.isSymbolChar, starts])
      · exact .symbol (inside c later)
  | keyword =>
      rw [IsSpelled, kind] at spelled
      exact .symbol (spelled.2 c member)
  | param =>
      rw [IsSpelled, kind] at spelled
      exact .symbol (spelled.2 c member)
  | hash =>
      rw [IsSpelled, kind] at spelled
      exact .symbol (spelled.2 c member)

theorem isWordChar_of_mem_chars {w : Word} (spelled : w.IsSpelled) (other : w.kind ≠ .string)
    {c : Char} (member : c ∈ w.chars) : IsWordChar w.kind c := by
  rw [chars_of_ne_string other] at member
  rcases List.mem_append.mp member with inMark | inValue
  · exact .ofMark inMark
  · exact .ofValue spelled other inValue

theorem plain_chars {w : Word} (spelled : w.IsSpelled) (other : w.kind ≠ .string) {c : Char}
    (member : c ∈ w.chars) : c ≠ ';' ∧ c ≠ '"' ∧ c ≠ '\n' := by
  cases isWordChar_of_mem_chars spelled other member with
  | symbol inside =>
      refine ⟨?_, ?_, ?_⟩
      · rintro rfl
        exact absurd inside (by decide)
      · rintro rfl
        exact absurd inside (by decide)
      · rintro rfl
        exact absurd inside (by decide)
  | sign isSign =>
      simp only [List.mem_cons, List.not_mem_nil, or_false] at isSign
      rcases isSign with rfl | rfl | rfl | rfl <;> decide
  | opener => decide
  | closer => decide

theorem newline_not_mem_chars {w : Word} (spelled : w.IsSpelled) : '\n' ∉ w.chars := by
  intro member
  by_cases string : w.kind = .string
  · rw [chars_of_string string] at member
    rcases List.mem_cons.mp member with quote | later
    · exact absurd quote (by decide)
    · rcases List.mem_append.mp later with inside | quote
      · obtain ⟨c, -, inEscape⟩ := List.mem_flatMap.mp inside
        rcases escapeChar_cases c with ⟨plain, -, -, notNewline⟩ | ⟨e, escape, notNewline, -⟩
        · rw [plain] at inEscape
          exact notNewline (List.mem_singleton.mp inEscape).symm
        · rw [escape] at inEscape
          rcases List.mem_cons.mp inEscape with backslash | last
          · exact absurd backslash (by decide)
          · exact notNewline (List.mem_singleton.mp last).symm
      · exact absurd (List.mem_singleton.mp quote) (by decide)
  · exact (plain_chars spelled string member).2.2 rfl

end Word

theorem Position.line_afterAll (p : Position) (cs : List Char) :
    (p.afterAll cs).line = p.line + cs.count '\n' := by
  induction cs generalizing p with
  | nil => simp
  | cons c cs ih =>
      rw [Position.afterAll_cons, ih, List.count_cons]
      by_cases newline : c = '\n'
      · simp [Position.after, newline]
        omega
      · simp [Position.after, newline]

namespace Stroke

variable {style : Style}

theorem newline_not_mem_mark {mark : Mark} (sound : mark.IsSound) : '\n' ∉ mark.chars := by
  cases mark with
  | word w name => exact Word.newline_not_mem_chars sound
  | comment text =>
      obtain ⟨⟨line, chars, inLine⟩, -⟩ := sound
      change '\n' ∉ text.toList
      rw [chars]
      intro member
      rcases List.mem_cons.mp member with semicolon | later
      · exact absurd semicolon (by decide)
      · exact inLine later

theorem line_mark {mark : Mark} (sound : mark.IsSound) (p : Position) :
    (p.afterAll mark.chars).line = p.line := by
  rw [Position.line_afterAll, List.count_eq_zero.mpr (newline_not_mem_mark sound)]
  simp

/-- A mark begins as many lines further down as its lead has line breaks. -/
theorem line_lead (inLine : '\n' ∉ style.indent) (lead : Lead) (p : Position) :
    (p.afterAll (lead.chars style)).line = p.line + lead.breaks := by
  rw [Position.line_afterAll]
  cases lead with
  | none => rfl
  | space => rfl
  | line breaks level =>
      have margin : (Pen.margin style level).count '\n' = 0 := by
        refine List.count_eq_zero.mpr fun member => ?_
        obtain ⟨part, isPart, inside⟩ := List.mem_flatten.mp member
        obtain rfl := List.eq_of_mem_replicate isPart
        exact inLine inside
      rw [Lead.chars, List.count_append, margin, List.count_replicate_self]
      rfl

/-- The comments of strokes at their places in a text that begins at a position. -/
def remarks (style : Style) : Position → List Stroke → List Comment
  | _, [] => []
  | p, s :: rest =>
    let start := p.afterAll (s.lead.chars style)
    let stop := start.afterAll s.mark.chars
    match s.mark with
    | .word _ _ => remarks style stop rest
    | .comment text => ⟨start.line, start.column, text, true⟩ :: remarks style stop rest

/-- No mark stands above the place where the strokes begin. -/
theorem line_le (inLine : '\n' ∉ style.indent) {before : Option Mark} {strokes : List Stroke}
    (legible : Legible before strokes) (p : Position) :
    (∀ entry ∈ located style p strokes, p.line ≤ entry.1.start.line) ∧
      ∀ c ∈ remarks style p strokes, p.line ≤ c.line := by
  induction strokes generalizing before p with
  | nil => exact ⟨by simp [located], by simp [remarks]⟩
  | cons s rest ih =>
      obtain ⟨lead, mark⟩ := s
      obtain ⟨-, sound, later⟩ := legible
      have start := line_lead inLine lead p
      have stop := line_mark sound (p.afterAll (lead.chars style))
      obtain ⟨entries, comments⟩ := ih later ((p.afterAll (lead.chars style)).afterAll mark.chars)
      rw [stop, start] at entries comments
      have entries' entry member := Int.le_trans (Int.le_add_of_nonneg_right (Int.natCast_nonneg _))
        (entries entry member)
      have comments' c member := Int.le_trans (Int.le_add_of_nonneg_right (Int.natCast_nonneg _))
        (comments c member)
      cases mark with
      | word w name =>
          refine ⟨fun entry member => ?_, comments'⟩
          rcases List.mem_cons.mp member with rfl | further
          · change p.line ≤ (p.afterAll (lead.chars style)).line
            omega
          · exact entries' entry further
      | comment text =>
          refine ⟨entries', fun c member => ?_⟩
          rcases List.mem_cons.mp member with rfl | further
          · change p.line ≤ (p.afterAll (lead.chars style)).line
            omega
          · exact comments' c further

/-- Behind a comment, all words stand below it. -/
theorem line_lt_of_comment (inLine : '\n' ∉ style.indent) {text : String} {strokes : List Stroke}
    (legible : Legible (some (.comment text)) strokes) (p : Position) :
    ∀ entry ∈ located style p strokes, p.line < entry.1.start.line := by
  cases strokes with
  | nil => simp [located]
  | cons s rest =>
      obtain ⟨follows, sound, later⟩ := legible
      cases follows with
      | @line _ mark breaks level positive =>
          have start := line_lead inLine (.line breaks level) p
          have stop := line_mark sound (p.afterAll ((Lead.line breaks level).chars style))
          have entries := (line_le inLine later
            ((p.afterAll ((Lead.line breaks level).chars style)).afterAll mark.chars)).1
          rw [stop, start] at entries
          simp only [Lead.breaks] at start entries
          intro entry member
          cases mark with
          | word w name =>
              rcases List.mem_cons.mp member with rfl | further
              · change p.line < (p.afterAll ((Lead.line breaks level).chars style)).line
                omega
              · have := entries entry further
                omega
          | comment text =>
              have := entries entry member
              omega

end Stroke

namespace Comment

variable {p : Position} {blank : Bool} {rest : List Char}

theorem ofChars_cons {s : Scan} {c : Char} (quiet : s.startsComment c = false) :
    ofChars s (c :: rest) = ofChars (s.step c) rest := by
  rw [ofChars, if_neg (by simp [quiet])]

/-- Whether a line holds only blanks behind a character. -/
def blankAfter (blank : Bool) (c : Char) : Bool :=
  c == '\n' || (blank && Text.isBlank c)

theorem ofChars_cons_plain {c : Char} (notSemicolon : c ≠ ';') (notQuote : c ≠ '"') :
    ofChars ⟨false, false, blank, p⟩ (c :: rest) =
      ofChars ⟨false, false, blankAfter blank c, p.after c⟩ rest := by
  rw [ofChars_cons (by simp [Scan.startsComment, notSemicolon])]
  by_cases newline : c = '\n'
  · simp [Scan.step, blankAfter, newline]
  · have notNewline : (c == '\n') = false := by simpa using newline
    simp [Scan.step, blankAfter, newline, notNewline, notQuote]

/-- Outside quotes, characters other than semicolons and quotes are passed over. -/
theorem ofChars_plain {cs : List Char} (plain : ∀ c ∈ cs, c ≠ ';' ∧ c ≠ '"') :
    ofChars ⟨false, false, blank, p⟩ (cs ++ rest) =
      ofChars ⟨false, false, cs.foldl blankAfter blank, p.afterAll cs⟩ rest := by
  induction cs generalizing blank p with
  | nil => rfl
  | cons c cs ih =>
      obtain ⟨notSemicolon, notQuote⟩ := plain c List.mem_cons_self
      rw [List.cons_append, ofChars_cons_plain notSemicolon notQuote,
        ih fun d later => plain d (List.mem_cons_of_mem c later)]
      rfl

private theorem foldl_blankAfter {cs : List Char} (blanks : ∀ c ∈ cs, Text.isBlank c = true) :
    cs.foldl blankAfter true = true := by
  induction cs with
  | nil => rfl
  | cons c cs ih =>
      have step : blankAfter true c = true := by simp [blankAfter, blanks c List.mem_cons_self]
      rw [List.foldl_cons, step]
      exact ih fun d later => blanks d (List.mem_cons_of_mem c later)

private theorem ofChars_quoted (blank : Bool) (p : Position) (text rest : List Char) :
    ∃ blank', ofChars ⟨true, false, blank, p⟩ (text.flatMap Token.escapeChar ++ '"' :: rest) =
      ofChars ⟨false, false, blank', p.afterAll (text.flatMap Token.escapeChar ++ ['"'])⟩ rest := by
  induction text generalizing blank p with
  | nil =>
      refine ⟨blank && Text.isBlank '"', ?_⟩
      rw [List.flatMap_nil, List.nil_append, ofChars_cons (by simp [Scan.startsComment])]
      rfl
  | cons c text ih =>
      rw [List.flatMap_cons, List.append_assoc, List.append_assoc]
      rcases Word.escapeChar_cases c with ⟨plain, notQuote, notBackslash, notNewline⟩ |
        ⟨e, escape, notNewline, -⟩
      · obtain ⟨blank', passed⟩ := ih (blank && Text.isBlank c) (p.after c)
        refine ⟨blank', ?_⟩
        rw [plain, List.singleton_append, List.singleton_append,
          ofChars_cons (by simp [Scan.startsComment]), Position.afterAll_cons, ← passed]
        simp [Scan.step, notQuote, notBackslash, notNewline]
      · obtain ⟨blank', passed⟩ := ih
          (blank && Text.isBlank '\\' && Text.isBlank e) ((p.after '\\').after e)
        refine ⟨blank', ?_⟩
        rw [escape]
        simp only [List.cons_append, List.nil_append, Position.afterAll_cons]
        rw [ofChars_cons (by simp [Scan.startsComment]),
          ofChars_cons (by simp [Scan.startsComment, Scan.step]), ← passed]
        simp [Scan.step, notNewline]

theorem ofChars_chars {w : Word} (spelled : w.IsSpelled) :
    ∃ blank', ofChars ⟨false, false, blank, p⟩ (w.chars ++ rest) =
      ofChars ⟨false, false, blank', p.afterAll w.chars⟩ rest := by
  by_cases string : w.kind = .string
  · obtain ⟨blank', passed⟩ :=
      ofChars_quoted (blank && Text.isBlank '"') (p.after '"') w.value.toList rest
    rw [Word.chars_of_string string, List.cons_append, List.append_assoc,
      ofChars_cons (by simp [Scan.startsComment])]
    exact ⟨blank', by simpa [Scan.step] using passed⟩
  · have plain : ∀ c ∈ w.chars, c ≠ ';' ∧ c ≠ '"' := by
      intro c member
      obtain ⟨notSemicolon, notQuote, -⟩ := Word.plain_chars spelled string member
      exact ⟨notSemicolon, notQuote⟩
    exact ⟨_, ofChars_plain plain⟩

theorem ofChars_comment {line : List Char} (inLine : '\n' ∉ line) (ends : rest.head? = some '\n') :
    ofChars ⟨false, false, blank, p⟩ (';' :: (line ++ rest)) =
      ofLine ⟨false, false, blank, p⟩ line ::
        ofChars ⟨false, false, blank, p.afterAll (';' :: line)⟩ rest := by
  obtain ⟨taken, dropped⟩ := Token.takeWhile_isInLine inLine ends
  rw [ofChars, if_pos (by simp [Scan.startsComment]), taken, dropped]

end Comment

namespace Stroke

variable {style : Style}

private theorem mem_lead {lead : Lead} {c : Char}
    (unmarked : ∀ c ∈ style.indent, c = ' ' ∨ c = '\t') (member : c ∈ lead.chars style) :
    c = ' ' ∨ c = '\t' ∨ c = '\n' := by
  cases lead with
  | none => simp [Lead.chars] at member
  | space => exact Or.inl (List.mem_singleton.mp member)
  | line breaks level =>
      rcases List.mem_append.mp member with isBreak | inMargin
      · exact Or.inr (Or.inr (List.eq_of_mem_replicate isBreak))
      · obtain ⟨part, isPart, inside⟩ := List.mem_flatten.mp inMargin
        obtain rfl := List.eq_of_mem_replicate isPart
        exact (unmarked c inside).imp id Or.inl

private theorem plain_lead {lead : Lead} (unmarked : ∀ c ∈ style.indent, c = ' ' ∨ c = '\t') :
    ∀ c ∈ lead.chars style, c ≠ ';' ∧ c ≠ '"' := by
  intro c member
  rcases mem_lead unmarked member with rfl | rfl | rfl
  · decide
  · decide
  · decide

private theorem isBlank_lead {lead : Lead} (unmarked : ∀ c ∈ style.indent, c = ' ' ∨ c = '\t') :
    ∀ c ∈ lead.chars style, Text.isBlank c = true := by
  intro c member
  rcases mem_lead unmarked member with rfl | rfl | rfl
  · decide
  · decide
  · decide

private theorem blank_line (unmarked : ∀ c ∈ style.indent, c = ' ' ∨ c = '\t') {breaks level : Nat}
    {blank : Bool} (outset : breaks = 0 → blank = true) :
    ((Lead.line breaks level).chars style).foldl Comment.blankAfter blank = true := by
  cases breaks with
  | zero =>
      rw [outset rfl]
      exact Comment.foldl_blankAfter (isBlank_lead unmarked)
  | succ n =>
      change List.foldl Comment.blankAfter (Comment.blankAfter blank '\n')
        ((Lead.line n level).chars style) = true
      exact Comment.foldl_blankAfter (isBlank_lead unmarked)

/-- The comments found in the text of legible strokes are the comments of the strokes. -/
theorem ofChars_remarks (unmarked : ∀ c ∈ style.indent, c = ' ' ∨ c = '\t') {before : Option Mark}
    {strokes : List Stroke} (legible : Legible before strokes) (p : Position) {blank : Bool}
    (outset : before = none → blank = true) :
    Comment.ofChars ⟨false, false, blank, p⟩ (text style strokes ++ ['\n']) =
      remarks style p strokes := by
  induction strokes generalizing before p blank with
  | nil => simp [Comment.ofChars, Comment.Scan.startsComment, remarks]
  | cons s rest ih =>
      obtain ⟨lead, mark⟩ := s
      obtain ⟨follows, sound, later⟩ := legible
      rw [text_cons, List.append_assoc, List.append_assoc,
        Comment.ofChars_plain (plain_lead unmarked)]
      generalize startEq : p.afterAll (lead.chars style) = start
      cases mark with
      | word w name =>
          obtain ⟨blank', passed⟩ := Comment.ofChars_chars (p := start) sound
          change Comment.ofChars _ (w.chars ++ _) = _
          rw [passed, ih later _ (by simp)]
          subst startEq
          rfl
      | comment remark =>
          have blankLine : (lead.chars style).foldl Comment.blankAfter blank = true := by
            cases follows with
            | remark => exact blank_line unmarked fun _ => outset rfl
            | line _ _ _ positive =>
                exact blank_line unmarked fun none => absurd none (Nat.ne_of_gt positive)
          obtain ⟨⟨line, chars, inLine⟩, trimmed⟩ := sound
          have ends : (text style rest ++ ['\n']).head? = some '\n' := head?_text_of_comment later
          have found : Comment.ofLine ⟨false, false, true, start⟩ line =
              ⟨start.line, start.column, remark, true⟩ := by
            rw [Comment.ofLine, ← chars, trimmed, String.ofList_toList]
          rw [blankLine]
          simp only [Mark.chars, chars, List.cons_append]
          rw [Comment.ofChars_comment inLine ends, found, ih later _ (by simp), ← chars]
          subst startEq
          rfl

end Stroke
end Wireframe
