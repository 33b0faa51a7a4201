import Wireframe.Proofs.Course

/-!
# Line widths

A line is broken before an atom that would not fit, and a keyword is an atom together with its
value.  What may run over the width of a line is only what no break can come before: parentheses,
the names of forms, what a line begins with, and the value of a keyword that its line begins with.
-/

namespace Wireframe

/-- Whether the lines of tokens keep to a width as far as they can be broken. -/
structure Token.KeepsWidth (width : Int) (tokens : List Token) : Prop where
  /-- An atom inside its line ends within the width, unless it is the value of a keyword. -/
  atom : ∀ before t behind, tokens = before ++ t :: behind →
    t.kind ≠ .openParen → t.kind ≠ .closeParen →
    ¬(t.kind = .symbol ∧ before.getLast?.map Token.kind = some .openParen) → ¬t.Leads before →
    ¬(t.kind.isValue = true ∧ before.getLast?.map Token.kind = some .keyword) →
    t.stop.column - 1 ≤ width
  /-- The value of a keyword inside its line ends within the width. -/
  value : ∀ before key t behind, tokens = before ++ key :: t :: behind →
    key.kind = .keyword → t.kind.isValue = true → key.stop.line = t.start.line → ¬key.Leads before →
    t.stop.column - 1 ≤ width

namespace Stroke

variable {style : Style} {strokes front rest : List Stroke} {lead : Lead} {w : Word} {name : String}

theorem getLast?_located {u : Word} {outer : String}
    (last : front.getLast?.map mark = some (.word u outer)) :
    (((located style Position.first front).map Prod.fst).getLast?).map Token.kind =
      some u.kind := by
  obtain ⟨front', lead', rfl⟩ := exists_last last
  rw [located_concat_word, List.map_append, List.map_singleton, List.getLast?_concat]
  rfl

theorem leadOf_atom {p : Pen} {next : Word} {gap : Bool} (opens : w.kind ≠ .openParen)
    (closes : w.kind ≠ .closeParen)
    (unnamed : ¬(w.kind = .symbol ∧ p.previous = some TokenKind.openParen)) :
    p.leadOf style w next name gap = p.atomLead style w next := by
  cases kind : w.kind with
  | openParen => exact absurd kind opens
  | closeParen => exact absurd kind closes
  | symbol => simp only [Pen.leadOf, kind, if_neg fun named => unnamed ⟨kind, named⟩]
  | _ => simp only [Pen.leadOf, kind]

/-- What an atom needs with the word behind it. -/
def neededBefore (w next : Word) : Nat :=
  Pen.needed (w.place Position.first Position.first) (next.place Position.first Position.first)

theorem length_le_neededBefore (w next : Word) : w.chars.length + 1 ≤ neededBefore w next := by
  have chars : (w.place Position.first Position.first).render.length = w.chars.length :=
    String.length_toList.symm
  rw [neededBefore, Pen.needed, chars]
  exact Nat.le_add_right _ _

theorem neededBefore_value {next : Word} (keyword : w.kind = .keyword)
    (value : next.kind.isValue = true) :
    neededBefore w next = w.chars.length + 1 + (next.chars.length + 1) := by
  have chars (v : Word) : (v.place Position.first Position.first).render.length = v.chars.length :=
    String.length_toList.symm
  rw [neededBefore, Pen.needed, chars, chars, if_pos ⟨keyword, value⟩]

/-- An atom inside its line stands behind a space, and if it is not the value of a keyword there is
room for all that it needs. -/
theorem Composed.room (composed : Composed style strokes) (inLine : '\n' ∉ style.indent)
    (positive : 0 < style.width) (split : strokes = front ++ ⟨lead, .word w name⟩ :: rest)
    {u : Word} {outer : String} (last : front.getLast?.map mark = some (.word u outer))
    (opens : w.kind ≠ .openParen) (closes : w.kind ≠ .closeParen)
    (unnamed : ¬(w.kind = .symbol ∧ u.kind = .openParen)) (stays : lead.breaks = 0) :
    ∃ p : Pen, p.Reached style front ∧ lead = .space ∧
      (¬(w.kind.isValue = true ∧ u.kind = .keyword) →
        (p.column : Int) + neededBefore w (nextWord rest) ≤ style.width) := by
  obtain ⟨p, reached, chosen⟩ := composed.exists_pen inLine split
  have behind := reached.behind
  rw [last] at behind
  have previous := behind.previous u outer rfl
  have fresh : p.isFresh = false := behind.fresh
  have atom : lead = p.atomLead style w (nextWord rest) := by
    refine chosen.trans (leadOf_atom opens closes ?_)
    rw [previous]
    exact fun ⟨symbol, opener⟩ => unnamed ⟨symbol, Option.some.inj opener⟩
  rw [Pen.atomLead, fresh] at atom
  split at atom
  · have breaks := behind.breaks_pos false
    rw [atom] at stays
    exact absurd stays (Nat.ne_of_gt breaks)
  · rename_i fits
    refine ⟨p, reached, atom, fun bare => ?_⟩
    have notValue : (p.previous == some TokenKind.keyword &&
        (w.place Position.first Position.first).kind.isValue) = false := by
      rw [previous]
      by_cases keyword : u.kind = .keyword
      · simpa [keyword, Word.place] using fun value => bare ⟨value, keyword⟩
      · simp [keyword]
    simp only [Pen.wraps, notValue, fresh, Bool.or_eq_true, Bool.and_eq_true, decide_eq_true_eq,
      Bool.not_false, and_true, not_or, not_and] at fits
    exact Int.not_lt.mp (fits.2 positive)

theorem stop_tokenAt (style : Style) (front : List Stroke) (lead : Lead) (w : Word)
    (name : String) :
    (tokenAt style front lead w).stop =
      Position.first.afterAll (text style (front ++ [⟨lead, .word w name⟩])) := by
  simp [text_append, Position.afterAll_append, tokenAt, markStart, Word.place, Mark.chars]

theorem column_stop (sound : w.IsSpelled) {p : Pen} (reached : p.Reached style front) :
    (tokenAt style front .space w).stop.column = p.column + 2 + w.chars.length := by
  have start : (markStart style front .space).column = p.column + 2 := by
    rw [markStart, Lead.chars, Position.column_afterAll (by decide), ← reached.column]
    simp only [List.length_singleton]
    omega
  change ((markStart style front .space).afterAll w.chars).column = _
  rw [Position.column_afterAll (Word.newline_not_mem_chars sound), start]

theorem Composed.value_stop_le (composed : Composed style strokes) (inLine : '\n' ∉ style.indent)
    (positive : 0 < style.width) {lead' : Lead} {u v : Word} {outer outmost : String}
    (split : strokes = front ++ ⟨lead, .word u outer⟩ :: ⟨lead', .word w name⟩ :: rest)
    (last : front.getLast?.map mark = some (.word v outmost)) (keyword : u.kind = .keyword)
    (value : w.kind.isValue = true) (stays : lead.breaks = 0) (stays' : lead'.breaks = 0) :
    (tokenAt style (front ++ [⟨lead, .word u outer⟩]) lead' w).stop.column - 1 ≤ style.width := by
  have split' : strokes =
      (front ++ [⟨lead, .word u outer⟩]) ++ ⟨lead', .word w name⟩ :: rest := by simp [split]
  have last' : (front ++ [Stroke.mk lead (.word u outer)]).getLast?.map mark =
      some (.word u outer) := by
    rw [List.getLast?_concat]
    rfl
  obtain ⟨-, -, keySound, -, sound, -⟩ := composed.legible_split split
  have notValue : u.kind.isValue = false := by rw [keyword]; rfl
  obtain ⟨p, reached, rfl, fits⟩ := composed.room inLine positive split last (by simp [keyword])
    (by simp [keyword]) (by simp [keyword]) stays
  obtain ⟨q, reached', rfl, -⟩ := composed.room inLine positive split' last'
    (fun opens => by simp [opens, TokenKind.isValue] at value)
    (fun closes => by simp [closes, TokenKind.isValue] at value) (by simp [keyword]) stays'
  have room : (p.column : Int) + neededBefore u w ≤ style.width := fits (by simp [notValue])
  rw [neededBefore_value keyword value] at room
  have keyStop := column_stop keySound reached
  have stop := column_stop sound reached'
  have between := reached'.column
  rw [← stop_tokenAt] at between
  omega

theorem exists_token {before behind : List Token} {t : Token}
    (split : (located style Position.first strokes).map Prod.fst = before ++ t :: behind) :
    ∃ front lead w name rest, strokes = front ++ ⟨lead, .word w name⟩ :: rest ∧
      (located style Position.first front).map Prod.fst = before ∧
      t = tokenAt style front lead w := by
  obtain ⟨before, behind', located, rfl, more⟩ := List.map_eq_append_iff.mp split
  obtain ⟨⟨t', name⟩, after, rfl, rfl, -⟩ := List.map_eq_cons_iff.mp more
  obtain ⟨front, lead, w, rest, strokesEq, rfl, same⟩ := exists_stroke located
  exact ⟨front, lead, w, name, rest, strokesEq, rfl, same⟩

/-- The words of strokes that the pen composes keep to the width. -/
theorem Composed.keepsWidth (composed : Composed style strokes) (inLine : '\n' ∉ style.indent)
    (positive : 0 < style.width) :
    Token.KeepsWidth style.width ((located style Position.first strokes).map Prod.fst) := by
  refine ⟨?_, ?_⟩
  · intro before t behind split opens closes unnamed inside bare
    obtain ⟨front, lead, w, name, rest, strokesEq, rfl, rfl⟩ := exists_token split
    obtain ⟨legible, follows, sound, -⟩ := composed.legible_split strokesEq
    obtain ⟨stays, mark, last⟩ := stays_of_not_leads inLine legible inside
    rw [last] at follows
    obtain ⟨u, outer, -, -, rfl, -, -⟩ := follows.behind_word stays
    rw [getLast?_located last] at unnamed bare
    obtain ⟨p, reached, rfl, fits⟩ := composed.room inLine positive strokesEq last opens closes
      (fun ⟨symbol, opener⟩ => unnamed ⟨symbol, congrArg some opener⟩) stays
    have room := fits fun ⟨value, keyword⟩ => bare ⟨value, congrArg some keyword⟩
    have needed := length_le_neededBefore w (nextWord rest)
    have stop := column_stop sound reached
    omega
  · intro before key t behind split keyword value sameLine inside
    rw [List.append_cons] at split
    obtain ⟨front, lead, w, name, rest, strokesEq, tokens, rfl⟩ := exists_token split
    obtain ⟨legible, follows, sound, -⟩ := composed.legible_split strokesEq
    obtain ⟨stays, mark, last⟩ := stays_of_not_leads inLine legible (w := w) (by
      rw [tokens]
      exact fun leads => leads key (by simp) sameLine)
    rw [last] at follows
    obtain ⟨u, outer, -, -, rfl, -, -⟩ := follows.behind_word stays
    obtain ⟨front', lead', rfl⟩ := exists_last last
    rw [located_concat_word, List.map_append, List.map_singleton] at tokens
    obtain ⟨rfl, isKey⟩ := List.append_inj' tokens rfl
    obtain rfl := List.singleton_inj.mp isKey
    rw [List.append_assoc, List.singleton_append] at strokesEq
    obtain ⟨legible', follows', -⟩ := composed.legible_split strokesEq
    obtain ⟨stays', mark', last'⟩ := stays_of_not_leads inLine legible' inside
    rw [last'] at follows'
    obtain ⟨v, outmost, -, -, rfl, -, -⟩ := follows'.behind_word stays'
    exact composed.value_stop_le inLine positive strokesEq last' keyword value stays' stays

end Stroke

namespace Style

open Stroke

/-- Formatted text keeps to a positive width wherever a line can be broken. -/
theorem format_keeps_width (style : Style) (unmarked : ∀ c ∈ style.indent, c = ' ' ∨ c = '\t')
    (positive : 0 < style.width) {source : String} {tokens : List Token}
    (found : Token.ofSource source = .ok tokens) :
    ∃ text words e, style.format source = .ok text ∧
      Token.ofSource text = .ok (words ++ [Token.eof e]) ∧ Token.KeepsWidth style.width words := by
  obtain ⟨e, read⟩ := ofSource_strokes (isSpace_indent unmarked) found
  have composed := style.composed_strokes found
  exact ⟨_, _, e, style.format_eq found, read,
    composed.keepsWidth (newline_not_mem_indent unmarked) positive⟩

theorem format_keeps_width_wrapped :
    ∃ text words e, (Style.mk [' ', ' '] 12).format "(b \"cccc\" :d e :f g)" = .ok text ∧
      Token.ofSource text = .ok (words ++ [Token.eof e]) ∧ Token.KeepsWidth 12 words := by
  have tokens : Token.ofSource "(b \"cccc\" :d e :f g)" =
      .ok [⟨.openParen, "(", ⟨1, 1⟩, ⟨1, 2⟩⟩, ⟨.symbol, "b", ⟨1, 2⟩, ⟨1, 3⟩⟩,
        ⟨.string, "cccc", ⟨1, 4⟩, ⟨1, 10⟩⟩, ⟨.keyword, "d", ⟨1, 11⟩, ⟨1, 13⟩⟩,
        ⟨.symbol, "e", ⟨1, 14⟩, ⟨1, 15⟩⟩, ⟨.keyword, "f", ⟨1, 16⟩, ⟨1, 18⟩⟩,
        ⟨.symbol, "g", ⟨1, 19⟩, ⟨1, 20⟩⟩, ⟨.closeParen, ")", ⟨1, 20⟩, ⟨1, 21⟩⟩,
        Token.eof ⟨1, 21⟩] := by
    cbv
  exact format_keeps_width ⟨[' ', ' '], 12⟩ (by simp) (by decide) tokens

end Style
end Wireframe
