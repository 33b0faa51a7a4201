import Wireframe.Proofs.Apart
import Wireframe.Proofs.Idempotent
import Wireframe.Proofs.Repair

/-!
# Comments in place

Formatting keeps each standalone comment, once and in order, behind as many words as it stands
behind in the source.  The pen never passes over a comment: the tokens that it has written when it
comes to one have ended above it, the added parentheses among them.  Formatted text is drawn again
by the same strokes, so that the count taken of the strokes holds on both sides.
-/

namespace Wireframe

namespace Balance

open Token

theorem stop_of_insert_mem_edits {stack : List String} {anchor : Position}
    {tokens : List (Token × String)} {t : Token} (added : .insert t ∈ edits stack anchor tokens) :
    (stack ≠ [] ∧ t = closer anchor) ∨ ∃ entry ∈ tokens, t = closer entry.1.stop := by
  induction tokens generalizing stack anchor with
  | nil =>
      obtain ⟨name, isOpen, same⟩ := List.mem_map.mp added
      exact Or.inl ⟨List.ne_nil_of_mem isOpen, (Edit.insert.inj same).symm⟩
  | cons entry rest ih =>
      obtain ⟨u, name⟩ := entry
      have behind {stack' : List String} (later : .insert t ∈ edits stack' u.stop rest) :
          ∃ entry ∈ (u, name) :: rest, t = closer entry.1.stop := by
        rcases ih later with ⟨-, rfl⟩ | ⟨entry, member, same⟩
        · exact ⟨(u, name), List.mem_cons_self, rfl⟩
        · exact ⟨entry, List.mem_cons_of_mem _ member, same⟩
      rcases paren_cases u with opens | closes | ⟨opens, closes⟩
      · rw [edits_openParen opens] at added
        rcases List.mem_append.mp added with isCloser | later
        · -- Without an open form nothing ends before a form begins.
          obtain ⟨some, same⟩ := List.mem_replicate.mp isCloser
          refine Or.inl ⟨?_, Edit.insert.inj same⟩
          rintro rfl
          exact some (Nat.le_zero.mp (endedBefore_le_length name []))
        · exact Or.inr (behind ((List.mem_cons.mp later).resolve_left (by simp)))
      · cases stack with
        | nil =>
            rw [edits_surplus closes] at added
            rcases ih ((List.mem_cons.mp added).resolve_left (by simp)) with ⟨some, -⟩ |
              ⟨entry, member, same⟩
            · exact absurd rfl some
            · exact Or.inr ⟨entry, List.mem_cons_of_mem _ member, same⟩
        | cons parent outer =>
            rw [edits_closeParen closes] at added
            exact Or.inr (behind ((List.mem_cons.mp added).resolve_left (by simp)))
      · rw [edits_other opens closes] at added
        exact Or.inr (behind ((List.mem_cons.mp added).resolve_left (by simp)))

private theorem descend_closers {p : Position} {tokens : List Token} (n : Nat)
    (later : Descend p.line tokens) : Descend p.line (List.replicate n (closer p) ++ tokens) := by
  induction n with
  | zero => exact later
  | succ n ih => exact ⟨Int.le_refl _, Int.le_refl _, ih⟩

theorem descend_edits {stack : List String} {anchor : Position} {tokens : List (Token × String)}
    (descend : Descend anchor.line (tokens.map Prod.fst)) :
    Descend anchor.line (results (edits stack anchor tokens)) := by
  induction tokens generalizing stack anchor with
  | nil =>
      rw [edits, List.map_const', results_closers]
      have closers : Descend anchor.line (List.replicate stack.length (closer anchor) ++ []) :=
        descend_closers stack.length trivial
      rwa [List.append_nil] at closers
  | cons entry rest ih =>
      obtain ⟨t, name⟩ := entry
      obtain ⟨start, stop, later⟩ := descend
      rcases paren_cases t with opens | closes | ⟨opens, closes⟩
      · rw [edits_openParen opens, results_append, results_closers, results_keep]
        exact descend_closers _ ⟨start, stop, ih later⟩
      · cases stack with
        | nil =>
            rw [edits_surplus closes, results_drop]
            exact ih (later.mono (by omega))
        | cons parent outer =>
            rw [edits_closeParen closes, results_keep]
            exact ⟨start, stop, ih later⟩
      · rw [edits_other opens closes, results_keep]
        exact ⟨start, stop, ih later⟩

theorem descend_results {source : String} {tokens : List Token}
    (found : Token.ofSource source = .ok tokens) :
    Descend Position.first.line (results (ofTokens tokens)) := by
  refine descend_edits ?_
  rw [map_fst_named]
  exact descend_beforeEnd found

theorem stop_of_mem_results {tokens : List Token} {t : Token}
    (member : t ∈ results (ofTokens tokens)) :
    t ∈ beforeEnd tokens ∨ ∃ u ∈ beforeEnd tokens, t = closer u.stop := by
  obtain ⟨edit, isEdit, leaves⟩ := List.mem_filterMap.mp member
  cases edit with
  | keep u =>
      obtain rfl := Option.some.inj leaves
      left
      rw [← (edited_ofTokens tokens).source_eq]
      exact List.mem_filterMap.mpr ⟨_, isEdit, rfl⟩
  | insert u =>
      obtain rfl := Option.some.inj leaves
      rcases stop_of_insert_mem_edits isEdit with ⟨some, -⟩ | ⟨entry, isEntry, rfl⟩
      · exact absurd rfl some
      · exact Or.inr ⟨entry.1, mem_of_mem_named isEntry, rfl⟩
  | drop u => exact absurd leaves (by simp [Edit.result?])

/-- A comment that shares no line with the words of a source shares none with its balanced tokens.
-/
theorem apart_of_mem_results {c : Comment} {tokens : List Token}
    (apart : ∀ t ∈ beforeEnd tokens, c.Apart t)
    (ordered : ∀ t ∈ beforeEnd tokens, t.start.line ≤ t.stop.line) {t : Token}
    (member : t ∈ results (ofTokens tokens)) : c.Apart t := by
  rcases stop_of_mem_results member with kept | ⟨u, isToken, rfl⟩
  · exact apart t kept
  · have down := ordered u isToken
    rcases apart u isToken with below | above
    · exact Or.inl below
    · exact Or.inr (Int.lt_of_lt_of_le above down)

end Balance

namespace Stroke

/-- The texts of the comments of strokes, each with the number of words before it. -/
def notes : Nat → List Stroke → List (String × Nat)
  | _, [] => []
  | n, s :: rest =>
    match s.mark with
    | .word w _ => notes (n + if w.kind = .closeParen then 0 else 1) rest
    | .comment text => (text, n) :: notes n rest

end Stroke

namespace Comment

/-- Whether comments stand below a line, and each below those before it. -/
def Below (line : Int) (cs : List Comment) : Prop :=
  (∀ c ∈ cs, line < c.line) ∧ cs.Pairwise fun c d => c.line < d.line

theorem below_cons {line : Int} {c : Comment} {cs : List Comment} (below : Below line (c :: cs)) :
    line < c.line ∧ Below c.line cs := by
  obtain ⟨ahead, sorted⟩ := below
  obtain ⟨first, later⟩ := List.pairwise_cons.mp sorted
  exact ⟨ahead c List.mem_cons_self, first, later⟩

theorem wordsAbove_eq_zero {c : Comment} {tokens : List Token} {line : Int}
    (descend : Token.Descend line tokens) (above : c.line < line) : c.wordsAbove tokens = 0 := by
  refine List.countP_eq_zero.mpr fun t member => ?_
  have start := (descend.line_le member).1
  simp only [decide_eq_true_eq, not_and]
  omega

theorem wordsAbove_cons {c : Comment} {t : Token} {tokens : List Token}
    (above : t.start.line < c.line) :
    c.wordsAbove (t :: tokens) = (if t.kind = .closeParen then 0 else 1) + c.wordsAbove tokens := by
  rw [wordsAbove, List.countP_cons, Nat.add_comm]
  by_cases closes : t.kind = .closeParen
  · simp [closes, wordsAbove]
  · simp [closes, above, wordsAbove]

theorem wordsAbove_congr (c : Comment) {tokens tokens' : List Token}
    (same : tokens.filter (·.kind != .closeParen) = tokens'.filter (·.kind != .closeParen)) :
    c.wordsAbove tokens = c.wordsAbove tokens' := by
  have words (ts : List Token) : c.wordsAbove ts =
      (ts.filter (·.kind != .closeParen)).countP fun t => t.start.line < c.line := by
    rw [List.countP_filter, wordsAbove]
    refine List.countP_congr fun t _ => ?_
    simp [and_comm]
  rw [words, words, same]

end Comment

namespace Pen

open Stroke Comment

/-- The pen writes all waiting comments above a line, and keeps those that the line has reached. -/
theorem exists_above (style : Style) {p : Pen} {cs : List Comment} (below : Below p.line cs)
    (line : Option Int) :
    let q := comments style line cs p
    ∃ above, cs = above ++ q.waiting ∧ (∀ c ∈ above, line.any (· ≤ c.line) = false) ∧
      (∀ c ∈ q.waiting, line.any (· ≤ c.line) = true) ∧ Below q.line q.waiting ∧
      ∀ n rest, notes n (p.remarks style line cs ++ rest) =
        above.map (fun c => (c.text, n)) ++ notes n rest := by
  induction cs generalizing p with
  | nil => exact ⟨[], rfl, by simp, by simp [comments], ⟨by simp [comments], by simp [comments]⟩,
      fun _ _ => rfl⟩
  | cons c cs ih =>
      obtain ⟨ahead, later⟩ := below_cons below
      rw [comments, remarks]
      cases reached : line.any (· ≤ c.line) with
      | true =>
          refine ⟨[], rfl, by simp, fun d member => ?_, below, fun _ _ => rfl⟩
          rcases List.mem_cons.mp member with rfl | further
          · exact reached
          · have lower := later.1 d further
            cases line with
            | none => simp at reached
            | some line =>
                simp only [Option.any_some, decide_eq_true_eq] at reached ⊢
                omega
      | false =>
          -- The pen has not come to the comment, so that it is not left out.
          have notPassed : ¬c.line ≤ p.line := by omega
          simp only [Bool.false_eq_true, if_false, notPassed]
          obtain ⟨above, split, unreached, waiting, lower, drawn⟩ :=
            ih (p := p.comment style c) later
          refine ⟨c :: above, congrArg (c :: ·) split,
            List.forall_mem_cons.mpr ⟨reached, unreached⟩, waiting, lower, fun n rest => ?_⟩
          exact congrArg ((c.text, n) :: ·) (drawn n rest)

theorem exists_above_token (style : Style) {p : Pen} {t : Token} (name : String) (next : Token)
    (spelled : t.word.IsSpelled) (below : Below p.line p.waiting)
    (apart : ∀ c ∈ p.waiting, c.Apart t) :
    let r := p.token style t name next
    ∃ above, p.waiting = above ++ r.waiting ∧ (∀ c ∈ above, c.line < t.start.line) ∧
      (∀ c ∈ r.waiting, t.stop.line < c.line) ∧ Below r.line r.waiting ∧
      ∀ n rest, notes n (p.remarks style (some t.start.line) p.waiting ++
          p.stroke style t name next :: rest) =
        above.map (fun c => (c.text, n)) ++
          notes (n + if t.kind = .closeParen then 0 else 1) rest := by
  obtain ⟨above, split, unreached, reached, lower, drawn⟩ :=
    exists_above style below (some t.start.line)
  let q := comments style (some t.start.line) p.waiting p
  -- A comment that waits is not above the token, and shares no line with it.
  have passed c (member : c ∈ q.waiting) : t.stop.line < c.line := by
    have start := reached c member
    simp only [Option.any_some, decide_eq_true_eq] at start
    rcases apart c (split ▸ List.mem_append_right above member) with below | above
    · exact below
    · omega
  have waiting : (p.token style t name next).waiting = q.waiting := by
    rw [token_eq_draw style p name next spelled]
    exact waiting_draw style q _
  have line : (p.token style t name next).line = max q.line t.stop.line := by
    rw [token_eq_draw style p name next spelled]
    rfl
  refine ⟨above, split.trans (congrArg (above ++ ·) waiting.symm), fun c member => ?_,
    fun c member => passed c (waiting ▸ member), ?_, fun n rest => drawn n _⟩
  · simpa using unreached c member
  · refine ⟨fun c member => ?_, waiting ▸ lower.2⟩
    rw [waiting] at member
    rw [line]
    have beyond : q.line < c.line := lower.1 c member
    have passed := passed c member
    omega

/-- Strokes hold each waiting comment behind the words that start above it. -/
theorem notes_strokes (style : Style) {p : Pen} {front : List (Token × String)} {line : Int}
    (spelled : ∀ entry ∈ front, entry.1.word.IsSpelled)
    (descend : Token.Descend line (front.map Prod.fst)) (below : Below p.line p.waiting)
    (apart : ∀ c ∈ p.waiting, ∀ entry ∈ front, c.Apart entry.1) (n : Nat) (e : Position) :
    notes n (p.strokes style (front ++ [(Token.eof e, "")])) =
      p.waiting.map fun c => (c.text, n + c.wordsAbove (front.map Prod.fst)) := by
  induction front generalizing p n line with
  | nil =>
      obtain ⟨above, split, -, reached, -, drawn⟩ := exists_above style below none
      have written : (comments style none p.waiting p).waiting = [] :=
        List.eq_nil_iff_forall_not_mem.mpr fun c member => by simpa using reached c member
      have all := drawn n []
      rw [List.append_nil] at all
      rw [written, List.append_nil] at split
      change notes n (remarks style none p.waiting p) = _
      rw [all, ← split]
      exact List.append_nil _
  | cons entry front ih =>
      obtain ⟨t, name⟩ := entry
      obtain ⟨isWord, words⟩ := List.forall_mem_cons.mp spelled
      have notEnd : t.isEnd = false := by simpa [Token.isEnd] using Word.kind_ne_eof isWord
      obtain ⟨above, split, higher, passed, lower, drawn⟩ := exists_above_token style name
        (((front ++ [(Token.eof e, "")]).head?.map Prod.fst).getD t) isWord below
        fun c member => apart c member (t, name) List.mem_cons_self
      have later := ih words descend.2.2 lower (fun c member entry further =>
        apart c (split ▸ List.mem_append_right above member) entry
          (List.mem_cons_of_mem _ further))
        (n + if t.kind = .closeParen then 0 else 1)
      rw [List.cons_append, strokes, if_neg (by simp [notEnd]), drawn, later, split,
        List.map_append]
      congr 1
      · refine List.map_congr_left fun c member => ?_
        have lines : Token.Descend t.start.line (((t, name) :: front).map Prod.fst) :=
          ⟨Int.le_refl _, descend.2⟩
        rw [wordsAbove_eq_zero lines (higher c member), Nat.add_zero]
      · refine List.map_congr_left fun c member => ?_
        have start : t.start.line < c.line := Int.lt_of_le_of_lt descend.2.1 (passed c member)
        rw [List.map_cons, wordsAbove_cons start, Nat.add_assoc]

end Pen

namespace Style

open Stroke Balance

theorem notes_source (style : Style) {source : String} {tokens : List Token}
    (found : Token.ofSource source = .ok tokens) :
    notes 0 (style.strokes (Comment.ofSource source) tokens) =
      ((Comment.ofSource source).filter Comment.standalone).map fun c =>
        (c.text, c.wordsBefore tokens) := by
  have below : Comment.Below 0 ((Comment.ofSource source).filter Comment.standalone) := by
    refine ⟨fun c member => ?_, (Comment.pairwise_line_ofChars _ _).filter _⟩
    exact Comment.line_le_of_mem_ofChars (List.mem_filter.mp member).1
  have results := Token.map_fst_named [] (Balance.results (ofTokens tokens))
  have lines := Token.descend_beforeEnd found
  have descend := descend_results found
  have apart c (member : c ∈ (Comment.ofSource source).filter Comment.standalone) t
      (isToken : t ∈ Balance.results (ofTokens tokens)) : c.Apart t := by
    obtain ⟨isComment, alone⟩ := List.mem_filter.mp member
    exact apart_of_mem_results (Comment.apart_beforeEnd found isComment alone)
      (fun u isToken => (lines.line_le isToken).2) isToken
  rw [strokes, named_balance, Pen.notes_strokes style (isSpelled_of_results found)
    (results.symm ▸ descend) below fun c member entry isEntry =>
      apart c member _ (Token.mem_of_mem_named isEntry)]
  refine List.map_congr_left fun c member => ?_
  obtain ⟨isComment, alone⟩ := List.mem_filter.mp member
  have words := (edited_ofTokens tokens).filter_eq
  rw [results, Nat.zero_add, c.wordsAbove_congr words,
    Comment.wordsBefore_ofSource found isComment alone]

theorem ofSource_remarks {style : Style} (unmarked : ∀ c ∈ style.indent, c = ' ' ∨ c = '\t')
    {source : String} {tokens : List Token} (found : Token.ofSource source = .ok tokens) :
    Comment.ofSource (String.ofList
        (text style (style.strokes (Comment.ofSource source) tokens) ++ ['\n'])) =
      remarks style Position.first (style.strokes (Comment.ofSource source) tokens) := by
  rw [Comment.ofSource, String.toList_ofList]
  exact ofChars_remarks unmarked (style.legible_strokes found) Position.first fun _ => rfl

theorem strokes_located {style : Style} (unmarked : ∀ c ∈ style.indent, c = ' ' ∨ c = '\t')
    {source : String} {tokens : List Token} (found : Token.ofSource source = .ok tokens)
    (e : Position) :
    let drawn := style.strokes (Comment.ofSource source) tokens
    style.strokes (remarks style Position.first drawn)
      ((located style Position.first drawn).map Prod.fst ++ [Token.eof e]) = drawn := by
  intro drawn
  have start := retraces_start style drawn
  rw [strokes, standalone_remarks, balance_located, named_concat_eof, named_located]
  exact strokes_of_retraces (newline_not_mem_indent unmarked) start rfl
    (style.stable_strokes found _) (style.legible_strokes found) e

/-- Formatting keeps the standalone comments of a source and no others, in order, and each behind as
many words as before. -/
theorem format_keeps_comments (style : Style) (unmarked : ∀ c ∈ style.indent, c = ' ' ∨ c = '\t')
    {source : String} {tokens : List Token} (found : Token.ofSource source = .ok tokens) :
    ∃ text again, style.format source = .ok text ∧ Token.ofSource text = .ok again ∧
      (∀ c ∈ Comment.ofSource text, c.standalone = true) ∧
      (Comment.ofSource text).map (fun c => (c.text, c.wordsBefore again)) =
        ((Comment.ofSource source).filter Comment.standalone).map fun c =>
          (c.text, c.wordsBefore tokens) := by
  obtain ⟨e, read⟩ := ofSource_strokes (isSpace_indent unmarked) found
  have comments := ofSource_remarks unmarked found
  have alone := standalone_remarks style Position.first
    (style.strokes (Comment.ofSource source) tokens)
  rw [← comments] at alone
  refine ⟨_, _, style.format_eq found, read, List.filter_eq_self.mp alone, ?_⟩
  have kept := style.notes_source read
  rw [alone, comments, strokes_located unmarked found e, ← comments] at kept
  rw [← kept, style.notes_source found]

theorem format_keeps_comments_unclosed :
    ∃ text again, (Style.mk ['\t'] 80).format ";a \n(b ; c\n;d\n(e\n;a" = .ok text ∧
      Token.ofSource text = .ok again ∧ (∀ c ∈ Comment.ofSource text, c.standalone = true) ∧
      (Comment.ofSource text).map (fun c => (c.text, c.wordsBefore again)) =
        [(";a", 0), (";d", 2), (";a", 4)] := by
  have tokens : Token.ofSource ";a \n(b ; c\n;d\n(e\n;a" =
      .ok [⟨.openParen, "(", ⟨2, 1⟩, ⟨2, 2⟩⟩, ⟨.symbol, "b", ⟨2, 2⟩, ⟨2, 3⟩⟩,
        ⟨.openParen, "(", ⟨4, 1⟩, ⟨4, 2⟩⟩, ⟨.symbol, "e", ⟨4, 2⟩, ⟨4, 3⟩⟩, Token.eof ⟨5, 3⟩] := by
    cbv
  have comments : (Comment.ofSource ";a \n(b ; c\n;d\n(e\n;a").filter Comment.standalone =
      [⟨1, 1, ";a", true⟩, ⟨3, 1, ";d", true⟩, ⟨5, 1, ";a", true⟩] := by
    cbv
  have kept := format_keeps_comments ⟨['\t'], 80⟩ (by simp) tokens
  rw [comments] at kept
  exact kept

end Style
end Wireframe
