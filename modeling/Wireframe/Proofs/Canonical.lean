import Wireframe.Proofs.Course
import Wireframe.Proofs.InPlace

/-!
# Canonical layout

Without comments on lines of their own, formatting has regard to the words of a source and to the
blank lines before its sections, which are the named forms directly inside a root form.  Where else
its words stand has no influence: the pen compares the line that it has come to with the line of a
token only where a form begins, and the blank line that it finds there is drawn only for a section.
-/

namespace Wireframe

namespace Token

/-- Whether the token at an index begins a section: a form with a name whose parent is a root
form. -/
def BeginsSection (tokens : List Token) (n : Nat) : Prop :=
  ∃ entry ∈ (named [] tokens)[n]?, entry.1.kind = .openParen ∧ entry.2 ≠ "" ∧
    (Balance.openForms [] ((named [] tokens).take n)).head? = some Schema.rootForm

/-- Whether the token at an index starts more than one line below the end of the one before it.  A
parenthesis that balancing inserts ends where the token before it does. -/
def StandsOff (tokens : List Token) (n : Nat) : Prop :=
  ∃ u ∈ (tokens.take n).getLast?, ∃ t ∈ tokens[n]?, u.stop.line + 1 < t.start.line

/-- Whether the sections of some tokens stand off where those of others do. -/
def SameGaps (tokens tokens' : List Token) : Prop :=
  ∀ n < tokens.length, BeginsSection tokens n → (StandsOff tokens n ↔ StandsOff tokens' n)

instance (tokens : List Token) (n : Nat) : Decidable (BeginsSection tokens n) :=
  inferInstanceAs (Decidable (∃ entry ∈ (named [] tokens)[n]?, _))

instance (tokens : List Token) (n : Nat) : Decidable (StandsOff tokens n) :=
  inferInstanceAs (Decidable (∃ u ∈ (tokens.take n).getLast?, ∃ t ∈ tokens[n]?, _))

instance (tokens tokens' : List Token) : Decidable (SameGaps tokens tokens') :=
  inferInstanceAs (Decidable (∀ n < tokens.length, _ → _))

end Token

namespace Balance

theorem beforeEnd_congr {tokens tokens' : List Token}
    (words : tokens.map Token.word = tokens'.map Token.word) :
    (Token.beforeEnd tokens).map Token.word = (Token.beforeEnd tokens').map Token.word := by
  have ends (row : List Token) : (Token.beforeEnd row).map Token.word =
      (row.map Token.word).takeWhile (·.kind != .eof) := by
    rw [List.takeWhile_map]
    rfl
  rw [ends, ends, words]

theorem results_congr {stack : List String} {anchor anchor' : Position}
    {entries entries' : List (Token × String)}
    (words : entries.map (fun entry => (entry.1.word, entry.2)) =
      entries'.map fun entry => (entry.1.word, entry.2)) :
    (results (edits stack anchor entries)).map Token.word =
      (results (edits stack anchor' entries')).map Token.word := by
  have closers (n : Nat) (p : Position) : (List.replicate n (Token.closer p)).map Token.word =
      List.replicate n ⟨.closeParen, ")"⟩ := List.map_replicate
  induction entries generalizing stack anchor anchor' entries' with
  | nil =>
      obtain rfl := List.map_eq_nil_iff.mp words.symm
      rw [edits, edits, List.map_const', List.map_const', results_closers, results_closers, closers,
        closers]
  | cons entry rest ih =>
      obtain ⟨⟨u, name'⟩, rest', rfl, here, later⟩ := List.map_eq_cons_iff.mp words.symm
      obtain ⟨t, name⟩ := entry
      obtain ⟨word, rfl⟩ : u.word = t.word ∧ name' = name := by simpa using here
      have kind : u.kind = t.kind := congrArg Word.kind word
      rcases paren_cases t with opens | closes | ⟨opens, closes⟩
      · rw [edits_openParen opens, edits_openParen (kind.trans opens), results_append,
          results_append, results_closers, results_closers, results_keep, results_keep,
          List.map_append, List.map_append, closers, closers, List.map_cons, List.map_cons, word,
          ih later.symm]
      · cases stack with
        | nil =>
            rw [edits_surplus closes, edits_surplus (kind.trans closes), results_drop, results_drop,
              ih later.symm]
        | cons parent outer =>
            rw [edits_closeParen closes, edits_closeParen (kind.trans closes), results_keep,
              results_keep, List.map_cons, List.map_cons, word, ih later.symm]
      · rw [edits_other opens closes, edits_other (kind ▸ opens) (kind ▸ closes), results_keep,
          results_keep, List.map_cons, List.map_cons, word, ih later.symm]

end Balance

namespace Token

variable {tokens : List Token} {before rest : List (Token × String)} {t : Token} {name : String}

theorem beginsSection_of_split (split : named [] tokens = before ++ (t, name) :: rest)
    (opens : t.kind = .openParen) (titled : name ≠ "")
    (parent : (Balance.openForms [] before).head? = some Schema.rootForm) :
    BeginsSection tokens before.length := by
  refine ⟨(t, name), ?_, opens, titled, ?_⟩
  · simp [split]
  · simpa [split] using parent

theorem standsOff_iff_of_split {last : Token × String}
    (split : named [] tokens = before ++ (t, name) :: rest) (isLast : before.getLast? = some last) :
    StandsOff tokens before.length ↔ last.1.stop.line + 1 < t.start.line := by
  have tokensEq : tokens = before.map Prod.fst ++ t :: rest.map Prod.fst := by
    rw [← map_fst_named [] tokens, split, List.map_append, List.map_cons]
  have length : before.length = (before.map Prod.fst).length := by rw [List.length_map]
  rw [StandsOff, tokensEq, length, List.take_left, List.getLast?_map, isLast]
  simp

end Token

namespace Pen

open Stroke Balance

variable {style : Style} {p q : Pen} {before before' : List (Token × String)}

/-- Whether a pen without comments stands behind tokens. -/
structure Passed (p : Pen) (before : List (Token × String)) : Prop where
  waiting : p.waiting = []
  quiet : p.afterComment = false
  frames : p.frames = (openForms [] before).map Frame.ofName
  line : ∀ last ∈ before.getLast?, p.line = last.1.stop.line ∧ 0 < p.line

theorem passed_start : Passed (start []) [] :=
  ⟨rfl, rfl, rfl, by simp⟩

theorem leadOf_of_passed (passed : Passed p before) (w next : Word) (name : String)
    {gap gap' : Bool}
    (same : w.kind = .openParen → name ≠ "" →
      (openForms [] before).head? = some Schema.rootForm → gap = gap') :
    p.leadOf style w next name gap = p.leadOf style w next name gap' := by
  unfold leadOf
  split
  · rename_i opens
    unfold openLead
    rw [passed.frames, passed.quiet]
    cases stack : openForms [] before with
    | nil => simp
    | cons parent outer =>
        rw [stack] at same
        simp only [List.map_cons]
        split
        · rename_i nested
          by_cases root : parent = Schema.rootForm
          · rw [same opens nested.1 (congrArg some root)]
          · have other : ((Frame.ofName parent).name == Schema.rootForm) = false := by
              simpa [Frame.ofName] using root
            rw [other, Bool.and_false, Bool.and_false]
        · rfl
  · rfl
  · rfl
  · rfl

theorem Passed.draw (passed : Passed p before) (lead : Lead) {t : Token} (name : String)
    (below : p.line ≤ t.stop.line) (positive : 0 < t.stop.line) :
    Passed { p.draw style ⟨lead, .word t.word name⟩ with line := max p.line t.stop.line }
      (before ++ [(t, name)]) := by
  refine ⟨?_, ?_, ?_, ?_⟩
  · exact (waiting_draw style p ⟨lead, .word t.word name⟩).trans passed.waiting
  · cases lead with
    | none => exact passed.quiet
    | space => exact passed.quiet
    | line => rfl
  · have frames := framesBehind_map t.word name t.start t.stop (openForms [] before)
    rw [openForms_append]
    refine Eq.trans ?_ frames
    rw [← passed.frames, ← frames_go style p lead]
    rfl
  · intro last isLast
    rw [List.getLast?_concat] at isLast
    obtain rfl := Option.some.inj isLast
    exact ⟨Int.max_eq_right below, by simp only; omega⟩

/-- Behind other tokens the pen sees whether a token stands off. -/
theorem gapBefore_of_passed {tokens : List Token} {rest : List (Token × String)} {t : Token}
    {name : String} (passed : Passed p before) (behind : before ≠ [])
    (split : Token.named [] tokens = before ++ (t, name) :: rest) :
    p.gapBefore t = true ↔ Token.StandsOff tokens before.length := by
  obtain ⟨line, positive⟩ := passed.line _ (List.getLast?_eq_some_getLast behind)
  rw [Token.standsOff_iff_of_split split (List.getLast?_eq_some_getLast behind), ← line]
  simp [gapBefore, positive]

theorem gapBefore_eq {tokens tokens' : List Token} (gaps : Token.SameGaps tokens tokens')
    {rest rest' : List (Token × String)} {t u : Token} {name name' : String}
    (passed : Passed p before) (passed' : Passed q before')
    (split : Token.named [] tokens = before ++ (t, name) :: rest)
    (split' : Token.named [] tokens' = before' ++ (u, name') :: rest')
    (length : before'.length = before.length) (opens : t.kind = .openParen) (titled : name ≠ "")
    (parent : (openForms [] before).head? = some Schema.rootForm) :
    p.gapBefore t = q.gapBefore u := by
  have behind : before ≠ [] := by
    rintro rfl
    simp [openForms] at parent
  have behind' : before' ≠ [] := by
    rwa [← List.length_pos_iff, length, List.length_pos_iff]
  have inside : before.length < tokens.length := by
    rw [← Token.map_fst_named [] tokens, split]
    simp
  have same := gaps _ inside (Token.beginsSection_of_split split opens titled parent)
  rw [Bool.eq_iff_iff, gapBefore_of_passed passed behind split,
    gapBefore_of_passed passed' behind' split', same, length]

private theorem word_head {front front' : List (Token × String)}
    (words : front.map (fun entry => (entry.1.word, entry.2)) =
      front'.map fun entry => (entry.1.word, entry.2)) (e e' : Position) (t u : Token) :
    (((front ++ [(Token.eof e, "")]).head?.map Prod.fst).getD t).word =
      (((front' ++ [(Token.eof e', "")]).head?.map Prod.fst).getD u).word := by
  cases front with
  | nil =>
      obtain rfl := List.map_eq_nil_iff.mp words.symm
      rfl
  | cons entry front =>
      obtain ⟨entry', front', rfl, here, -⟩ := List.map_eq_cons_iff.mp words.symm
      exact (congrArg Prod.fst here).symm

/-- Pens on the same page draw the same strokes for the same words if the sections among these
stand off alike. -/
theorem strokes_eq {tokens tokens' : List Token} (gaps : Token.SameGaps tokens tokens')
    {front front' : List (Token × String)} {line line' : Int} {e e' : Position}
    (same : p.page = q.page) (passed : Passed p before) (passed' : Passed q before')
    (split : Token.named [] tokens = before ++ (front ++ [(Token.eof e, "")]))
    (split' : Token.named [] tokens' = before' ++ (front' ++ [(Token.eof e', "")]))
    (length : before'.length = before.length)
    (words : front.map (fun entry => (entry.1.word, entry.2)) =
      front'.map fun entry => (entry.1.word, entry.2))
    (spelled : ∀ entry ∈ front, entry.1.word.IsSpelled)
    (down : Token.Descend line (front.map Prod.fst)) (lower : p.line ≤ line) (positive : 0 < line)
    (down' : Token.Descend line' (front'.map Prod.fst)) (lower' : q.line ≤ line')
    (positive' : 0 < line') :
    p.strokes style (front ++ [(Token.eof e, "")]) =
      q.strokes style (front' ++ [(Token.eof e', "")]) := by
  induction front generalizing p q before before' front' line line' with
  | nil =>
      obtain rfl := List.map_eq_nil_iff.mp words.symm
      simp [strokes, Token.isEnd, Token.eof, passed.waiting, passed'.waiting, remarks]
  | cons entry front ih =>
      obtain ⟨⟨u, name'⟩, front', rfl, here, later⟩ := List.map_eq_cons_iff.mp words.symm
      obtain ⟨t, name⟩ := entry
      obtain ⟨word, rfl⟩ : u.word = t.word ∧ name' = name := by simpa using here
      obtain ⟨head, tail⟩ := List.forall_mem_cons.mp spelled
      obtain ⟨start, stop, behind⟩ : line ≤ t.start.line ∧ t.start.line ≤ t.stop.line ∧
        Token.Descend t.stop.line (front.map Prod.fst) := down
      obtain ⟨start', stop', behind'⟩ : line' ≤ u.start.line ∧ u.start.line ≤ u.stop.line ∧
        Token.Descend u.stop.line (front'.map Prod.fst) := down'
      have lead : p.leadOf style t.word
            (((front ++ [(Token.eof e, "")]).head?.map Prod.fst).getD t).word name'
            (p.gapBefore t) =
          q.leadOf style u.word
            (((front' ++ [(Token.eof e', "")]).head?.map Prod.fst).getD u).word name'
            (q.gapBefore u) := by
        rw [leadOf_of_passed passed _ _ _ (gapBefore_eq gaps passed passed' split split' length),
          ← leadOf_page, same, leadOf_page, word, word_head later.symm e e' t u]
      rw [List.cons_append, List.cons_append,
        strokes_of_word style t name' _ head (by simp [passed.waiting]),
        strokes_of_word style u name' _ (word ▸ head) (by simp [passed'.waiting]), lead, word]
      refine congrArg (_ :: ·) (ih (draw_page style same _)
        (passed.draw _ name' (by omega) (by omega)) ?_ (split.trans (List.append_cons ..))
        (split'.trans (List.append_cons ..)) (by simp [length]) later.symm tail behind ?_ (by omega)
        behind' ?_ (by omega))
      · rw [← word]
        exact passed'.draw _ name' (by omega) (by omega)
      · exact Int.max_le.mpr ⟨by omega, Int.le_refl _⟩
      · exact Int.max_le.mpr ⟨by omega, Int.le_refl _⟩

end Pen

namespace Style

open Balance

/-- The layout of formatted text is canonical: two sources with the same words and no comments on
lines of their own are formatted alike, unless a section stands more than a line below the word
before it in one of them only. -/
theorem format_eq_of_sameGaps (style : Style) {source source' : String}
    {tokens tokens' : List Token} (found : Token.ofSource source = .ok tokens)
    (found' : Token.ofSource source' = .ok tokens')
    (words : tokens.map Token.word = tokens'.map Token.word)
    (alone : ∀ c ∈ Comment.ofSource source, c.standalone = false)
    (alone' : ∀ c ∈ Comment.ofSource source', c.standalone = false)
    (gaps : Token.SameGaps (Token.balance tokens) (Token.balance tokens')) :
    ∃ text, style.format source = .ok text ∧ style.format source' = .ok text := by
  have bare {cs : List Comment} (alone : ∀ c ∈ cs, c.standalone = false) :
      cs.filter Comment.standalone = [] := by
    simpa using alone
  have results : (Balance.results (ofTokens tokens)).map Token.word =
      (Balance.results (ofTokens tokens')).map Token.word :=
    results_congr (named_congr (beforeEnd_congr words))
  have down {source : String} {tokens : List Token} (found : Token.ofSource source = .ok tokens) :
      Token.Descend Position.first.line
        ((Token.named [] (Balance.results (ofTokens tokens))).map Prod.fst) := by
    rw [Token.map_fst_named]
    exact descend_results found
  have same : style.strokes (Comment.ofSource source) tokens =
      style.strokes (Comment.ofSource source') tokens' := by
    rw [strokes, strokes, bare alone, bare alone', named_balance, named_balance]
    exact Pen.strokes_eq gaps rfl Pen.passed_start Pen.passed_start (named_balance tokens)
      (named_balance tokens') rfl (named_congr results) (isSpelled_of_results found)
      (down found) (by decide) (by decide) (down found') (by decide) (by decide)
  refine ⟨_, style.format_eq found, ?_⟩
  rw [style.format_eq found', same]

theorem format_eq_of_sameGaps_unclosed : ∃ text,
    (Style.mk [' ', ' '] 80).format "(wire (meta :v 1) ; old\n\n\n  (screen home (box" = .ok text ∧
      (Style.mk [' ', ' '] 80).format "( wire\n(meta\t:v 1)\n\n(screen\r\nhome ( box" =
        .ok text := by
  have tokens : Token.ofSource "(wire (meta :v 1) ; old\n\n\n  (screen home (box" =
      .ok [⟨.openParen, "(", ⟨1, 1⟩, ⟨1, 2⟩⟩, ⟨.symbol, "wire", ⟨1, 2⟩, ⟨1, 6⟩⟩,
        ⟨.openParen, "(", ⟨1, 7⟩, ⟨1, 8⟩⟩, ⟨.symbol, "meta", ⟨1, 8⟩, ⟨1, 12⟩⟩,
        ⟨.keyword, "v", ⟨1, 13⟩, ⟨1, 15⟩⟩, ⟨.number, "1", ⟨1, 16⟩, ⟨1, 17⟩⟩,
        ⟨.closeParen, ")", ⟨1, 17⟩, ⟨1, 18⟩⟩, ⟨.openParen, "(", ⟨4, 3⟩, ⟨4, 4⟩⟩,
        ⟨.symbol, "screen", ⟨4, 4⟩, ⟨4, 10⟩⟩, ⟨.symbol, "home", ⟨4, 11⟩, ⟨4, 15⟩⟩,
        ⟨.openParen, "(", ⟨4, 16⟩, ⟨4, 17⟩⟩, ⟨.symbol, "box", ⟨4, 17⟩, ⟨4, 20⟩⟩,
        Token.eof ⟨4, 20⟩] := by
    cbv
  have tokens' : Token.ofSource "( wire\n(meta\t:v 1)\n\n(screen\r\nhome ( box" =
      .ok [⟨.openParen, "(", ⟨1, 1⟩, ⟨1, 2⟩⟩, ⟨.symbol, "wire", ⟨1, 3⟩, ⟨1, 7⟩⟩,
        ⟨.openParen, "(", ⟨2, 1⟩, ⟨2, 2⟩⟩, ⟨.symbol, "meta", ⟨2, 2⟩, ⟨2, 6⟩⟩,
        ⟨.keyword, "v", ⟨2, 7⟩, ⟨2, 9⟩⟩, ⟨.number, "1", ⟨2, 10⟩, ⟨2, 11⟩⟩,
        ⟨.closeParen, ")", ⟨2, 11⟩, ⟨2, 12⟩⟩, ⟨.openParen, "(", ⟨4, 1⟩, ⟨4, 2⟩⟩,
        ⟨.symbol, "screen", ⟨4, 2⟩, ⟨4, 8⟩⟩, ⟨.symbol, "home", ⟨5, 1⟩, ⟨5, 5⟩⟩,
        ⟨.openParen, "(", ⟨5, 6⟩, ⟨5, 7⟩⟩, ⟨.symbol, "box", ⟨5, 8⟩, ⟨5, 11⟩⟩,
        Token.eof ⟨5, 11⟩] := by
    cbv
  have comments : Comment.ofSource "(wire (meta :v 1) ; old\n\n\n  (screen home (box" =
      [⟨1, 19, "; old", false⟩] := by
    cbv
  have comments' : Comment.ofSource "( wire\n(meta\t:v 1)\n\n(screen\r\nhome ( box" = [] := by
    cbv
  exact format_eq_of_sameGaps ⟨[' ', ' '], 80⟩ tokens tokens' (by decide) (by simp [comments])
    (by simp [comments']) (by decide +kernel)

end Style
end Wireframe
