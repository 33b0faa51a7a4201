import Wireframe.Proofs.Legible
import Wireframe.Proofs.Standing

/-!
# Formatting mends nesting

Formatted text has balanced tokens, so that what is read of it has no fault of nesting, unless its
source has an overlay outside all screens.
-/

namespace Wireframe

open Balance Form

namespace Token

/-- Whether every list but the first begins with a symbol other than the name of a root form, or is
the parameter list of a definition. -/
def ListsNamed (tokens : List Token) : Prop :=
  ∀ i < tokens.length, 0 < i → ∀ t ∈ tokens[i]?, t.kind = .openParen →
    nextSymbol (tokens.drop (i + 1)) ≠ some Schema.rootForm ∧
      (nextSymbol (tokens.drop (i + 1)) ≠ none ∨ startsParams (tokens.take i).reverse = true)

instance (tokens : List Token) : Decidable (ListsNamed tokens) :=
  inferInstanceAs (Decidable (∀ i < tokens.length, 0 < i → ∀ t ∈ tokens[i]?, _ → _))

theorem startsRoot_iff {tokens : List Token} : startsRoot tokens = true ↔
    ∃ t rest, tokens = t :: rest ∧ t.kind = .openParen ∧
      nextSymbol rest = some Schema.rootForm := by
  match tokens with
  | [] => simp [startsRoot]
  | [t] => simp [startsRoot, nextSymbol]
  | t :: name :: rest =>
      simp only [startsRoot, isSymbol, Bool.and_eq_true, beq_iff_eq, List.cons.injEq, nextSymbol]
      constructor
      · rintro ⟨opens, symbol, isRoot⟩
        exact ⟨t, _, ⟨rfl, rfl⟩, opens, by simp [symbol, isRoot]⟩
      · rintro ⟨u, _, ⟨rfl, rfl⟩, opens, root⟩
        have isRoot : name.kind = .symbol ∧ name.value = Schema.rootForm := by simpa using root
        exact ⟨opens, isRoot⟩

end Token

namespace Balance

theorem startsRoot_congr {tokens tokens' : List Token}
    (words : tokens.map Token.word = tokens'.map Token.word)
    (starts : Token.startsRoot tokens = true) : Token.startsRoot tokens' = true := by
  obtain ⟨t, rest, rfl, opens, root⟩ := Token.startsRoot_iff.mp starts
  obtain ⟨u, rest', rfl, word, behind⟩ := List.map_eq_cons_iff.mp words.symm
  refine Token.startsRoot_iff.mpr ⟨u, rest', rfl, ?_, ?_⟩
  · exact (congrArg Word.kind word).trans opens
  · rw [← root]
    exact nextSymbol_congr behind

theorem orderly_congr {tokens tokens' : List Token}
    (words : tokens.map Token.word = tokens'.map Token.word) (orderly : Orderly tokens) :
    Orderly tokens' := by
  obtain ⟨settled, ⟨first, behind, rfl, headed⟩, symbols⟩ := orderly
  refine ⟨settled_named_congr words settled, ?_, fun t member symbol => ?_⟩
  · obtain ⟨u, behind', rfl, word, later⟩ := List.map_eq_cons_iff.mp words.symm
    refine ⟨u, behind', rfl, headed_congr ?_ later.symm headed⟩
    obtain ⟨kind, value⟩ : u.kind = first.kind ∧ u.value = first.value := by
      simpa [Token.word] using word
    simp [heading, Heading.past, kind]
  · have isWord : t.word ∈ (first :: behind).map Token.word := by
      rw [words]
      exact List.mem_map_of_mem member
    obtain ⟨u, inside, same⟩ := List.mem_map.mp isWord
    obtain ⟨kind, value⟩ : u.kind = t.kind ∧ u.value = t.value := by
      simpa [Token.word] using same
    rw [← value]
    exact symbols u inside (kind.trans symbol)

private theorem nextSymbol_concat_eof (tokens : List Token) (p : Position) :
    nextSymbol (tokens ++ [Token.eof p]) = nextSymbol tokens := by
  cases tokens with
  | nil => simp [nextSymbol, Token.eof]
  | cons t rest => rfl

private theorem headed_of_listsNamed {t : Token} {rest : List Token} {p : Position}
    (named : Token.ListsNamed (t :: rest ++ [Token.eof p]))
    (symbols : ∀ u ∈ t :: rest, u.kind = .symbol → u.value ≠ "") : Headed [t] rest := by
  refine headed_iff.mpr fun front u back split opens untitled => ?_
  subst split
  have here := named (front.length + 1) (by simp) (by omega) u (by simp) opens
  have behind : (t :: (front ++ u :: back) ++ [Token.eof p]).drop (front.length + 1 + 1) =
      back ++ [Token.eof p] := by simp
  have before : ((t :: (front ++ u :: back) ++ [Token.eof p]).take (front.length + 1)).reverse =
      front.reverse ++ [t] := by simp
  rw [behind, before, nextSymbol_concat_eof, startsParams_iff] at here
  rw [formName_eq, if_neg untitled]
  have some := here.2.resolve_right untitled
  cases back with
  | nil => simp [nextSymbol] at some
  | cons v back =>
      have symbol : v.kind = .symbol := by simpa [nextSymbol] using some
      have value := symbols v (by simp) symbol
      simpa [nextSymbol, symbol, value] using here.1

private theorem symbol_ne_empty {source : String} {tokens : List Token}
    (found : Token.ofSource source = .ok tokens) :
    ∀ u ∈ tokens, u.kind = .symbol → u.value ≠ "" := by
  intro u member symbol empty
  have spelled := Token.isSpelled_of_ofChars found member (by simp [symbol])
  simp [Word.IsSpelled, symbol, empty] at spelled

private theorem results_root {t : Token} {rest : List Token} {p : Position}
    (inner : ∀ u ∈ t :: rest, u.kind ≠ .eof) (opens : t.kind = .openParen)
    (root : nextSymbol rest = some Schema.rootForm) :
    results (ofTokens (t :: rest ++ [Token.eof p])) =
      t :: results (edits [Schema.rootForm] t.stop (Token.named [t] rest)) := by
  have name : Token.formName [] rest = Schema.rootForm := by
    simp [formName_eq, heading, root]
  rw [ofTokens, beforeEnd_concat_eof inner, Token.named, if_pos opens, edits_openParen opens,
    (endedBefore_eq_zero_iff _ _).mpr (placed_outside _), name]
  rfl

/-- Balancing the tokens of a source with a root form makes them orderly if the lists in it are
named. -/
theorem orderly_results {source : String} {tokens : List Token}
    (found : Token.ofSource source = .ok tokens) (starts : Token.startsRoot tokens = true)
    (named : Token.ListsNamed tokens) :
    Orderly (results (ofTokens tokens)) ∧ Token.startsRoot (Token.balance tokens) = true := by
  have symbols := symbol_ne_empty found
  have orderly : ∀ u ∈ results (ofTokens tokens), u.kind = .symbol → u.value ≠ "" := by
    intro u member symbol
    rcases mem_results_cases member with kept | ⟨p, rfl⟩
    · exact symbols u ((List.takeWhile_sublist _).mem kept) symbol
    · simp [Token.closer] at symbol
  obtain ⟨front, rfl, inner⟩ := Token.ofChars_eq_append_eof found
  cases front with
  | nil => simp [Token.startsRoot] at starts
  | cons t rest =>
      have opens := Token.opens_of_startsRoot starts
      obtain ⟨_, _, same, -, root⟩ := Token.startsRoot_iff.mp starts
      obtain ⟨rfl, rfl⟩ := List.cons.inj ((List.cons_append ..).symm.trans same)
      rw [nextSymbol_concat_eof] at root
      have left := results_root (p := Position.first.afterAll source.toList) inner opens root
      have headed := headed_of_listsNamed named fun u member =>
        symbols u (List.mem_append_left _ member)
      refine ⟨⟨settled_ofTokens _, ⟨t, _, left, ?_⟩, orderly⟩, ?_⟩
      · exact headed_edits t.stop rest rfl (by simp) headed
      · rw [Token.balance, ← results, left]
        refine Token.startsRoot_iff.mpr ⟨t, _, List.cons_append, opens, ?_⟩
        rw [nextSymbol_concat_eof, nextSymbol_results, root]

private theorem openForms_congr {stack : List String} {front front' : List (Token × String)}
    (same : front.map (fun entry => (entry.1.word, entry.2)) =
      front'.map fun entry => (entry.1.word, entry.2)) :
    openForms stack front = openForms stack front' := by
  induction front generalizing stack front' with
  | nil =>
      obtain rfl := List.map_eq_nil_iff.mp same.symm
      rfl
  | cons entry front ih =>
      obtain ⟨⟨u, name'⟩, front', rfl, here, later⟩ := List.map_eq_cons_iff.mp same.symm
      obtain ⟨t, name⟩ := entry
      obtain ⟨word, rfl⟩ : u.word = t.word ∧ name' = name := by simpa using here
      have kind : u.kind = t.kind := congrArg Word.kind word
      simp only [openForms, kind]
      split
      · exact ih later.symm
      · exact ih later.symm
      · exact ih later.symm

/-- The names of forms come from the words of tokens alone, and so do the overlays outside
screens. -/
theorem mended_congr {balanced balanced' tokens : List Token} {f : Fault}
    (words : balanced.map Token.word = balanced'.map Token.word)
    (mended : Mended balanced tokens f) : Mended balanced' tokens f := by
  obtain ⟨cause, position⟩ := f
  cases cause with
  | misplacedOverlay name =>
      obtain ⟨front, t, back, u, split, opens, outside, here, same⟩ := mended
      have entries := named_congr words
      rw [split, List.map_append, List.map_cons] at entries
      obtain ⟨front', rest, split', fronts, behind⟩ := List.map_eq_append_iff.mp entries.symm
      obtain ⟨⟨t', name'⟩, back', rfl, entry, -⟩ := List.map_eq_cons_iff.mp behind
      obtain ⟨word, rfl⟩ : t'.word = t.word ∧ name' = name := by simpa using entry
      have kind : t'.kind = t.kind := congrArg Word.kind word
      have length : front'.length = front.length := by
        simpa using congrArg List.length fronts
      refine ⟨front', t', back', u, split', kind.trans opens, ?_, length ▸ here, same⟩
      rwa [openForms_congr fronts]
  | _ => exact mended

private theorem mended_concat_eof {balanced tokens : List Token} {f : Fault} (p q : Position)
    (mended : Mended balanced tokens f) :
    Mended (balanced ++ [Token.eof p]) (tokens ++ [Token.eof q]) f := by
  obtain ⟨cause, position⟩ := f
  cases cause with
  | misplacedOverlay name =>
      obtain ⟨front, t, back, u, split, opens, outside, here, same⟩ := mended
      refine ⟨front, t, back ++ [(Token.eof p, "")], u, ?_, opens, outside, ?_, same⟩
      · rw [named_concat_eof, split, List.append_assoc, List.cons_append]
      · rwa [List.getElem?_append_left (List.getElem?_eq_some_iff.mp here).1]
  | _ => exact mended

end Balance

namespace Document

/-- What is read of orderly tokens of a source has no fault of nesting but overlays outside
screens. -/
theorem yields_mended {limit : Int} {source : String} {front : List Token} {p : Position}
    (found : Token.ofSource source = .ok (front ++ [Token.eof p]))
    (inner : ∀ t ∈ front, t.kind ≠ .eof) (orderly : Orderly front)
    (starts : Token.startsRoot (front ++ [Token.eof p]) = true)
    (shallow : ¬Token.Exceeds limit (front ++ [Token.eof p]))
    (counts : Token.FiniteCounts (front ++ [Token.eof p])) :
    (ofTokens limit (front ++ [Token.eof p])).Yields (Mended front front) := by
  have sound : ∀ t ∈ front ++ [Token.eof p], t.Sound (Mended front front) := by
    refine Token.sound_of_ofSource found fun t member cause other => ?_
    cases cause with
    | misplacedOverlay | misplacedForm | childrenOfLeaf | unclosed =>
        simp [FaultCause.isNesting] at other
    | _ => trivial
  have closed := closed_rootForm inner orderly.settled starts
  obtain ⟨opener, name, items, closer, behind, unclosed, root, same, symbol, shaped, inside,
    bound⟩ :=
    ofTokens_of_startsRoot inner shallow starts
  rw [root] at closed
  have repeats := counts.repeats.of_isInfix (List.prefix_append front _).isInfix
  obtain ⟨rootSound, follows⟩ := sound_of_tokens rfl shaped sound repeats inside
  have whole := closed.tokens_append rfl inside bound
  rw [same]
  refine yields_ofEntries (granted_node orderly) rootSound follows (fun form member => ?_) ?_
  · obtain ⟨before, back, split⟩ := List.append_of_mem (List.mem_cons_of_mem (.atom name) member)
    have reached := reached_all front
    rw [← whole] at reached
    have isRoot : nameIn (heading []) (.atom name :: items) = Schema.rootForm := by
      obtain ⟨kind, value⟩ : name.kind = .symbol ∧ name.value = Schema.rootForm := by
        simpa [Token.isSymbol] using symbol
      simp [nameIn, heading, headName, kind, value]
    obtain ⟨before', rest', inner', same'⟩ := reached_item closed reached split
    rw [whole] at inner'
    refine holds_node ((closed_list_iff.mp closed).2.2 form (List.mem_cons_of_mem _ member)) inner'
      fun titled => ?_
    have outside : heading [] ≠ .titled := by simp [heading]
    have isDefine := (nameIn_of_titled closed outside split (same' ▸ titled)).1
    exact absurd (isRoot.symm.trans isDefine) (by decide)
  · intro ends
    rw [Token.isEnd, (closed_list_iff.mp closed).2.1] at ends
    exact absurd ends (by decide)

end Document

namespace Style

/-- Formatting mends the nesting of a source with a root form in which every other list is named:
its text has a document, and no list is left open, no form in the wrong place, no form in an element
without children, and no overlay out of its screen. -/
theorem format_mends_nesting (style : Style) (unmarked : ∀ c ∈ style.indent, c = ' ' ∨ c = '\t')
    (limit : Int) {source : String} {tokens : List Token}
    (found : Token.ofSource source = .ok tokens) (starts : Token.startsRoot tokens = true)
    (named : Token.ListsNamed tokens) :
    ∃ text again, style.format source = .ok text ∧ Token.ofSource text = .ok again ∧
      (¬Token.Exceeds limit again → Token.FiniteCounts again →
        (∃ d, (Document.ofSource limit text).value? = some d) ∧
        ∀ f ∈ (Document.ofSource limit text).faults, Mended (Token.balance tokens) again f) := by
  obtain ⟨text, again, written, read, words⟩ :=
    style.format_keeps_words (isSpace_indent unmarked) found
  refine ⟨text, again, written, read, fun shallow counts => ?_⟩
  obtain ⟨orderly, balanced⟩ := orderly_results found starts named
  have starts' := startsRoot_congr words.symm balanced
  obtain ⟨front, rfl, inner⟩ := Token.ofChars_eq_append_eof read
  have fronts : front.map Token.word = (results (ofTokens tokens)).map Token.word := by
    rw [Token.balance, List.map_append, List.map_append] at words
    exact (List.append_inj' words rfl).1
  obtain ⟨mended, d, value⟩ :=
    Document.yields_mended read inner (orderly_congr fronts.symm orderly) starts' shallow counts
  simp only [Document.ofSource, read]
  refine ⟨⟨d, by rw [Attempt.value?, value]⟩, fun f member => ?_⟩
  rw [Attempt.faults, value] at member
  exact mended_congr words (mended_concat_eof _ _ (mended f member))

theorem format_mends_nesting_overlay :
    ∃ text again, (Style.mk [' ', ' '] 80).format "(wire (layout a (modal (text (box" = .ok text ∧
      Token.ofSource text = .ok again ∧ ¬Token.Exceeds 10 again ∧ Token.FiniteCounts again ∧
      ∃ tokens, Token.ofSource "(wire (layout a (modal (text (box" = .ok tokens ∧
        (∃ d, (Document.ofSource 10 text).value? = some d) ∧
        ∀ f ∈ (Document.ofSource 10 text).faults, Mended (Token.balance tokens) again f := by
  have tokens : Token.ofSource "(wire (layout a (modal (text (box" =
      .ok [⟨.openParen, "(", ⟨1, 1⟩, ⟨1, 2⟩⟩, ⟨.symbol, "wire", ⟨1, 2⟩, ⟨1, 6⟩⟩,
        ⟨.openParen, "(", ⟨1, 7⟩, ⟨1, 8⟩⟩, ⟨.symbol, "layout", ⟨1, 8⟩, ⟨1, 14⟩⟩,
        ⟨.symbol, "a", ⟨1, 15⟩, ⟨1, 16⟩⟩, ⟨.openParen, "(", ⟨1, 17⟩, ⟨1, 18⟩⟩,
        ⟨.symbol, "modal", ⟨1, 18⟩, ⟨1, 23⟩⟩, ⟨.openParen, "(", ⟨1, 24⟩, ⟨1, 25⟩⟩,
        ⟨.symbol, "text", ⟨1, 25⟩, ⟨1, 29⟩⟩, ⟨.openParen, "(", ⟨1, 30⟩, ⟨1, 31⟩⟩,
        ⟨.symbol, "box", ⟨1, 31⟩, ⟨1, 34⟩⟩, Token.eof ⟨1, 34⟩] := by
    cbv
  obtain ⟨text, again, written, read, mended⟩ :=
    format_mends_nesting ⟨[' ', ' '], 80⟩ (by simp) 10 tokens (by rfl) (by decide +kernel)
  have comments : Comment.ofSource "(wire (layout a (modal (text (box" = [] := by
    cbv
  have format : (Style.mk [' ', ' '] 80).format "(wire (layout a (modal (text (box" =
      .ok "(wire\n  (layout a\n    (modal\n      (text)\n      (box))))\n" := by
    rw [format_eq _ tokens, comments]
    decide +kernel
  obtain rfl := Except.ok.inj (written.symm.trans format)
  have found : Token.ofSource "(wire\n  (layout a\n    (modal\n      (text)\n      (box))))\n" =
      .ok [⟨.openParen, "(", ⟨1, 1⟩, ⟨1, 2⟩⟩, ⟨.symbol, "wire", ⟨1, 2⟩, ⟨1, 6⟩⟩,
        ⟨.openParen, "(", ⟨2, 3⟩, ⟨2, 4⟩⟩, ⟨.symbol, "layout", ⟨2, 4⟩, ⟨2, 10⟩⟩,
        ⟨.symbol, "a", ⟨2, 11⟩, ⟨2, 12⟩⟩, ⟨.openParen, "(", ⟨3, 5⟩, ⟨3, 6⟩⟩,
        ⟨.symbol, "modal", ⟨3, 6⟩, ⟨3, 11⟩⟩, ⟨.openParen, "(", ⟨4, 7⟩, ⟨4, 8⟩⟩,
        ⟨.symbol, "text", ⟨4, 8⟩, ⟨4, 12⟩⟩, ⟨.closeParen, ")", ⟨4, 12⟩, ⟨4, 13⟩⟩,
        ⟨.openParen, "(", ⟨5, 7⟩, ⟨5, 8⟩⟩, ⟨.symbol, "box", ⟨5, 8⟩, ⟨5, 11⟩⟩,
        ⟨.closeParen, ")", ⟨5, 11⟩, ⟨5, 12⟩⟩, ⟨.closeParen, ")", ⟨5, 12⟩, ⟨5, 13⟩⟩,
        ⟨.closeParen, ")", ⟨5, 13⟩, ⟨5, 14⟩⟩, ⟨.closeParen, ")", ⟨5, 14⟩, ⟨5, 15⟩⟩,
        Token.eof ⟨6, 1⟩] := by
    cbv
  obtain rfl := Except.ok.inj (read.symm.trans found)
  refine ⟨_, _, written, read, ?shallow, ?counts, _, tokens, mended ?shallow ?counts⟩
  case shallow => exact Token.tooDeep?_eq_none.mp (by rfl)
  case counts => decide +kernel

end Style
end Wireframe
