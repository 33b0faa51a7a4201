import Wireframe.Proofs.Accepted
import Wireframe.Proofs.Legible
import Wireframe.Proofs.SameWords

/-!
# Formatting keeps the meaning

Balancing leaves an accepted source as it is, so formatting moves its words to other places and does
nothing else.  Moved words are read and compiled alike.
-/

namespace Wireframe

open List (Forall₂)

namespace Document

/-- An accepted source is read the same under every limit that it is not nested too deeply for. -/
theorem ofSource_eq_pure_or {limit : Int} {source : String} {d : Document}
    (read : ofSource limit source = pure d) (nesting : Int) :
    ofSource nesting source = pure d ∨
      ∃ t, ofSource nesting source = Attempt.fail .tooDeep t := by
  rw [ofSource] at read ⊢
  cases found : Token.ofSource source with
  | error fault =>
      rw [found] at read
      simp [pure] at read
  | ok tokens =>
      simp only [found] at read ⊢
      unfold ofTokens at read ⊢
      split at read
      · exact absurd read (Attempt.fail_ne_pure _ _ _)
      · split
        · exact .inr ⟨_, rfl⟩
        · exact .inl read

end Document

/-- Two sources are alike if their tokens are. -/
def AlikeSources (source text : String) : Prop :=
  ∃ tokens tokens', Token.ofSource source = .ok tokens ∧ Token.ofSource text = .ok tokens' ∧
    Forall₂ Token.Alike tokens tokens'

theorem AlikeSources.of_words {source text : String} {tokens tokens' : List Token}
    (found : Token.ofSource source = .ok tokens) (found' : Token.ofSource text = .ok tokens')
    (words : tokens.map Token.word = tokens'.map Token.word) : AlikeSources source text := by
  have proper := Token.isProper_of_ofChars (p := .first) rfl found
  have proper' := Token.isProper_of_ofChars (p := .first) rfl found'
  exact ⟨tokens, tokens', found, found', Token.forall₂_alike words proper proper'⟩

section Alike

variable {source text : String} (same : AlikeSources source text)
include same

theorem AlikeSources.alike_ofSource (Φ Ψ : Fault → Prop) (limit : Int) :
    (Document.ofSource limit source).Alike Φ Ψ (Document.Alike Φ Ψ)
      (Document.ofSource limit text) := by
  obtain ⟨tokens, tokens', found, found', words⟩ := same
  have ended : ∃ t ∈ tokens, t.isEnd := by
    obtain ⟨front, rfl, -⟩ := Token.ofChars_eq_append_eof found
    exact ⟨Token.eof _, List.mem_concat_self, rfl⟩
  rw [Document.ofSource, Document.ofSource, found, found']
  exact Document.alike_ofTokens limit words (Document.alike_ending words ended)

theorem AlikeSources.ofSource_eq_pure {limit : Int} {d : Document}
    (read : Document.ofSource limit source = pure d) :
    ∃ e, Document.ofSource limit text = pure e ∧ d.bare = e.bare := by
  have alike := same.alike_ofSource (fun _ => False) (fun _ => True) limit
  rw [read] at alike
  obtain ⟨e, read', related⟩ := alike.eq_pure
  exact ⟨e, read', related.bare_eq⟩

/-- Alike sources of which one is accepted compile to the same success, errors and warnings, under
whatever limit. -/
theorem AlikeSources.agree_compile {limit : Int} {d : Document}
    (read : Document.ofSource limit source = pure d) (options : CompileOptions) :
    ∃ before after, options.compile source = .ok before ∧ options.compile text = .ok after ∧
      after.Agree before := by
  rcases Document.ofSource_eq_pure_or read options.nesting with accepted | ⟨t, deep⟩
  · obtain ⟨e, accepted', bare⟩ := same.ofSource_eq_pure accepted
    refine ⟨d.finish options.strict [], e.finish options.strict [], ?_, ?_,
      Document.agree_finish bare.symm options.strict⟩
    · rw [CompileOptions.compile, CompileOptions.read, accepted]
      rfl
    · rw [CompileOptions.compile, CompileOptions.read, accepted']
      rfl
  · have alike := same.alike_ofSource (fun _ => False) (fun _ => True) options.nesting
    rw [deep] at alike
    obtain ⟨u, deep'⟩ := alike.eq_fail
    refine ⟨.ofFaults none [⟨.tooDeep, t.start⟩], .ofFaults none [⟨.tooDeep, u⟩], ?_, ?_, rfl, rfl,
      rfl⟩
    · rw [CompileOptions.compile, CompileOptions.read, deep]
      rfl
    · rw [CompileOptions.compile, CompileOptions.read, deep']
      rfl

end Alike

theorem Document.balance_of_ofSource {limit : Int} {source : String} {d : Document}
    (read : ofSource limit source = pure d) :
    ∃ tokens, Token.ofSource source = .ok tokens ∧ Token.balance tokens = tokens := by
  rw [ofSource] at read
  cases found : Token.ofSource source with
  | error fault =>
      rw [found] at read
      simp [pure] at read
  | ok tokens =>
      rw [found] at read
      obtain ⟨front, rfl, inner⟩ := Token.ofChars_eq_append_eof found
      exact ⟨_, rfl, balance_of_accepted inner read⟩

namespace Style

theorem alikeSources_format (style : Style) (space : ∀ c ∈ style.indent, Lexeme.isSpace c = true)
    {source : String} {tokens : List Token} (found : Token.ofSource source = .ok tokens)
    (balanced : Token.balance tokens = tokens) :
    ∃ text, style.format source = .ok text ∧ AlikeSources source text := by
  obtain ⟨p, again⟩ := ofSource_strokes space found
  have words := words_located_eof style (Comment.ofSource source) tokens Position.first p
  rw [balanced] at words
  exact ⟨_, style.format_eq found, .of_words found again words.symm⟩

/-- Formatting an accepted source leaves its tokens as they are and keeps what it means: the text is
accepted with the same document, places apart, and compiles to the same success, errors and
warnings. -/
theorem format_keeps_meaning (style : Style) (unmarked : ∀ c ∈ style.indent, c = ' ' ∨ c = '\t')
    {limit : Int} {source : String} (accepted : (Document.ofSource limit source).succeeds) :
    (∃ tokens, Token.ofSource source = .ok tokens ∧ Token.balance tokens = tokens) ∧
      ∃ text, style.format source = .ok text ∧ (Document.ofSource limit text).succeeds ∧
        (Document.ofSource limit text).value?.map Document.bare =
          (Document.ofSource limit source).value?.map Document.bare ∧
        ∀ options : CompileOptions, ∃ before after, options.compile source = .ok before ∧
          options.compile text = .ok after ∧ after.Agree before := by
  obtain ⟨d, read⟩ := Attempt.succeeds_iff.mp accepted
  obtain ⟨tokens, found, balanced⟩ := Document.balance_of_ofSource read
  obtain ⟨text, written, same⟩ :=
    style.alikeSources_format (isSpace_indent unmarked) found balanced
  obtain ⟨e, again, bare⟩ := same.ofSource_eq_pure read
  refine ⟨⟨tokens, found, balanced⟩, text, written, ?_, ?_, same.agree_compile read⟩
  · rw [again, Attempt.succeeds_pure]
  · rw [again, read]
    exact congrArg some bare.symm

theorem format_keeps_meaning_screen :
    ∃ text, (Style.mk [' ', ' '] 80).format "(wire (screen a ; start\n(box :gap 2)))" = .ok text ∧
      (Document.ofSource 10 text).succeeds ∧
      (Document.ofSource 10 text).value?.map Document.bare =
        (Document.ofSource 10 "(wire (screen a ; start\n(box :gap 2)))").value?.map
          Document.bare := by
  have tokens : Token.ofSource "(wire (screen a ; start\n(box :gap 2)))" =
      .ok [⟨.openParen, "(", ⟨1, 1⟩, ⟨1, 2⟩⟩, ⟨.symbol, "wire", ⟨1, 2⟩, ⟨1, 6⟩⟩,
        ⟨.openParen, "(", ⟨1, 7⟩, ⟨1, 8⟩⟩, ⟨.symbol, "screen", ⟨1, 8⟩, ⟨1, 14⟩⟩,
        ⟨.symbol, "a", ⟨1, 15⟩, ⟨1, 16⟩⟩, ⟨.openParen, "(", ⟨2, 1⟩, ⟨2, 2⟩⟩,
        ⟨.symbol, "box", ⟨2, 2⟩, ⟨2, 5⟩⟩, ⟨.keyword, "gap", ⟨2, 6⟩, ⟨2, 10⟩⟩,
        ⟨.number, "2", ⟨2, 11⟩, ⟨2, 12⟩⟩, ⟨.closeParen, ")", ⟨2, 12⟩, ⟨2, 13⟩⟩,
        ⟨.closeParen, ")", ⟨2, 13⟩, ⟨2, 14⟩⟩, ⟨.closeParen, ")", ⟨2, 14⟩, ⟨2, 15⟩⟩,
        Token.eof ⟨2, 15⟩] := by
    cbv
  have accepted : (Document.ofSource 10 "(wire (screen a ; start\n(box :gap 2)))").succeeds := by
    rw [Document.ofSource, tokens]
    rfl
  obtain ⟨-, text, written, again, bare, -⟩ :=
    format_keeps_meaning ⟨[' ', ' '], 80⟩ (by simp) accepted
  exact ⟨text, written, again, bare⟩

end Style
end Wireframe
