import Wireframe.Proofs.Apart

/-!
# Tokens tile their source

The line and column of every token are those of two offsets of its source.  Between these offsets
stands the token as it is spelled, and the spans of different tokens do not cross.  What is left
of the source is white space and comments, each of which runs to the end of its line.
-/

namespace Wireframe

namespace Position

/-- The line and column of an offset: one more than the newlines before it, and one more than the
characters between the last of them and the offset. -/
def ofOffset (source : List Char) (i : Nat) : Position :=
  ⟨1 + (source.take i).count '\n', 1 + ((source.take i).reverse.takeWhile Token.isInLine).length⟩

/-- Walking from the start of a source counts its newlines and the characters of its last line. -/
theorem afterAll_first (cs : List Char) :
    first.afterAll cs =
      ⟨1 + cs.count '\n', 1 + (cs.reverse.takeWhile Token.isInLine).length⟩ := by
  induction cs using List.reverseRecOn with
  | nil => rfl
  | append_singleton cs c ih =>
      rw [afterAll_append, ih, afterAll_cons, afterAll_nil, List.count_append, List.reverse_append,
        List.reverse_singleton, List.singleton_append, List.takeWhile_cons]
      by_cases newline : c = '\n'
      · simp [after, newline, Token.isInLine]
        omega
      · simp [after, newline, Token.isInLine]
        omega

theorem ofOffset_eq_afterAll (source : List Char) (i : Nat) :
    ofOffset source i = first.afterAll (source.take i) :=
  (afterAll_first _).symm

/-- Walking over characters of a source goes to the offset behind them. -/
theorem afterAll_ofOffset (source : List Char) (i n : Nat) :
    (ofOffset source i).afterAll ((source.drop i).take n) = ofOffset source (i + n) := by
  rw [ofOffset_eq_afterAll, ofOffset_eq_afterAll, ← afterAll_append, ← List.take_add]

theorem ofOffset_of_length_le {source : List Char} {i : Nat} (beyond : source.length ≤ i) :
    ofOffset source i = ofOffset source source.length := by
  rw [ofOffset, ofOffset, List.take_of_length_le beyond, List.take_length]

theorem precedes_ofOffset {source : List Char} {i j : Nat} (later : i < j)
    (inside : j ≤ source.length) : (ofOffset source i).Precedes (ofOffset source j) := by
  have here : i < source.length := by omega
  obtain ⟨n, rfl⟩ : ∃ n, j = i + (n + 1) := ⟨j - i - 1, by omega⟩
  rw [← afterAll_ofOffset, List.drop_eq_getElem_cons here, List.take_succ_cons]
  apply precedes_afterAll

end Position

/-- A stretch of a source from one offset to another. -/
structure Span where
  /-- The offset of the first character. -/
  start : Nat
  /-- The offset behind the last character. -/
  stop : Nat
  deriving DecidableEq, Repr

namespace Span

variable {source : List Char} {s r : Span} {t : Token} {n i : Nat}

/-- Whether an offset lies in a span. -/
def Covers (s : Span) (i : Nat) : Prop :=
  s.start ≤ i ∧ i < s.stop

/-- The characters of a span. -/
def slice (source : List Char) (s : Span) : List Char :=
  (source.take s.stop).drop s.start

/-- Whether a span ends no later than another one starts. -/
def Before (s r : Span) : Prop :=
  s.stop ≤ r.start

/-- Whether a kind of token is a name, which goes on as long as there are symbol characters. -/
def IsName (kind : TokenKind) : Prop :=
  kind = .symbol ∨ kind = .keyword ∨ kind = .param ∨ kind = .hash

/-- Whether a token stands at a span of a source. -/
structure Holds (source : List Char) (s : Span) (t : Token) : Prop where
  start : t.start = Position.ofOffset source s.start
  stop : t.stop = Position.ofOffset source s.stop
  spelled : t.kind ≠ .string → s.slice source = t.text.toList
  quoted : t.kind = .string → ∃ inside, s.slice source = '"' :: (inside ++ ['"'])
  ends : IsName t.kind → ∀ c ∈ source[s.stop]?, Lexeme.isSymbolChar c = false

/-- Whether a span is a comment, from its semicolon to the end of the line. -/
structure IsComment (source : List Char) (s : Span) : Prop where
  line : ∃ line, s.slice source = ';' :: line ∧ '\n' ∉ line
  ends : ∀ c ∈ source[s.stop]?, c = '\n'

theorem slice_add (source : List Char) (n k : Nat) :
    slice source ⟨n, n + k⟩ = (source.drop n).take k := by
  rw [slice, List.drop_take]
  simp only [Nat.add_sub_cancel_left]

end Span

/-- Whether an offset belongs to white space, or to a comment apart from the spans of words. -/
def IsGap (source : List Char) (n : Nat) (spans : List Span) (i : Nat) : Prop :=
  (∀ c ∈ source[i]?, Lexeme.isSpace c = true) ∨
    ∃ r : Span, r.Covers i ∧ r.IsComment source ∧ n ≤ r.start ∧ ∀ s ∈ spans, s.Before r ∨ r.Before s

/-- Whether words stand at spans of a source from an offset on, with nothing but white space and
comments around them. -/
structure Tiles (source : List Char) (n : Nat) (words : List Token) (spans : List Span) : Prop where
  inside : ∀ s ∈ spans, n ≤ s.start ∧ s.start < s.stop ∧ s.stop ≤ source.length
  ordered : spans.Pairwise Span.Before
  holds : List.Forall₂ (Span.Holds source) spans words
  between : ∀ i, n ≤ i → i < source.length → (∀ s ∈ spans, ¬s.Covers i) → IsGap source n spans i

section Gaps

variable {source : List Char} {m n i : Nat} {spans : List Span}

theorem IsGap.mono (gap : IsGap source m spans i) (below : n ≤ m) : IsGap source n spans i := by
  rcases gap with space | ⟨r, covers, comment, later, apart⟩
  · exact Or.inl space
  · exact Or.inr ⟨r, covers, comment, Nat.le_trans below later, apart⟩

theorem IsGap.cons {s : Span} (gap : IsGap source m spans i) (ends : s.stop ≤ m) (below : n ≤ m) :
    IsGap source n (s :: spans) i := by
  rcases gap with space | ⟨r, covers, comment, later, apart⟩
  · exact Or.inl space
  · refine Or.inr ⟨r, covers, comment, Nat.le_trans below later, ?_⟩
    exact List.forall_mem_cons.mpr ⟨Or.inl (Nat.le_trans ends later), apart⟩

end Gaps

namespace Tiles

variable {source : List Char} {n : Nat} {words : List Token} {spans : List Span}

theorem nil (ended : source.length ≤ n) : Tiles source n [] [] where
  inside := by simp
  ordered := List.Pairwise.nil
  holds := List.Forall₂.nil
  between := by
    intro i above below
    omega

theorem space {c : Char} (here : source[n]? = some c) (space : Lexeme.isSpace c = true)
    (later : Tiles source (n + 1) words spans) : Tiles source n words spans where
  inside := by
    intro s member
    have := later.inside s member
    omega
  ordered := later.ordered
  holds := later.holds
  between := by
    intro i above below outside
    by_cases first : i = n
    · apply Or.inl
      intro d found
      rw [first, here] at found
      exact Option.some.inj found ▸ space
    · exact (later.between i (by omega) below outside).mono (by omega)

theorem comment {stop : Nat} (comment : Span.IsComment source ⟨n, stop⟩) (length : n ≤ stop)
    (later : Tiles source stop words spans) : Tiles source n words spans where
  inside := by
    intro s member
    have := later.inside s member
    omega
  ordered := later.ordered
  holds := later.holds
  between := by
    intro i above below outside
    by_cases covered : i < stop
    · refine Or.inr ⟨⟨n, stop⟩, ⟨above, covered⟩, comment, Nat.le_refl n, ?_⟩
      intro s member
      exact Or.inr (later.inside s member).1
    · exact (later.between i (by omega) below outside).mono length

theorem cons {t : Token} {stop : Nat} (holds : Span.Holds source ⟨n, stop⟩ t) (length : n < stop)
    (fits : stop ≤ source.length) (later : Tiles source stop words spans) :
    Tiles source n (t :: words) (⟨n, stop⟩ :: spans) where
  inside := by
    intro s member
    cases member with
    | head => exact ⟨Nat.le_refl n, length, fits⟩
    | tail _ further =>
        have := later.inside s further
        omega
  ordered := List.pairwise_cons.mpr ⟨fun s member => (later.inside s member).1, later.ordered⟩
  holds := List.Forall₂.cons holds later.holds
  between := by
    intro i above below outside
    obtain ⟨notHere, notLater⟩ := List.forall_mem_cons.mp outside
    have beyond : stop ≤ i := Nat.le_of_not_lt fun inside => notHere ⟨above, inside⟩
    exact (later.between i beyond below notLater).cons (Nat.le_refl stop) (by omega)

end Tiles

private theorem drop_length_takeWhile (p : Char → Bool) (cs : List Char) :
    cs.drop (cs.takeWhile p).length = cs.dropWhile p := by
  have whole := List.takeWhile_append_dropWhile (p := p) (l := cs)
  calc cs.drop (cs.takeWhile p).length
      = (cs.takeWhile p ++ cs.dropWhile p).drop (cs.takeWhile p).length := by rw [whole]
    _ = cs.dropWhile p := List.drop_left

namespace Lexeme

variable {c : Char} {rest : List Char} {l : Lexeme}

private theorem head?_drop_takeWhile_not (p : Char → Bool) (rest : List Char) :
    ∀ d ∈ (rest.drop (rest.takeWhile p).length).head?, p d = false := by
  rw [drop_length_takeWhile]
  exact Word.not_of_head?_dropWhile

private theorem ends_of_marked {kind : TokenKind} {missing : LexCause}
    (found : marked kind missing rest = .ok l) :
    ∀ d ∈ (rest.drop l.extra).head?, isSymbolChar d = false := by
  simp only [marked] at found
  split at found
  · simp at found
  · obtain rfl := Except.ok.inj found
    apply head?_drop_takeWhile_not

/-- A name is read as far as it goes on. -/
theorem ends_of_read (found : read c rest = .ok l) (name : Span.IsName l.kind) :
    ∀ d ∈ (rest.drop l.extra).head?, isSymbolChar d = false := by
  unfold read at found
  repeat' split at found
  · obtain rfl := Except.ok.inj found
    simp [Span.IsName] at name
  · obtain rfl := Except.ok.inj found
    simp [Span.IsName] at name
  · simp [Span.IsName, kind_quoted found] at name
  · exact ends_of_marked found
  · exact ends_of_marked found
  · exact ends_of_marked found
  · obtain rfl := Except.ok.inj found
    simp [Span.IsName, numeral] at name
  · obtain rfl := Except.ok.inj found
    apply head?_drop_takeWhile_not
  · simp at found

theorem fits_of_read {source : List Char} {n : Nat} (here : source.drop n = c :: rest)
    (found : read c rest = .ok l) : n + (l.extra + 1) ≤ source.length := by
  have whole := congrArg List.length here
  have := extra_read_le found
  rw [List.length_drop, List.length_cons] at whole
  omega

theorem holds_of_read {source : List Char} {n : Nat} (here : source.drop n = c :: rest)
    (found : read c rest = .ok l) :
    Span.Holds source ⟨n, n + (l.extra + 1)⟩
      (l.toToken (Position.ofOffset source n)
        (Position.ofOffset source (n + (l.extra + 1)))) where
  start := rfl
  stop := rfl
  spelled := by
    intro other
    rw [Span.slice_add, here, List.take_succ_cons, take_of_read found other,
      Word.chars_of_ne_string other]
    simp [Token.text, toToken]
  quoted := by
    intro string
    obtain ⟨rfl, text, body⟩ := body?_of_read found string
    obtain ⟨inside, taken, -⟩ := Comment.passes_body? body
    rw [Span.slice_add, here, List.take_succ_cons, taken]
    exact ⟨inside, rfl⟩
  ends := by
    intro name
    have behind := ends_of_read found name
    rw [← List.drop_succ_cons, ← here, List.drop_drop, List.head?_drop] at behind
    exact behind

end Lexeme

namespace Token

theorem take_line {source rest : List Char} {n : Nat} (here : source.drop n = ';' :: rest) :
    (source.drop n).take ((rest.takeWhile isInLine).length + 1) =
      ';' :: rest.takeWhile isInLine := by
  rw [here, List.take_succ_cons, ← List.prefix_iff_eq_take.mp (List.takeWhile_prefix isInLine)]

theorem drop_line {source rest : List Char} {n : Nat} (here : source.drop n = ';' :: rest) :
    source.drop (n + ((rest.takeWhile isInLine).length + 1)) = rest.dropWhile isInLine := by
  rw [← List.drop_drop, here, List.drop_succ_cons, drop_length_takeWhile]

/-- The comment that begins at an offset runs to the end of its line. -/
theorem isComment_of_line {source rest : List Char} {n : Nat} (here : source.drop n = ';' :: rest) :
    Span.IsComment source ⟨n, n + ((rest.takeWhile isInLine).length + 1)⟩ where
  line := by
    refine ⟨rest.takeWhile isInLine, ?_, ?_⟩
    · rw [Span.slice_add, take_line here]
    · intro member
      have inLine := List.all_eq_true.mp List.all_takeWhile _ member
      exact absurd inLine (by decide)
  ends := by
    have behind := Comment.ends_of_dropWhile rest
    rw [← drop_length_takeWhile, ← List.drop_succ_cons (a := ';'), ← here, List.drop_drop,
      List.head?_drop] at behind
    exact behind

/-- The tokens of a source from an offset on tile the rest of the source. -/
theorem tiles_of_ofChars {source cs : List Char} {p : Position} {n : Nat} {tokens : List Token}
    (here : source.drop n = cs) (place : p = Position.ofOffset source n)
    (found : ofChars cs p = .ok tokens) :
    ∃ words spans, tokens = words ++ [eof (Position.ofOffset source source.length)] ∧
      Tiles source n words spans := by
  fun_induction ofChars cs p generalizing n tokens with
  | case1 p =>
      obtain rfl := Except.ok.inj found
      have ended := List.drop_eq_nil_iff.mp here
      refine ⟨[], [], ?_, Tiles.nil ended⟩
      rw [place, Position.ofOffset_of_length_le ended, List.nil_append]
  | case2 c rest p space ih =>
      have next : source.drop (n + 1) = rest := by rw [← List.drop_drop, here, List.drop_one]; rfl
      have onward := Position.afterAll_ofOffset source n 1
      rw [here, ← place] at onward
      obtain ⟨words, spans, split, tiles⟩ := ih next onward found
      have head : source[n]? = some c := by rw [← List.head?_drop, here]; rfl
      exact ⟨words, spans, split, tiles.space head space⟩
  | case3 rest p space ih =>
      have onward := Position.afterAll_ofOffset source n ((rest.takeWhile isInLine).length + 1)
      rw [take_line here, ← place] at onward
      obtain ⟨words, spans, split, tiles⟩ := ih (drop_line here) onward found
      exact ⟨words, spans, split, tiles.comment (isComment_of_line here) (by omega)⟩
  | case4 => simp at found
  | case5 c rest p space _ lexeme read stop =>
      rename_i ih
      have next : source.drop (n + (lexeme.extra + 1)) = rest.drop lexeme.extra := by
        rw [← List.drop_drop, here, List.drop_succ_cons]
      have onward := Position.afterAll_ofOffset source n (lexeme.extra + 1)
      rw [here, ← place, List.take_succ_cons] at onward
      cases later : ofChars (rest.drop lexeme.extra) stop with
      | error fault => simp [later, Except.map] at found
      | ok behind =>
          simp only [later, Except.map, Except.ok.injEq] at found
          subst found
          obtain ⟨words, spans, rfl, tiles⟩ := ih next onward later
          have holds := Lexeme.holds_of_read here read
          rw [← place, ← onward] at holds
          exact ⟨_, _, rfl, tiles.cons holds (by omega) (Lexeme.fits_of_read here read)⟩

/-- The tokens of a source tile it: each stands between two offsets that give its line and column,
these spans do not cross, the end stands behind the last character, and around the spans there is
only white space and comments. -/
theorem ofSource_tiles {source : String} {tokens : List Token}
    (found : ofSource source = .ok tokens) :
    ∃ words spans,
      tokens = words ++ [eof (Position.ofOffset source.toList source.toList.length)] ∧
        (∀ t ∈ words, t.kind ≠ .eof) ∧ Tiles source.toList 0 words spans := by
  have here : source.toList.drop 0 = source.toList := rfl
  obtain ⟨words, spans, split, tiles⟩ := tiles_of_ofChars here rfl found
  obtain ⟨front, same, inner⟩ := ofChars_eq_append_eof found
  have fronts := List.append_inj_left' (split.symm.trans same) rfl
  exact ⟨words, spans, split, fronts ▸ inner, tiles⟩

theorem ofSource_tiles_comment : ∃ tokens words spans,
    ofSource "(wire \"\\n\n\" ; (\n:on)" = .ok tokens ∧
      tokens = words ++ [eof (Position.ofOffset "(wire \"\\n\n\" ; (\n:on)".toList 20)] ∧
        (∀ t ∈ words, t.kind ≠ .eof) ∧ Tiles "(wire \"\\n\n\" ; (\n:on)".toList 0 words spans := by
  have found : ofSource "(wire \"\\n\n\" ; (\n:on)" =
      .ok [⟨.openParen, "(", ⟨1, 1⟩, ⟨1, 2⟩⟩, ⟨.symbol, "wire", ⟨1, 2⟩, ⟨1, 6⟩⟩,
        ⟨.string, "\n\n", ⟨1, 7⟩, ⟨2, 2⟩⟩, ⟨.keyword, "on", ⟨3, 1⟩, ⟨3, 4⟩⟩,
        ⟨.closeParen, ")", ⟨3, 4⟩, ⟨3, 5⟩⟩, eof ⟨3, 5⟩] := by
    cbv
  obtain ⟨words, spans, tiles⟩ := ofSource_tiles found
  exact ⟨_, words, spans, found, tiles⟩

end Token
end Wireframe
