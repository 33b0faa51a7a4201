import Wireframe.Proofs.Mirror

/-!
# Semicolons outside tokens

The search for comments and the reading of tokens go over a source each in its own way, but where
the source is made of tokens they agree on it: comments are what starts with a semicolon outside all
tokens, the first of its line.
-/

namespace Wireframe

namespace Position

variable {source : List Char} {i j n k : Nat}

theorem line_le_ofOffset (source : List Char) (later : i ≤ j) :
    (ofOffset source i).line ≤ (ofOffset source j).line := by
  obtain ⟨k, rfl⟩ := Nat.exists_eq_add_of_le later
  rw [← afterAll_ofOffset]
  exact line_le_afterAll _ _

/-- Offsets between which no line ends stand in one line. -/
theorem line_ofOffset_add (inLine : '\n' ∉ (source.drop n).take k) :
    (ofOffset source (n + k)).line = (ofOffset source n).line := by
  rw [← afterAll_ofOffset, line_afterAll, List.count_eq_zero.mpr inLine]
  simp

theorem line_ofOffset_succ_of_ne (inLine : source[n]? ≠ some '\n') :
    (ofOffset source (n + 1)).line = (ofOffset source n).line := by
  apply line_ofOffset_add
  rw [List.take_one, List.head?_drop]
  simpa [eq_comm] using inLine

theorem line_lt_ofOffset_succ (newline : source[n]? = some '\n') :
    (ofOffset source n).line < (ofOffset source (n + 1)).line := by
  rw [← afterAll_ofOffset, List.take_one, List.head?_drop, newline, line_afterAll]
  exact Int.lt_succ _

end Position

/-- Whether two offsets of a source stand in one line. -/
def SameLine (source : List Char) (i j : Nat) : Prop :=
  (Position.ofOffset source i).line = (Position.ofOffset source j).line

instance (source : List Char) (i j : Nat) : Decidable (SameLine source i j) :=
  inferInstanceAs (Decidable (_ = _))

namespace Lexeme

/-- A lexeme ends in the line of its last character. -/
theorem last_ne_newline {c : Char} {rest : List Char} {l : Lexeme} (found : read c rest = .ok l) :
    (c :: rest)[l.extra]? ≠ some '\n' := by
  intro newline
  have last : (c :: rest.take l.extra).getLast? = some '\n' := by
    rw [← List.take_succ_cons, List.getLast?_take, if_neg (Nat.succ_ne_zero _), Nat.add_sub_cancel,
      newline]
    rfl
  by_cases string : l.kind = .string
  · obtain ⟨rfl, text, body⟩ := body?_of_read found string
    obtain ⟨inside, taken, -⟩ := Comment.passes_body? body
    rw [taken, ← List.cons_append, List.getLast?_concat] at last
    exact absurd last (by decide)
  · have plain := Word.plain_chars (Word.isSpelled_of_read found) string
      (take_of_read found string ▸ List.mem_of_getLast? last)
    exact plain.2.2 rfl

end Lexeme

namespace Token

variable {source : List Char} {tokens behind : List Token} {t : Token} {i m : Nat}

/-- Whether an offset of a source lies in the span of a token. -/
def Covers (source : List Char) (t : Token) (i : Nat) : Prop :=
  ¬(Position.ofOffset source i).Precedes t.start ∧ (Position.ofOffset source i).Precedes t.stop

instance : Decidable (t.Covers source i) :=
  inferInstanceAs (Decidable (_ ∧ _))

/-- Whether an offset of a source lies outside the spans of all tokens. -/
def Outside (source : List Char) (tokens : List Token) (i : Nat) : Prop :=
  ∀ t ∈ tokens, ¬t.Covers source i

instance : Decidable (Outside source tokens i) :=
  inferInstanceAs (Decidable (∀ t ∈ tokens, _))

theorem covers_of_between {n k : Nat} (start : t.start = Position.ofOffset source n)
    (stop : t.stop = Position.ofOffset source k) (fits : k ≤ source.length) :
    ∀ i, n ≤ i → i < k → t.Covers source i := by
  intro i above below
  rw [Covers, start, stop]
  exact ⟨Position.not_precedes_ofOffset above (by omega), Position.precedes_ofOffset below fits⟩

/-- Tokens that are read from an offset on do not cover any offset before it. -/
theorem le_of_covers
    (found : ofChars (source.drop m) (Position.ofOffset source m) = .ok behind)
    (member : t ∈ behind) (covers : Covers source t i) : m ≤ i := by
  obtain ⟨words, spans, rfl, tiles⟩ := tiles_of_ofChars rfl rfl found
  rcases List.mem_append.mp member with isWord | isEnd
  · obtain ⟨s, isSpan, holds⟩ := exists_span tiles.holds isWord
    obtain ⟨above, length, fits⟩ := tiles.inside s isSpan
    by_contra below
    refine covers.1 ?_
    rw [holds.start]
    exact Position.precedes_ofOffset (by omega) (by omega)
  · rw [List.mem_singleton.mp isEnd] at covers
    exact absurd covers.2 covers.1

end Token

namespace Comment

variable {source : List Char} {tokens behind : List Token} {n m i : Nat} {blank : Bool}

/-- Whether a semicolon stands at an offset of a source, outside all tokens. -/
def FreeAt (source : List Char) (tokens : List Token) (i : Nat) : Prop :=
  source[i]? = some ';' ∧ Token.Outside source tokens i

instance : Decidable (FreeAt source tokens i) :=
  inferInstanceAs (Decidable (_ ∧ _))

/-- Whether the first semicolon of its line that is outside all tokens stands at an offset of a
source. -/
def StartsAt (source : List Char) (tokens : List Token) (i : Nat) : Prop :=
  FreeAt source tokens i ∧ ∀ j < i, SameLine source j i → ¬FreeAt source tokens j

instance : Decidable (StartsAt source tokens i) :=
  inferInstanceAs (Decidable (_ ∧ ∀ j < i, _))

/-- The comment that goes from an offset of a source to the end of the line, without blanks at its
end.  It is standalone unless a token reaches into the line before it. -/
def fromOffset (source : List Char) (tokens : List Token) (i : Nat) : Comment where
  line := (Position.ofOffset source i).line
  column := (Position.ofOffset source i).column
  text := String.ofList
    (Text.dropEndWhile Text.isBlank ((source.drop i).takeWhile Token.isInLine))
  standalone := decide (∀ j < i, SameLine source j i → Token.Outside source tokens j)

/-- The comments that start at some offsets of a source. -/
private def between (source : List Char) (tokens : List Token) (n k : Nat) : List Comment :=
  ((List.range' n k).filter (StartsAt source tokens ·)).map (fromOffset source tokens)

private theorem between_add (n k l : Nat) : between source tokens n (k + l) =
    between source tokens n k ++ between source tokens (n + k) l := by
  rw [between, ← List.range'_append_1, List.filter_append, List.map_append]
  rfl

private theorem between_eq_nil {k : Nat}
    (nowhere : ∀ i, n ≤ i → i < n + k → ¬StartsAt source tokens i) :
    between source tokens n k = [] := by
  rw [between, List.map_eq_nil_iff, List.filter_eq_nil_iff]
  intro i member
  obtain ⟨above, below⟩ := List.mem_range'_1.mp member
  simpa using nowhere i above below

private theorem between_one (starts : StartsAt source tokens n) :
    between source tokens n 1 = [fromOffset source tokens n] := by
  simp [between, starts]

/-- What is known at an offset before which all tokens and comments are passed over. -/
private structure Resumes (source : List Char) (tokens behind : List Token) (n : Nat)
    (blank : Bool) : Prop where
  /-- The tokens in front end before the offset. -/
  passed : ∃ front, tokens = front ++ behind ∧
    ∀ t ∈ front, ¬(Position.ofOffset source n).Precedes t.stop
  /-- The search has kept whether a token reaches into the line. -/
  blank : blank = true ↔ ∀ j < n, SameLine source j n → Token.Outside source tokens j
  /-- No comment has started in the line, unless the line ends here. -/
  fresh : ∀ c, source[n]? = some c → c ≠ '\n' →
    ∀ j < n, SameLine source j n → ¬FreeAt source tokens j

namespace Resumes

/-- No token covers an offset between the place of the search and that of the remaining tokens. -/
private theorem outside (resumes : Resumes source tokens behind n blank)
    (found : Token.ofChars (source.drop m) (Position.ofOffset source m) = .ok behind)
    (above : n ≤ i) (below : i < m) (inside : i ≤ source.length) :
    Token.Outside source tokens i := by
  obtain ⟨front, rfl, passed⟩ := resumes.passed
  intro t member covers
  rcases List.mem_append.mp member with early | late
  · exact passed t early (covers.2.of_not_right (Position.not_precedes_ofOffset above inside))
  · exact absurd (Token.le_of_covers found late covers) (by omega)

private theorem head_mem {t : Token} (resumes : Resumes source tokens (t :: behind) n blank) :
    t ∈ tokens := by
  obtain ⟨front, rfl, -⟩ := resumes.passed
  exact List.mem_append_right front List.mem_cons_self

private theorem passed_mono (resumes : Resumes source tokens behind n blank) (later : n ≤ m)
    (inside : m ≤ source.length) : ∃ front, tokens = front ++ behind ∧
      ∀ t ∈ front, ¬(Position.ofOffset source m).Precedes t.stop := by
  obtain ⟨front, split, passed⟩ := resumes.passed
  refine ⟨front, split, fun t member before => passed t member ?_⟩
  exact before.of_not_right (Position.not_precedes_ofOffset later inside)

private theorem newline (resumes : Resumes source tokens behind n blank)
    (here : source[n]? = some '\n') : Resumes source tokens behind (n + 1) true := by
  have below := Position.line_lt_ofOffset_succ here
  have apart : ∀ j < n + 1, ¬SameLine source j (n + 1) := by
    intro j before same
    have above := Position.line_le_ofOffset source (Nat.lt_succ_iff.mp before)
    unfold SameLine at same
    omega
  refine ⟨resumes.passed_mono (Nat.le_succ n) ?_, ?_, ?_⟩
  · exact (List.getElem?_eq_some_iff.mp here).1
  · exact iff_of_true rfl fun j before same => absurd same (apart j before)
  · exact fun _ _ _ j before same => absurd same (apart j before)

private theorem space {c : Char} (resumes : Resumes source tokens behind n blank)
    (here : source[n]? = some c) (inLine : c ≠ '\n') (notSemicolon : c ≠ ';')
    (outside : Token.Outside source tokens n) : Resumes source tokens behind (n + 1) blank := by
  have same (j : Nat) : SameLine source j (n + 1) ↔ SameLine source j n := by
    rw [SameLine, SameLine, Position.line_ofOffset_succ_of_ne (by simp [here, inLine])]
  refine ⟨resumes.passed_mono (Nat.le_succ n) ?_, ?_, ?_⟩
  · exact (List.getElem?_eq_some_iff.mp here).1
  · rw [resumes.blank, Nat.forall_lt_succ_right]
    simp only [same]
    exact (and_iff_left fun _ => outside).symm
  · intro _ _ _
    rw [Nat.forall_lt_succ_right]
    simp only [same]
    refine ⟨resumes.fresh c here inLine, fun _ free => notSemicolon ?_⟩
    exact Option.some.inj (here.symm.trans free.1)

private theorem skip {c : Char} (resumes : Resumes source tokens behind n blank)
    (here : source[n]? = some c) (isBlank : Text.isBlank c = true) (notSemicolon : c ≠ ';')
    (outside : Token.Outside source tokens n) :
    Resumes source tokens behind (n + 1) (blankAfter blank c) := by
  by_cases newline : c = '\n'
  · rw [newline] at here ⊢
    exact resumes.newline here
  · have still : blankAfter blank c = blank := by simp [blankAfter, newline, isBlank]
    rw [still]
    exact resumes.space here newline notSemicolon outside

private theorem comment {k : Nat} (resumes : Resumes source tokens behind n blank)
    (fits : n + k ≤ source.length) (inLine : '\n' ∉ (source.drop n).take k)
    (ends : ∀ c ∈ source[n + k]?, c = '\n')
    (outside : ∀ i, n ≤ i → i < n + k → Token.Outside source tokens i) :
    Resumes source tokens behind (n + k) blank := by
  have same (j : Nat) : SameLine source j (n + k) ↔ SameLine source j n := by
    rw [SameLine, SameLine, Position.line_ofOffset_add inLine]
  refine ⟨resumes.passed_mono (Nat.le_add_right n k) fits, ?_, ?_⟩
  · rw [resumes.blank]
    simp only [same]
    refine ⟨fun clear j before sameLine => ?_, fun clear j before => clear j (by omega)⟩
    by_cases early : j < n
    · exact clear j early sameLine
    · exact outside j (by omega) before
  · exact fun c here notNewline => absurd (ends c here) notNewline

private theorem word {c : Char} {t : Token} {k : Nat}
    (resumes : Resumes source tokens (t :: behind) n blank) (here : source[n]? = some c)
    (inLine : c ≠ '\n') (last : source[n + k]? ≠ some '\n')
    (fits : n + (k + 1) ≤ source.length) (stop : t.stop = Position.ofOffset source (n + (k + 1)))
    (covers : ∀ i, n ≤ i → i < n + (k + 1) → t.Covers source i) :
    Resumes source tokens behind (n + (k + 1)) false := by
  obtain ⟨front, split, passed⟩ := resumes.passed_mono (Nat.le_add_right n (k + 1)) fits
  have covered (i : Nat) (above : n ≤ i) (below : i < n + (k + 1)) :
      ¬Token.Outside source tokens i :=
    fun outside => outside t resumes.head_mem (covers i above below)
  refine ⟨⟨front ++ [t], by simp [split], ?_⟩, ?_, ?_⟩
  · intro u isFront
    rcases List.mem_append.mp isFront with early | isLast
    · exact passed u early
    · rw [List.mem_singleton.mp isLast, stop]
      exact fun before => before.asymm before
  · -- The last character of the word stands in the line in which the search goes on.
    refine iff_of_false (by simp) fun clear => ?_
    refine covered (n + k) (by omega) (by omega) (clear (n + k) (by omega) ?_)
    exact (Position.line_ofOffset_succ_of_ne last).symm
  · intro d _ _ j before same free
    by_cases early : j < n
    · have down := Position.line_le_ofOffset source (Nat.le_of_lt early)
      have down' := Position.line_le_ofOffset source (Nat.le_add_right n (k + 1))
      refine resumes.fresh c here inLine j early ?_ free
      unfold SameLine at same ⊢
      omega
    · exact covered j (by omega) before free.2

/-- A semicolon where the search goes on starts a comment, and nothing else does in its line. -/
private theorem startsAt {k : Nat} (resumes : Resumes source tokens behind n blank)
    (here : source[n]? = some ';') (inLine : '\n' ∉ (source.drop n).take k) (length : 0 < k)
    (outside : ∀ i, n ≤ i → i < n + k → Token.Outside source tokens i) :
    StartsAt source tokens n ∧ ∀ i, n < i → i < n + k → ¬StartsAt source tokens i := by
  have free : FreeAt source tokens n := ⟨here, outside n le_rfl (by omega)⟩
  refine ⟨⟨free, resumes.fresh ';' here (by decide)⟩, fun i above below starts => ?_⟩
  refine starts.2 n above ?_ free
  have down := Position.line_le_ofOffset source (Nat.le_of_lt above)
  have down' := Position.line_le_ofOffset source (Nat.le_of_lt below)
  rw [Position.line_ofOffset_add inLine] at down'
  exact Int.le_antisymm down down'

end Resumes

private theorem plain_of_isSpace {c : Char} (space : Lexeme.isSpace c = true) :
    c ≠ ';' ∧ c ≠ '"' ∧ Text.isBlank c = true := by
  simp only [Lexeme.isSpace, Bool.or_eq_true, beq_iff_eq] at space
  rcases space with ((rfl | rfl) | rfl) | rfl <;> decide

private theorem line_fits {rest : List Char} (here : source.drop n = ';' :: rest) :
    n + ((rest.takeWhile Token.isInLine).length + 1) ≤ source.length := by
  have whole := congrArg List.length (Token.take_line here)
  simp only [List.length_take, List.length_drop, List.length_cons] at whole
  omega

private theorem newline_not_mem_line {rest : List Char} (here : source.drop n = ';' :: rest) :
    '\n' ∉ (source.drop n).take ((rest.takeWhile Token.isInLine).length + 1) := by
  rw [Token.take_line here]
  intro member
  have inLine := List.all_eq_true.mp List.all_takeWhile '\n'
    ((List.mem_cons.mp member).resolve_left (by decide))
  exact absurd inLine (by decide)

private theorem ofLine_eq_fromOffset {rest : List Char} {p : Position}
    (resumes : Resumes source tokens behind n blank) (here : source.drop n = ';' :: rest)
    (place : p = Position.ofOffset source n) :
    ofLine ⟨false, false, blank, p⟩ (rest.takeWhile Token.isInLine) =
      fromOffset source tokens n := by
  have line : (source.drop n).takeWhile Token.isInLine =
      ';' :: rest.takeWhile Token.isInLine := by
    rw [here, List.takeWhile_cons, if_pos (by decide)]
  have alone : blank = decide (∀ j < n, SameLine source j n → Token.Outside source tokens j) := by
    rw [Bool.eq_iff_iff, decide_eq_true_iff, resumes.blank]
  rw [ofLine, fromOffset, line, ← alone, place]

private theorem between_skip {k : Nat} (fits : n + k ≤ source.length)
    (nowhere : ∀ i, n ≤ i → i < n + k → ¬StartsAt source tokens i) :
    between source tokens n (source.length - n) =
      between source tokens (n + k) (source.length - (n + k)) := by
  have split : source.length - n = k + (source.length - (n + k)) := by omega
  rw [split, between_add, between_eq_nil nowhere, List.nil_append]

private theorem between_comment {k : Nat} (fits : n + (k + 1) ≤ source.length)
    (starts : StartsAt source tokens n)
    (nowhere : ∀ i, n < i → i < n + (k + 1) → ¬StartsAt source tokens i) :
    between source tokens n (source.length - n) = fromOffset source tokens n ::
      between source tokens (n + (k + 1)) (source.length - (n + (k + 1))) := by
  have split : source.length - n = 1 + (source.length - (n + 1)) := by omega
  have onward : n + 1 + k = n + (k + 1) := by omega
  have quiet : ∀ i, n + 1 ≤ i → i < n + 1 + k → ¬StartsAt source tokens i :=
    fun i above below => nowhere i above (onward ▸ below)
  rw [split, between_add, between_one starts, between_skip (by omega) quiet, onward]
  rfl

private theorem ofChars_eq_between {cs : List Char} {p : Position} (here : source.drop n = cs)
    (place : p = Position.ofOffset source n) (found : Token.ofChars cs p = .ok behind)
    (resumes : Resumes source tokens behind n blank) :
    ofChars ⟨false, false, blank, p⟩ cs = between source tokens n (source.length - n) := by
  -- The tokens are read one by one; the search passes over each as a whole.
  fun_induction Token.ofChars cs p generalizing n behind blank with
  | case1 p =>
      have ended := List.drop_eq_nil_iff.mp here
      rw [Nat.sub_eq_zero_of_le ended, ofChars]
      rfl
  | case2 c rest p space ih =>
      have next : source.drop (n + 1) = rest := by rw [← List.drop_drop, here, List.drop_one]; rfl
      have onward := Position.afterAll_ofOffset source n 1
      rw [here, ← place] at onward
      have later : Token.ofChars (source.drop (n + 1)) (Position.ofOffset source (n + 1)) =
          .ok behind := by rw [next, ← onward]; exact found
      have head : source[n]? = some c := by rw [← List.head?_drop, here]; rfl
      have fits : n + 1 ≤ source.length := (List.getElem?_eq_some_iff.mp head).1
      obtain ⟨notSemicolon, notQuote, isBlank⟩ := plain_of_isSpace space
      have quiet : ∀ i, n ≤ i → i < n + 1 → ¬StartsAt source tokens i := by
        intro i above below starts
        obtain rfl : i = n := by omega
        exact notSemicolon (Option.some.inj (head.symm.trans starts.1.1))
      rw [ofChars_cons_plain notSemicolon notQuote, between_skip fits quiet]
      exact ih next onward found (resumes.skip head isBlank notSemicolon
        (resumes.outside later le_rfl n.lt_succ_self (by omega)))
  | case3 rest p notSpace ih =>
      have onward := Position.afterAll_ofOffset source n
        ((rest.takeWhile Token.isInLine).length + 1)
      rw [Token.take_line here, ← place] at onward
      have later := found
      rw [onward, ← Token.drop_line here] at later
      have head : source[n]? = some ';' := by rw [← List.head?_drop, here]; rfl
      have fits := line_fits here
      have outside := fun i above below => resumes.outside later (i := i) above below (by omega)
      obtain ⟨starts, quiet⟩ :=
        resumes.startsAt head (newline_not_mem_line here) (Nat.succ_pos _) outside
      rw [ofChars, if_pos (by simp [Scan.startsComment]), between_comment fits starts quiet]
      exact congrArg₂ List.cons (ofLine_eq_fromOffset resumes here place)
        (ih (Token.drop_line here) onward found (resumes.comment fits (newline_not_mem_line here)
          (Token.isComment_of_line here).ends outside))
  | case4 => simp at found
  | case5 c rest p notSpace _ lexeme read stop =>
      rename_i ih
      have next : source.drop (n + (lexeme.extra + 1)) = rest.drop lexeme.extra := by
        rw [← List.drop_drop, here, List.drop_succ_cons]
      have onward := Position.afterAll_ofOffset source n (lexeme.extra + 1)
      rw [here, ← place, List.take_succ_cons] at onward
      have fits := Lexeme.fits_of_read here read
      have head : source[n]? = some c := by rw [← List.head?_drop, here]; rfl
      have inLine : c ≠ '\n' := by
        rintro rfl
        exact notSpace (by decide)
      have last : source[n + lexeme.extra]? ≠ some '\n' := by
        rw [← List.getElem?_drop, here]
        exact Lexeme.last_ne_newline read
      have covers := Token.covers_of_between (t := lexeme.toToken p stop) place onward fits
      cases later : Token.ofChars (rest.drop lexeme.extra) stop with
      | error fault => simp [later, Except.map] at found
      | ok remaining =>
          simp only [later, Except.map, Except.ok.injEq] at found
          subst found
          have quiet (i : Nat) (above : n ≤ i) (below : i < n + (lexeme.extra + 1)) :
              ¬StartsAt source tokens i :=
            fun starts => starts.1.2 _ resumes.head_mem (covers i above below)
          rw [ofChars_read read, between_skip fits quiet]
          exact ih next onward later (resumes.word head inLine last fits onward covers)

/-- The comments of a source that is made of tokens start where the first semicolon of a line stands
outside all tokens; each goes to the end of its line, and it is standalone unless a token reaches
into the line before it. -/
theorem ofSource_eq_map_fromOffset {source : String} {tokens : List Token}
    (found : Token.ofSource source = .ok tokens) :
    ofSource source =
      ((List.range source.toList.length).filter (StartsAt source.toList tokens ·)).map
        (fromOffset source.toList tokens) := by
  have start : Resumes source.toList tokens tokens 0 true :=
    ⟨⟨[], rfl, nofun⟩, iff_of_true rfl nofun, nofun⟩
  have whole := ofChars_eq_between (List.drop_zero ..) rfl found start
  rw [between, ← List.range_eq_range'] at whole
  exact whole

/-- A source with semicolons between quotes, in a comment, and behind a text that began above. -/
def semicolonSource : String :=
  "; a ; b \n(wire \";\n\" ; c)\n)"

theorem ofSource_eq_map_fromOffset_quoted : ∃ tokens,
    Token.ofSource semicolonSource = .ok tokens ∧
      ofSource semicolonSource = [⟨1, 1, "; a ; b", true⟩, ⟨3, 3, "; c)", false⟩] ∧
      ofSource semicolonSource =
        ((List.range semicolonSource.toList.length).filter
          (StartsAt semicolonSource.toList tokens ·)).map
            (fromOffset semicolonSource.toList tokens) := by
  have found : Token.ofSource semicolonSource =
      .ok [⟨.openParen, "(", ⟨2, 1⟩, ⟨2, 2⟩⟩, ⟨.symbol, "wire", ⟨2, 2⟩, ⟨2, 6⟩⟩,
        ⟨.string, ";\n", ⟨2, 7⟩, ⟨3, 2⟩⟩, ⟨.closeParen, ")", ⟨4, 1⟩, ⟨4, 2⟩⟩,
        Token.eof ⟨4, 2⟩] := by
    cbv
  have comments : ofSource semicolonSource =
      [⟨1, 1, "; a ; b", true⟩, ⟨3, 3, "; c)", false⟩] := by
    cbv
  exact ⟨_, found, comments, ofSource_eq_map_fromOffset found⟩

end Comment
end Wireframe
