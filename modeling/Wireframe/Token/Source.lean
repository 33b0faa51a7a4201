import Wireframe.Token.Lexeme

/-!
# The tokens of a source

A source is read from its start: white space and comments, which run from a semicolon to the end of
the line, stand between lexemes, and the end of the source is a token of its own.
-/

namespace Wireframe

/-- A place where a source is not made of tokens. -/
structure LexFault where
  /-- What is wrong. -/
  cause : LexCause
  /-- Where it is wrong. -/
  position : Position
  deriving DecidableEq, Repr

/-- The message and place of a lexical fault. -/
def LexFault.diagnostic (f : LexFault) : Diagnostic :=
  ⟨f.cause.message, f.position⟩

namespace Token

/-- Whether a character belongs to the line that it stands in. -/
def isInLine (c : Char) : Bool :=
  c != '\n'

/-- Read the tokens of a text that begins at a position. -/
def ofChars : List Char → Position → Except LexFault (List Token)
  | [], p => .ok [eof p]
  | c :: rest, p =>
    if Lexeme.isSpace c then ofChars rest (p.after c)
    else if c = ';' then
      ofChars (rest.dropWhile isInLine) (p.afterAll (c :: rest.takeWhile isInLine))
    else
      match Lexeme.read c rest with
      | .error stuck => .error ⟨stuck.cause, p.afterAll ((c :: rest).take stuck.offset)⟩
      | .ok lexeme =>
        let stop := p.afterAll (c :: rest.take lexeme.extra)
        (ofChars (rest.drop lexeme.extra) stop).map (lexeme.toToken p stop :: ·)
termination_by cs => cs.length
decreasing_by
  · simp
  · have := (List.dropWhile_sublist isInLine (l := rest)).length_le
    simp only [List.length_cons]
    omega
  · simp only [List.length_drop, List.length_cons]
    omega

/-- Read the tokens of a source. -/
def ofSource (source : String) : Except LexFault (List Token) :=
  ofChars source.toList Position.first

/-- Where a list of tokens ends. -/
def endOf (tokens : List Token) : Position :=
  (tokens.getLast?.map Token.stop).getD Position.first

/-- The tokens of a text are followed by its end, which stands behind its last character. -/
theorem ofChars_eq_append_eof {cs : List Char} {p : Position} {tokens : List Token}
    (found : ofChars cs p = .ok tokens) :
    ∃ front, tokens = front ++ [eof (p.afterAll cs)] ∧ ∀ t ∈ front, t.kind ≠ .eof := by
  fun_induction ofChars cs p generalizing tokens with
  | case1 p =>
    obtain rfl := Except.ok.inj found
    exact ⟨[], by simp, by simp⟩
  | case2 c rest p space ih => exact ih found
  | case3 rest p space ih =>
    obtain ⟨front, rfl, kinds⟩ := ih found
    refine ⟨front, ?_, kinds⟩
    rw [← Position.afterAll_append, List.cons_append, List.takeWhile_append_dropWhile]
  | case4 => simp at found
  | case5 c rest p space _ lexeme read stop =>
    rename_i ih
    cases later : ofChars (rest.drop lexeme.extra) stop with
    | error fault => simp [later, Except.map] at found
    | ok behind =>
      obtain ⟨front, rfl, kinds⟩ := ih later
      simp only [later, Except.map, Except.ok.injEq] at found
      subst found
      refine ⟨lexeme.toToken p stop :: front, ?_, ?_⟩
      · rw [← Position.afterAll_append, List.cons_append, List.take_append_drop, List.cons_append]
      · intro t member
        cases member with
        | head => exact Lexeme.kind_read_ne_eof read
        | tail _ later => exact kinds t later

/-- Every token of a text starts and stops at a place that a source has. -/
theorem isProper_ends_of_ofChars {cs : List Char} {p : Position} (proper : p.isProper)
    {tokens : List Token} (found : ofChars cs p = .ok tokens) :
    ∀ t ∈ tokens, t.start.isProper ∧ t.stop.isProper := by
  fun_induction ofChars cs p generalizing tokens with
  | case1 p =>
    obtain rfl := Except.ok.inj found
    exact List.forall_mem_singleton.mpr ⟨proper, proper⟩
  | case2 c rest p space ih => exact ih (Position.isProper_after proper c) found
  | case3 rest p space ih => exact ih (Position.isProper_afterAll proper _) found
  | case4 => simp at found
  | case5 c rest p space _ lexeme read stop ih =>
    have isProper : stop.isProper := Position.isProper_afterAll proper _
    cases later : ofChars (rest.drop lexeme.extra) stop with
    | error fault => simp [later, Except.map] at found
    | ok behind =>
      simp only [later, Except.map, Except.ok.injEq] at found
      subst found
      exact List.forall_mem_cons.mpr ⟨⟨proper, isProper⟩, ih isProper later⟩

theorem isProper_of_ofChars {cs : List Char} {p : Position} (proper : p.isProper)
    {tokens : List Token} (found : ofChars cs p = .ok tokens) :
    ∀ t ∈ tokens, t.start.isProper :=
  fun t member => (isProper_ends_of_ofChars proper found t member).1

@[simp]
theorem endOf_concat (tokens : List Token) (t : Token) : endOf (tokens ++ [t]) = t.stop := by
  simp [endOf]

end Token
end Wireframe
