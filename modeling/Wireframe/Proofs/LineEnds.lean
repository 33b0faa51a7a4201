import Wireframe.Proofs.Pieces

/-!
# Line ends

No token and no comment goes on over the line end behind a text that is made of tokens, and nothing
but the number of lines is carried over it.  So a text read behind such a line end has the tokens,
or the fault, that it has by itself, further down by the lines before it.
-/

namespace Wireframe

/-- The same column some lines further down. -/
def Position.down (lines : Int) (p : Position) : Position :=
  ⟨p.line + lines, p.column⟩

/-- The same token some lines further down. -/
def Token.down (lines : Int) (t : Token) : Token :=
  ⟨t.kind, t.value, t.start.down lines, t.stop.down lines⟩

/-- The same fault some lines further down. -/
def LexFault.down (lines : Int) (f : LexFault) : LexFault :=
  ⟨f.cause, f.position.down lines⟩

namespace Position

theorem after_down (lines : Int) (p : Position) (c : Char) :
    (p.down lines).after c = (p.after c).down lines := by
  unfold after down
  split
  · rw [Position.mk.injEq]
    exact ⟨Int.add_right_comm p.line lines 1, rfl⟩
  · rfl

theorem afterAll_down (lines : Int) (p : Position) (cs : List Char) :
    (p.down lines).afterAll cs = (p.afterAll cs).down lines := by
  induction cs generalizing p with
  | nil => rfl
  | cons c cs ih => rw [afterAll_cons, afterAll_cons, after_down, ih]

theorem afterAll_newline (cs : List Char) :
    (first.afterAll cs).after '\n' = first.down (cs.count '\n' + 1) := by
  unfold after down
  rw [if_pos rfl, line_afterAll, Position.mk.injEq]
  exact ⟨Int.add_assoc _ _ _, rfl⟩

end Position

namespace Lexeme

variable {c : Char} {cs : List Char} {l : Lexeme}

private theorem takeWhile_newline {p : Char → Bool} (stops : p '\n' = false) (cs rest : List Char) :
    (cs ++ '\n' :: rest).takeWhile p = cs.takeWhile p := by
  rw [List.takeWhile_append, List.takeWhile_cons_of_neg (by simp [stops])]
  split
  · rename_i all
    rw [List.append_nil]
    exact ((List.takeWhile_prefix p).eq_of_length all).symm
  · rfl

private theorem dropWhile_newline {p : Char → Bool} (stops : p '\n' = false) (cs rest : List Char) :
    (cs ++ '\n' :: rest).dropWhile p = cs.dropWhile p ++ '\n' :: rest := by
  rw [List.dropWhile_append, List.dropWhile_cons_of_neg (by simp [stops])]
  split
  · rename_i none
    rw [List.isEmpty_iff.mp none, List.nil_append]
  · rfl

private theorem decimals_newline (cs rest : List Char) :
    decimals (cs ++ '\n' :: rest) = decimals cs := by
  cases cs with
  | nil => rfl
  | cons c cs =>
      by_cases point : c = '.'
      · subst point
        simp only [List.cons_append, decimals, takeWhile_newline (p := isDigit) (by decide)]
      · simp [decimals, point]

private theorem marked_newline (kind : TokenKind) (missing : LexCause) (cs rest : List Char) :
    marked kind missing (cs ++ '\n' :: rest) = marked kind missing cs := by
  simp only [marked, takeWhile_newline (p := isSymbolChar) (by decide)]

private theorem quoted_newline (found : quoted cs = .ok l) (rest : List Char) :
    quoted (cs ++ '\n' :: rest) = .ok l := by
  unfold quoted at found ⊢
  cases inner : Quoted.body? cs with
  | error stuck => simp [inner] at found
  | ok text =>
      cases text with
      | none => simp [inner] at found
      | some text =>
          obtain ⟨value, n⟩ := text
          obtain ⟨body, behind, rfl, rfl, spells⟩ := Quoted.exists_spells_of_body? inner
          rw [inner] at found
          rw [List.append_assoc, List.cons_append, Quoted.body?_of_spells spells]
          exact found

/-- A lexeme that ends before a line end is read as if nothing were behind it. -/
theorem read_newline (found : read c cs = .ok l) (rest : List Char) :
    read c (cs ++ '\n' :: rest) = .ok l := by
  have starts : startsNumber c (cs ++ '\n' :: rest) = startsNumber c cs := by
    cases cs with
    | nil => simp [startsNumber, isDigit]
    | cons d cs => rfl
  have numerals : numeral c (cs ++ '\n' :: rest) = numeral c cs := by
    simp only [numeral, takeWhile_newline (p := isDigit) (by decide),
      dropWhile_newline (p := isDigit) (by decide), decimals_newline]
  unfold read at found ⊢
  simp only [marked_newline, starts, numerals, takeWhile_newline (p := isSymbolChar) (by decide)]
  by_cases quote : c = '"'
  · subst quote
    exact quoted_newline (by simpa using found) rest
  · simpa only [if_neg quote] using found

end Lexeme

namespace Token

/-- A text further down has the same tokens, or the same fault, further down. -/
theorem ofChars_down (lines : Int) (cs : List Char) (p : Position) :
    ofChars cs (p.down lines) =
      ((ofChars cs p).map (List.map (down lines))).mapError (LexFault.down lines) := by
  fun_induction ofChars cs p with
  | case1 p => rw [ofChars]; rfl
  | case2 c rest p space ih => rw [ofChars, if_pos space, Position.after_down, ih]
  | case3 rest p space ih =>
      rw [ofChars, if_neg space, if_pos rfl, Position.afterAll_down, ih]
  | case4 c rest p space comment stuck read =>
      rw [ofChars, if_neg space, if_neg comment, read]
      simp only [Position.afterAll_down]
      rfl
  | case5 c rest p space comment lexeme read stop ih =>
      rw [ofChars, if_neg space, if_neg comment, read]
      simp only [Position.afterAll_down]
      rw [ih]
      cases ofChars (rest.drop lexeme.extra) stop with
      | error fault => rfl
      | ok behind => rfl

theorem ofChars_newline {cs : List Char} {p : Position} {tokens : List Token}
    (found : ofChars cs p = .ok tokens) (rest : List Char) :
    ofChars (cs ++ '\n' :: rest) p =
      (ofChars rest ((p.afterAll cs).after '\n')).map (tokens.dropLast ++ ·) := by
  fun_induction ofChars cs p generalizing tokens with
  | case1 p =>
      obtain rfl := Except.ok.inj found
      rw [List.nil_append, ofChars, if_pos (by decide), Position.afterAll_nil]
      cases ofChars rest (p.after '\n') with
      | error fault => rfl
      | ok behind => rfl
  | case2 c cs p space ih =>
      rw [List.cons_append, ofChars, if_pos space, ih found, Position.afterAll_cons]
  | case3 cs p space ih =>
      rw [List.cons_append, ofChars, if_neg space, if_pos rfl,
        Lexeme.takeWhile_newline (p := isInLine) (by decide),
        Lexeme.dropWhile_newline (p := isInLine) (by decide), ih found, ← Position.afterAll_append,
        List.cons_append, List.takeWhile_append_dropWhile]
  | case4 => simp at found
  | case5 c cs p space comment lexeme read stop =>
      rename_i ih
      have fits := Lexeme.extra_read_le read
      cases later : ofChars (cs.drop lexeme.extra) stop with
      | error fault => simp [later, Except.map] at found
      | ok behind =>
          obtain ⟨front, rfl, -⟩ := ofChars_eq_append_eof later
          simp only [later, Except.map, Except.ok.injEq] at found
          subst found
          rw [List.cons_append, ofChars, if_neg space, if_neg comment,
            Lexeme.read_newline read]
          simp only [List.take_append_of_le_length fits, List.drop_append_of_le_length fits]
          rw [ih later, ← Position.afterAll_append, List.cons_append, List.take_append_drop,
            ← List.cons_append, List.dropLast_concat, List.dropLast_concat]
          cases ofChars rest ((p.afterAll (c :: cs)).after '\n') with
          | error fault => rfl
          | ok behind => rfl

/-- Reading composes at line ends: a line end behind a text that is made of tokens, and any text
behind that, are read as the tokens of the first text without its end, and the tokens or the fault
of the second one, down by the lines before it. -/
theorem ofSource_newline {a : String} {tokens : List Token} (found : ofSource a = .ok tokens)
    (b : String) :
    ofSource (a ++ "\n" ++ b) =
      match ofSource b with
      | .ok behind => .ok (tokens.dropLast ++ behind.map (down (a.toList.count '\n' + 1)))
      | .error fault => .error (fault.down (a.toList.count '\n' + 1)) := by
  have chars : (a ++ "\n" ++ b).toList = a.toList ++ '\n' :: b.toList := by simp
  rw [ofSource, chars, ofChars_newline found, Position.afterAll_newline, ofChars_down, ← ofSource]
  cases ofSource b with
  | ok behind => rfl
  | error fault => rfl

/-- The first text ends in a comment and holds a line break between quotes; the second one fails
in its second line. -/
theorem ofSource_newline_stuck :
    ofSource "(a \"\n\" ; b" = .ok [⟨.openParen, "(", ⟨1, 1⟩, ⟨1, 2⟩⟩,
        ⟨.symbol, "a", ⟨1, 2⟩, ⟨1, 3⟩⟩, ⟨.string, "\n", ⟨1, 4⟩, ⟨2, 2⟩⟩, eof ⟨2, 6⟩] ∧
      ofSource ("(a \"\n\" ; b" ++ "\n" ++ ")\n $") = .error ⟨.emptyParam, ⟨4, 2⟩⟩ := by
  have found : ofSource "(a \"\n\" ; b" = .ok [⟨.openParen, "(", ⟨1, 1⟩, ⟨1, 2⟩⟩,
      ⟨.symbol, "a", ⟨1, 2⟩, ⟨1, 3⟩⟩, ⟨.string, "\n", ⟨1, 4⟩, ⟨2, 2⟩⟩, eof ⟨2, 6⟩] := by
    cbv
  have stuck : ofSource ")\n $" = .error ⟨.emptyParam, ⟨2, 2⟩⟩ := by cbv
  have joined := ofSource_newline found ")\n $"
  rw [stuck] at joined
  exact ⟨found, joined⟩

end Token
end Wireframe
