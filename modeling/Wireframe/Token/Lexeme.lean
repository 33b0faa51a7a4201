import Wireframe.Token.Basic
import Wireframe.Token.Quoted

/-!
# Lexemes

A lexeme is a token without its place, read at the head of a text as far as it reaches: names and
digits are read to their end, and a point belongs to a number only if a digit follows it.
-/

namespace Wireframe

/-- A token without its place. -/
structure Lexeme where
  /-- The kind of word. -/
  kind : TokenKind
  /-- The word without marks, quotes and escapes. -/
  value : List Char
  /-- The number of characters after the first one. -/
  extra : Nat
  deriving DecidableEq, Repr

namespace Lexeme

/-- White space between tokens. -/
def isSpace (c : Char) : Bool :=
  c == ' ' || c == '\t' || c == '\r' || c == '\n'

/-- A digit of the basic alphabet. -/
def isDigit (c : Char) : Bool :=
  '0' ≤ c && c ≤ '9'

/-- A character that can begin a symbol. -/
def isSymbolStart (c : Char) : Bool :=
  ('a' ≤ c && c ≤ 'z') || ('A' ≤ c && c ≤ 'Z') || c == '_'

/-- A character that can continue a symbol. -/
def isSymbolChar (c : Char) : Bool :=
  isSymbolStart c || isDigit c || c == '-'

/-- A name behind the mark of a keyword, a parameter or a reference. -/
def marked (kind : TokenKind) (missing : LexCause) (rest : List Char) : Except Stuck Lexeme :=
  let name := rest.takeWhile isSymbolChar
  if name.isEmpty then .error ⟨missing, 0⟩ else .ok ⟨kind, name, name.length⟩

/-- The decimals behind the digits of a number, with their point. -/
def decimals : List Char → List Char
  | '.' :: rest =>
    let digits := rest.takeWhile isDigit
    if digits.isEmpty then [] else '.' :: digits
  | _ => []

/-- A number, given its first character, which is a digit or the sign before one. -/
def numeral (c : Char) (rest : List Char) : Lexeme :=
  let digits := rest.takeWhile isDigit
  let tail := digits ++ decimals (rest.dropWhile isDigit)
  ⟨.number, c :: tail, tail.length⟩

/-- Whether a number begins at a character. -/
def startsNumber (c : Char) (rest : List Char) : Bool :=
  isDigit c || (c == '-' && rest.head?.any isDigit)

/-- A text between quotes, given what follows the opening quote. -/
def quoted (rest : List Char) : Except Stuck Lexeme :=
  match Quoted.body? rest with
  | .error stuck => .error (stuck.shift 1)
  | .ok none => .error ⟨.unterminatedString, 0⟩
  | .ok (some (value, length)) => .ok ⟨.string, value, length⟩

/-- Read the lexeme that begins with a character and goes on in the rest of a text. -/
def read (c : Char) (rest : List Char) : Except Stuck Lexeme :=
  if c = '(' then .ok ⟨.openParen, ['('], 0⟩
  else if c = ')' then .ok ⟨.closeParen, [')'], 0⟩
  else if c = '"' then quoted rest
  else if c = '$' then marked .param .emptyParam rest
  else if c = '#' then marked .hash .emptyHash rest
  else if c = ':' then marked .keyword .emptyKeyword rest
  else if startsNumber c rest then .ok (numeral c rest)
  else if isSymbolStart c then
    let tail := rest.takeWhile isSymbolChar
    .ok ⟨.symbol, c :: tail, tail.length⟩
  else .error ⟨.unexpected c, 0⟩

theorem length_decimals_le (cs : List Char) : (decimals cs).length ≤ cs.length := by
  unfold decimals
  split
  · rename_i rest
    simp only
    have := (List.takeWhile_sublist isDigit (l := rest)).length_le
    split <;> simp only [List.length_nil, List.length_cons] <;> omega
  · simp

theorem extra_numeral_le (c : Char) (rest : List Char) : (numeral c rest).extra ≤ rest.length := by
  have split := congrArg List.length (List.takeWhile_append_dropWhile (p := isDigit) (l := rest))
  have := length_decimals_le (rest.dropWhile isDigit)
  rw [List.length_append] at split
  simp only [numeral, List.length_append]
  omega

theorem extra_marked_le {kind : TokenKind} {missing : LexCause} {rest : List Char} {l : Lexeme}
    (found : marked kind missing rest = .ok l) : l.extra ≤ rest.length := by
  simp only [marked] at found
  split at found
  · simp at found
  · obtain rfl := Except.ok.inj found
    exact (List.takeWhile_sublist isSymbolChar).length_le

theorem extra_quoted_le {rest : List Char} {l : Lexeme} (found : quoted rest = .ok l) :
    l.extra ≤ rest.length := by
  unfold quoted at found
  split at found
  · simp at found
  · simp at found
  · rename_i value length inner
    obtain rfl := Except.ok.inj found
    exact Quoted.le_length_of_body? inner

/-- A lexeme does not reach beyond its text. -/
theorem extra_read_le {c : Char} {rest : List Char} {l : Lexeme} (found : read c rest = .ok l) :
    l.extra ≤ rest.length := by
  unfold read at found
  repeat' split at found
  · obtain rfl := Except.ok.inj found
    exact Nat.zero_le _
  · obtain rfl := Except.ok.inj found
    exact Nat.zero_le _
  · exact extra_quoted_le found
  · exact extra_marked_le found
  · exact extra_marked_le found
  · exact extra_marked_le found
  · obtain rfl := Except.ok.inj found
    exact extra_numeral_le c rest
  · obtain rfl := Except.ok.inj found
    exact (List.takeWhile_sublist isSymbolChar).length_le
  · simp at found

theorem kind_marked {kind : TokenKind} {missing : LexCause} {rest : List Char} {l : Lexeme}
    (found : marked kind missing rest = .ok l) : l.kind = kind := by
  simp only [marked] at found
  split at found
  · simp at found
  · obtain rfl := Except.ok.inj found
    rfl

theorem kind_quoted {rest : List Char} {l : Lexeme} (found : quoted rest = .ok l) :
    l.kind = .string := by
  unfold quoted at found
  split at found
  · simp at found
  · simp at found
  · obtain rfl := Except.ok.inj found
    rfl

/-- A lexeme is never the end of a source. -/
theorem kind_read_ne_eof {c : Char} {rest : List Char} {l : Lexeme}
    (found : read c rest = .ok l) : l.kind ≠ .eof := by
  unfold read at found
  repeat' split at found
  · obtain rfl := Except.ok.inj found
    simp
  · obtain rfl := Except.ok.inj found
    simp
  · simp [kind_quoted found]
  · simp [kind_marked found]
  · simp [kind_marked found]
  · simp [kind_marked found]
  · obtain rfl := Except.ok.inj found
    simp [numeral]
  · obtain rfl := Except.ok.inj found
    simp
  · simp at found

/-- Give a lexeme its place. -/
def toToken (l : Lexeme) (start stop : Position) : Token :=
  ⟨l.kind, String.ofList l.value, start, stop⟩

end Lexeme
end Wireframe
