import Wireframe.Position

/-!
# Tokens

A token is a word of a source with the place where it stands.  Its value leaves out the mark that
leads a keyword, a parameter or a reference, and the quotes and escapes of a text.  Rendering a
token puts them back.
-/

namespace Wireframe

/-- The kinds of token. -/
inductive TokenKind where
  | openParen
  | closeParen
  | string
  | number
  | symbol
  | keyword
  | param
  | hash
  | eof
  deriving DecidableEq, Repr

namespace TokenKind

/-- The name of a kind as it appears in messages. -/
def name : TokenKind → String
  | openParen => "LPAREN"
  | closeParen => "RPAREN"
  | string => "STRING"
  | number => "NUMBER"
  | symbol => "SYMBOL"
  | keyword => "KEYWORD"
  | param => "PARAM_REF"
  | hash => "HASH_REF"
  | eof => "EOF"

/-- All kinds. -/
def all : List TokenKind :=
  [openParen, closeParen, string, number, symbol, keyword, param, hash, eof]

/-- The kind of a name. -/
def ofName? (name : String) : Option TokenKind :=
  all.find? (·.name == name)

/-- Whether a token of the kind can be the value of a property. -/
def isValue : TokenKind → Bool
  | string | number | symbol | param | hash => true
  | _ => false

/-- The mark that leads a token of the kind. -/
def mark : TokenKind → String
  | keyword => ":"
  | param => "$"
  | hash => "#"
  | _ => ""

theorem ofName?_name (kind : TokenKind) : ofName? kind.name = some kind := by
  cases kind <;> decide

end TokenKind

/-- A word of a source with its place. -/
structure Token where
  /-- The kind of word. -/
  kind : TokenKind
  /-- The word without marks, quotes and escapes. -/
  value : String
  /-- Where the word begins. -/
  start : Position
  /-- Where it has ended. -/
  stop : Position
  deriving DecidableEq, Repr

namespace Token

/-- The end of a source at a position. -/
def eof (p : Position) : Token :=
  ⟨.eof, "", p, p⟩

/-- A closing parenthesis without width at a position. -/
def closer (p : Position) : Token :=
  ⟨.closeParen, ")", p, p⟩

/-- The spelling of a token with its mark, leaving texts bare. -/
def text (t : Token) : String :=
  t.kind.mark ++ t.value

/-- One character of a text as it is written between quotes. -/
def escapeChar : Char → List Char
  | '\\' => ['\\', '\\']
  | '"' => ['\\', '"']
  | '\n' => ['\\', 'n']
  | '\r' => ['\\', 'r']
  | '\t' => ['\\', 't']
  | c => [c]

/-- A text as it is written between quotes. -/
def escape (s : String) : String :=
  String.ofList (s.toList.flatMap escapeChar)

/-- The spelling of a token, with texts quoted. -/
def render (t : Token) : String :=
  if t.kind = .string then "\"" ++ escape t.value ++ "\"" else t.text

/-- A token as it is named in messages: its kind, and its value if it has one. -/
def describe (t : Token) : String :=
  if t.value = "" then t.kind.name else s!"{t.kind.name} '{t.value}'"

/-- Whether a token is a certain symbol. -/
def isSymbol (t : Token) (name : String) : Bool :=
  t.kind == .symbol && t.value == name

end Token
end Wireframe
