import Wireframe.Format.Pen
import Wireframe.Value.Literal

/-!
# Settings

A setting is taken from an explicit value, else from the environment, else from its default.  A text
of the environment that cannot be brought to the type of the setting counts as missing.
-/

namespace Wireframe

/-- The texts of the variables that are set. -/
abbrev Environment := String → Option String

/-- The type of a setting. -/
inductive SettingType where
  /-- A text. -/
  | text
  /-- A whole number. -/
  | integer
  /-- A truth value. -/
  | flag
  /-- A type that leaves texts as they are. -/
  | other
  deriving DecidableEq, Repr

namespace SettingType

/-- The name of a type. -/
def name : SettingType → String
  | text => "str"
  | integer => "int"
  | flag => "bool"
  | other => "other"

/-- The type of a name. -/
def ofName (name : String) : SettingType :=
  ([text, integer, flag].find? (·.name == name)).getD other

/-- A text in which the escape `\t` has become a tab. -/
def readTabs : List Char → List Char
  | [] => []
  | [c] => [c]
  | c :: d :: rest =>
    if c = '\\' ∧ d = 't' then '\t' :: readTabs rest else c :: readTabs (d :: rest)

/-- The whole number that a text denotes. -/
def readInteger? (s : String) : Option Int :=
  match Numeral.toDigits? s with
  | none => none
  | some (negative, digits) =>
    if digits.length ≤ Numeral.digitLimit then some (Numeral.signed negative digits) else none

/-- The truth value that a text denotes, in letters of any case. -/
def readFlag? (s : String) : Option Bool :=
  let word := String.ofList (Text.trim Text.isBlank (Text.lowercase s).toList)
  if word = "true" ∨ word = "1" ∨ word = "yes" then some true
  else if word = "false" ∨ word = "0" ∨ word = "no" then some false
  else none

/-- Bring a text to a type. -/
def convert? (type : SettingType) (s : String) : Option Scalar :=
  match type with
  | text => some (.text (String.ofList (readTabs s.toList)))
  | integer => (readInteger? s).map fun n => .number (.integer n)
  | flag => (readFlag? s).map .flag
  | other => some (.text s)

end SettingType

/-- The settings. -/
inductive Setting where
  | indent
  | lineLength
  | includeDepth
  | nestingDepth
  | logLevel
  deriving DecidableEq, Repr

namespace Setting

/-- All settings. -/
def all : List Setting := [indent, lineLength, includeDepth, nestingDepth, logLevel]

/-- The variable that holds a setting. -/
def name : Setting → String
  | indent => "WIRESCRIPT_INDENT"
  | lineLength => "WIRESCRIPT_MAX_LINE_LENGTH"
  | includeDepth => "WIRESCRIPT_MAX_INCLUDE_DEPTH"
  | nestingDepth => "WIRESCRIPT_MAX_NESTING_DEPTH"
  | logLevel => "WIRESCRIPT_LOG_LEVEL"

/-- The value of a setting that nothing sets. -/
def default : Setting → Scalar
  | indent => .text "  "
  | lineLength => .number (.integer 100)
  | includeDepth => .number (.integer 100)
  | nestingDepth => .number (.integer 200)
  | logLevel => .text "INFO"

/-- The type of a setting. -/
def type : Setting → SettingType
  | indent | logLevel => .text
  | lineLength | includeDepth | nestingDepth => .integer

/-- What a setting is for. -/
def description : Setting → String
  | indent => "Indentation string used by the formatter"
  | lineLength => "Line width before the formatter wraps inline properties"
  | includeDepth => "Maximum nesting of include directives"
  | nestingDepth => "Maximum parenthesis nesting accepted by the parser"
  | logLevel => "Default level applied by setup_logging()"

/-- The grouping of a setting. -/
def category : Setting → String
  | indent | lineLength => "format"
  | includeDepth | nestingDepth => "compile"
  | logLevel => "logging"

/-- The setting of a variable. -/
def ofName? (name : String) : Option Setting :=
  all.find? (·.name == name)

/-- The settings of a grouping, or all of them. -/
def list (category : Option String) : List Setting :=
  all.filter fun s => category.all (s.category == ·)

/-- The value of a setting in an environment. -/
def value (env : Environment) (s : Setting) : Scalar :=
  ((env s.name).bind s.type.convert?).getD s.default

/-- The value of a setting that may be given. -/
def get (env : Environment) (s : Setting) (given : Option Scalar) : Scalar :=
  given.getD (s.value env)

/-- The whole number that a setting holds, zero for one of another type. -/
def integer (env : Environment) (s : Setting) : Int :=
  match s.value env with
  | .number (.integer n) => n
  | _ => 0

/-- The text that a setting holds, empty for one of another type. -/
def text (env : Environment) (s : Setting) : String :=
  match s.value env with
  | .text s => s
  | _ => ""

end Setting

/-- The style of an indent and a width that may be given. -/
def Style.ofSettings (env : Environment) (indent : Option String) (width : Option Int) : Style :=
  ⟨(indent.getD (Setting.indent.text env)).toList, width.getD (Setting.lineLength.integer env)⟩

end Wireframe
