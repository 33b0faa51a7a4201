import Wireframe.Compile.Inclusion
import Wireframe.Format.Basic
import Wireframe.Settings

/-!
# The journal

What is recorded while sources are read, formatted, validated and compiled: which part of the
program records it, at which level, and the message.
-/

namespace Wireframe

/-- The levels of records. -/
inductive LogLevel where
  | notset
  | debug
  | info
  | warning
  | error
  | critical
  deriving DecidableEq, Repr

namespace LogLevel

/-- The name of a level. -/
def name : LogLevel → String
  | notset => "NOTSET"
  | debug => "DEBUG"
  | info => "INFO"
  | warning => "WARNING"
  | error => "ERROR"
  | critical => "CRITICAL"

/-- The weight of a level. -/
def weight : LogLevel → Int
  | notset => 0
  | debug => 10
  | info => 20
  | warning => 30
  | error => 40
  | critical => 50

/-- All levels. -/
def all : List LogLevel := [notset, debug, info, warning, error, critical]

/-- The level of a name, of which some levels have two. -/
def ofName? (name : String) : Option LogLevel :=
  if name = "WARN" then some warning
  else if name = "FATAL" then some critical
  else all.find? (·.name == name)

/-- The weight that a level in words asks for, in letters of any case. -/
def weightOf (name : String) : Int :=
  ((ofName? (Text.uppercase name)).getD info).weight

end LogLevel

namespace Journal

/-- The name under which the whole program records. -/
def root : String := "wirescript"

/-- The name under which a part of the program records. -/
def loggerName (part : Option String) : String :=
  match part with
  | none => root
  | some name =>
    if name = "" ∨ name = root then root
    else if (root ++ ".").toList.isPrefixOf name.toList then name
    else s!"{root}.{name}"

/-- Something recorded. -/
structure Record where
  /-- The name under which it is recorded. -/
  logger : String
  /-- How weighty it is. -/
  level : LogLevel
  /-- The message. -/
  message : String
  deriving DecidableEq, Repr

/-- A record of a part of the program. -/
def entry (part : String) (level : LogLevel) (message : String) : Record :=
  ⟨loggerName (some part), level, message⟩

/-- The records of reading the tokens of a source. -/
def tokenizing (source : String) : List Record :=
  match Token.ofSource source with
  | .error _ => []
  | .ok tokens =>
    let line := (Token.endOf tokens).line
    [entry "lexer" .debug s!"Tokenized {tokens.length} tokens over {line} lines"]

/-- The record of a fault that ended a form. -/
def recovery (f : Fault) : Record :=
  entry "parser" .debug s!"Recovered from parse error: {f.diagnostic.render}"

/-- The records of reading the document of some tokens. -/
def parsingTokens (nesting : Int) (tokens : List Token) : List Record :=
  let attempt := Document.ofTokens nesting tokens
  (attempt.faults.filter (·.cause.isUnwinding)).map recovery ++
    match attempt.value? with
    | none => []
    | some d =>
      [entry "parser" .debug <|
        s!"Parsed {d.screens.length} screens, {d.components.length} components, " ++
          s!"{d.layouts.length} layouts with {attempt.noted.length} errors"]

/-- The records of reading the document of a source. -/
def parsing (nesting : Int) (source : String) : List Record :=
  match Token.ofSource source with
  | .error _ => []
  | .ok tokens => tokenizing source ++ parsingTokens nesting tokens

/-- The records of validating a document. -/
def validating (d : Document) : List Record :=
  [entry "validation" .debug
    s!"Validation found {d.errors.length} errors and {d.warnings.length} warnings"]

/-- The records of finishing a document that has come this far with some errors. -/
def finishing (d : Document) (strict : Bool) (errors : List Diagnostic) : List Record :=
  let compiled := d.finish strict errors
  validating d ++
    [entry "compiler" .debug <|
      s!"Compiled {d.screens.length} screens: {compiled.errors.length} errors, " ++
        s!"{compiled.warnings.length} warnings"]

/-- The records of compiling a source without resolving its includes, for which a loader may be at
hand. -/
def compiling (options : CompileOptions) (hasLoader : Bool) (source : String) : List Record :=
  parsing options.nesting source ++
    match (options.read source).accepted with
    | .ok (.inl d) =>
      (if hasLoader && !d.includes.isEmpty then
        [entry "compiler" .warning <|
          s!"Ignoring resolver for {d.includes.length} include " ++
            "directives; use compile_async to resolve them"]
      else []) ++ finishing d options.strict []
    | _ => []

/-- The records of an event in resolving includes. -/
def resolvingEvent (nesting : Int) : Event → List Record
  | .requested _ _ => []
  | .broken path message =>
    [entry "compiler" .error s!"Resolver failed for '{path}': {message}"]
  | .included path resolved => [entry "compiler" .debug s!"Including '{path}' from {resolved}"]
  | .read content => parsing nesting content

/-- The records of events in resolving includes. -/
def resolving (nesting : Int) (events : List Event) : List Record :=
  events.flatMap (resolvingEvent nesting)

/-- The records of compiling a source with its includes, given what happened while they were
resolved. -/
def including (options : CompileOptions) (source : String) (events : List Event)
    (resolved : Except Rejection Resolved) : List Record :=
  parsing options.nesting source ++ resolving options.nesting events ++
    match resolved with
    | .ok (.merged d) => finishing d options.strict []
    | _ => []

/-- The records of balancing tokens. -/
def balancing (tokens : List Token) : List Record :=
  let edits := Balance.ofTokens tokens
  let inserted := edits.countP Edit.isInsert
  let dropped := edits.countP Edit.isDrop
  if inserted = 0 ∧ dropped = 0 then []
  else
    [entry "formatter" .debug
      s!"Balanced tokens: inserted {inserted} and dropped {dropped} ')'"]

/-- The records of formatting a source. -/
def formatting (source : String) : List Record :=
  match Token.ofSource source with
  | .error _ => []
  | .ok tokens => tokenizing source ++ balancing tokens

end Journal
end Wireframe
