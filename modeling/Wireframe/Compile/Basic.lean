import Wireframe.Reading.Document
import Wireframe.Validation

/-!
# Compiling

A source is compiled by reading and validating it.  A document with faults is not validated; one
without is held to have at least one screen.  Include directives stay in the document.
-/

namespace Wireframe

/-- The limits and rules under which sources are compiled. -/
structure CompileOptions where
  /-- The limit to the nesting of lists. -/
  nesting : Int
  /-- The limit to the nesting of includes. -/
  inclusion : Int
  /-- Whether a warning makes compiling fail. -/
  strict : Bool
  /-- The path of the source, empty if it has none. -/
  path : String

/-- What comes of compiling. -/
structure Compiled where
  /-- Whether nothing stands against the document. -/
  success : Bool
  /-- The document, if there is one. -/
  document : Option Document
  /-- The errors, in order. -/
  errors : List Diagnostic
  /-- The warnings, in order. -/
  warnings : List Diagnostic

namespace Document

/-- Where a document starts. -/
def position (d : Document) : Position :=
  (d.location.map Location.start).getD Position.first

/-- The error of a document without screens. -/
def missingScreen (d : Document) : List Diagnostic :=
  if d.screens.isEmpty then [⟨"Document must have at least one screen", d.position⟩] else []

/-- Validate a document that has come this far with some errors. -/
def finish (d : Document) (strict : Bool) (errors : List Diagnostic) : Compiled :=
  let errors := errors ++ d.missingScreen ++ d.errors
  ⟨errors.isEmpty && !(strict && !d.warnings.isEmpty), some d, errors, d.warnings⟩

end Document

namespace Compiled

/-- What comes of a source with faults. -/
def ofFaults (document : Option Document) (faults : List Fault) : Compiled :=
  ⟨false, document, faults.map Fault.diagnostic, []⟩

end Compiled

/-- What was read without any fault, or else the faults that stand against it. -/
def Attempt.accepted {α : Type} (x : Attempt α) : Except Rejection (α ⊕ (Option α × List Fault)) :=
  match x.outcome with
  | .refused r => .error r
  | .value a => .ok (if x.noted.isEmpty then .inl a else .inr (some a, x.noted))
  | .fault f => .ok (.inr (none, x.noted ++ [f]))

namespace CompileOptions

/-- Read a source within the limit to the nesting of lists. -/
def read (options : CompileOptions) (source : String) : Attempt Document :=
  Document.ofSource options.nesting source

/-- Compile a source without resolving its includes. -/
def compile (options : CompileOptions) (source : String) : Except Rejection Compiled :=
  (options.read source).accepted.map fun
    | .inl d => d.finish options.strict []
    | .inr (d, faults) => .ofFaults d faults

end CompileOptions
end Wireframe
