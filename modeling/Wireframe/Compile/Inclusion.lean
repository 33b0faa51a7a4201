import Wireframe.Compile.Basic

/-!
# Includes

The definitions of included files are merged into the document that includes them, depth first and
in order, a later definition of a name taking the place of an earlier one and the document's own
winning over all.  A directive that cannot be carried out is an error at its place and adds nothing.
A file must not include itself, directly or through others; the chain of files that led to a
document tells.

Files come from a loader with a state of its own.  What happens on the way is kept as a list of
events.
-/

namespace Wireframe

/-- The content of an included file. -/
structure LoadedFile where
  /-- The source text. -/
  content : String
  /-- The path by which the file is known from now on. -/
  path : String

/-- Why a file cannot be loaded. -/
inductive LoadFault where
  /-- The loader declines, with a message. -/
  | declined (message : String)
  /-- The loader breaks down, with a message. -/
  | broken (message : String)
  deriving DecidableEq, Repr

/-- The message of a fault in loading. -/
def LoadFault.message : LoadFault → String
  | declined message => message
  | broken message => message

/-- A way to load the file that a path names inside a file of another path. -/
abbrev Loader (σ : Type) :=
  (path fromPath : String) → σ → Except LoadFault LoadedFile × σ

/-- Something that happens while includes are resolved. -/
inductive Event where
  /-- The loader is asked for a path inside a file. -/
  | requested (path fromPath : String)
  /-- The loader breaks down at a path, with a message. -/
  | broken (path message : String)
  /-- A file of a resolved path is included under a path. -/
  | included (path resolved : String)
  /-- A source is read. -/
  | read (content : String)
  deriving DecidableEq, Repr

/-- The state of a loader with what has happened so far. -/
structure Trace (σ : Type) where
  /-- The state of the loader. -/
  store : σ
  /-- What has happened, in order. -/
  events : List Event

/-- A step in resolving includes, which keeps its trace even if a document is refused. -/
abbrev Resolving (σ : Type) :=
  ExceptT Rejection (StateM (Trace σ))

/-- Why a directive is not carried out. -/
inductive IncludeCause where
  /-- The file cannot be loaded. -/
  | unloadable (path message : String)
  /-- The file is being included already. -/
  | circular (path resolved : String)
  /-- The file has faults, of which the first is given. -/
  | faulty (path message : String)
  /-- Includes are nested more deeply than the limit. -/
  | tooDeep (limit : Int)
  deriving DecidableEq, Repr

/-- The message for a directive that is not carried out. -/
def IncludeCause.message : IncludeCause → String
  | unloadable path message => s!"Cannot resolve include '{path}': {message}"
  | circular path resolved => s!"Circular include detected: {path} ({resolved})"
  | faulty path message => s!"Error in included file '{path}': {message}"
  | tooDeep limit => s!"Maximum include depth ({limit}) exceeded"

/-- What included files add to a document. -/
structure Harvest where
  /-- The errors, in order. -/
  errors : List Diagnostic
  /-- The components, in order. -/
  components : List Component
  /-- The layouts, in order. -/
  layouts : List Layout

namespace Harvest

/-- What a directive adds that is not carried out. -/
def failed (i : Include) (cause : IncludeCause) : Harvest :=
  ⟨[⟨cause.message, (i.location.map Location.start).getD Position.first⟩], [], []⟩

/-- What a file adds whose own includes are resolved. -/
def ofDocument (d : Document) (errors : List Diagnostic) : Harvest :=
  if errors.isEmpty then ⟨[], d.components, d.layouts⟩ else ⟨errors, [], []⟩

/-- The document with what its includes add, and without directives. -/
def merge (harvests : List Harvest) (d : Document) : Document :=
  let components := harvests.flatMap Harvest.components ++ d.components
  let layouts := harvests.flatMap Harvest.layouts ++ d.layouts
  { d with
    includes := []
    components := (Table.ofList (components.map fun c => (c.name, c))).values
    layouts := (Table.ofList (layouts.map fun l => (l.name, l))).values }

end Harvest

/-- How far a source has come when its includes are resolved. -/
inductive Resolved where
  /-- The source has faults of its own. -/
  | faulty (document : Option Document) (faults : List Fault)
  /-- Some directive was not carried out. -/
  | unresolved (document : Document) (errors : List Diagnostic)
  /-- The document holds what its includes add. -/
  | merged (document : Document)

/-- What comes of compiling, of which only a merged document is validated. -/
def Resolved.compiled (strict : Bool) : Resolved → Compiled
  | faulty document faults => .ofFaults document faults
  | unresolved document errors => ⟨false, some document, errors, []⟩
  | merged document => document.finish strict []

namespace Inclusion

variable {σ : Type}

/-- Note an event. -/
def emit (event : Event) : Resolving σ Unit :=
  modify fun trace => { trace with events := trace.events ++ [event] }

/-- Ask the loader for a file. -/
def load (loader : Loader σ) (path fromPath : String) :
    Resolving σ (Except LoadFault LoadedFile) := do
  emit (.requested path fromPath)
  let (result, store) := loader path fromPath (← get).store
  modify fun trace => { trace with store := store }
  if let .error (.broken message) := result then emit (.broken path message)
  return result

/-- Carry out a directive, given how to resolve the includes of the document that it loads. -/
def directive (loader : Loader σ) (options : CompileOptions)
    (resolve : Document → String → List String → Resolving σ (Document × List Diagnostic))
    (fromPath : String) (chain : List String) (i : Include) : Resolving σ Harvest := do
  match ← load loader i.path fromPath with
  | .error fault => return .failed i (.unloadable i.path fault.message)
  | .ok file =>
    if chain.contains file.path then return .failed i (.circular i.path file.path)
    emit (.included i.path file.path)
    emit (.read file.content)
    match ← (options.read file.content).accepted with
    | .inr (_, faults) =>
      let message := (faults.head?.map (·.cause.message)).getD "Parse error"
      return .failed i (.faulty i.path message)
    | .inl d =>
      if d.includes.isEmpty then return .ofDocument d []
      let (d, errors) ← resolve d file.path (chain ++ [file.path])
      return .ofDocument d errors

/-- Resolve the includes of a document, given how many levels of files may be loaded, the path of
the document and the files that led to it: the merged document and the errors. -/
def resolve (loader : Loader σ) (options : CompileOptions) :
    (levels : Nat) → Document → (fromPath : String) → (chain : List String) →
      Resolving σ (Document × List Diagnostic)
  | 0, d, _, _ =>
    return (d, [⟨(IncludeCause.tooDeep options.inclusion).message, Position.first⟩])
  | levels + 1, d, fromPath, chain => do
    let harvests ← d.includes.mapM
      (directive loader options (resolve loader options levels) fromPath chain)
    return (Harvest.merge harvests d, harvests.flatMap Harvest.errors)

/-- The levels of files that may be loaded for a document at some depth. -/
def levels (options : CompileOptions) (depth : Int) : Nat :=
  (options.inclusion + 1 - depth).toNat

/-- Read a source and resolve its includes. -/
def resolveSource (loader : Loader σ) (options : CompileOptions) (source : String) :
    Resolving σ Resolved := do
  match ← (options.read source).accepted with
  | .inr (d, faults) => return .faulty d faults
  | .inl d =>
    if d.includes.isEmpty then return .merged d
    let chain := if options.path = "" then [] else [options.path]
    let (d, errors) ← resolve loader options (levels options 0) d options.path chain
    return if errors.isEmpty then .merged d else .unresolved d errors

/-- Compile a source and resolve its includes. -/
def compile (loader : Loader σ) (options : CompileOptions) (source : String) :
    Resolving σ Compiled :=
  return (← resolveSource loader options source).compiled options.strict

end Inclusion
end Wireframe
