import Wireframe.Compile.Inclusion
import Wireframe.Proofs.Merging

/-!
# What includes add

A loader whose answers do not depend on its state stands for a fixed set of files.  Under it a
document takes over the definitions of the files that it includes, each file's own behind those that
the file includes itself, and its own come last.  A directive that is not carried out, or with an
error anywhere below it, adds nothing.  Merging at every level is merging all of these at once.
-/

namespace Wireframe

/-- The file that a path names inside a file of another path. -/
abbrev Files := (path fromPath : String) → Except LoadFault LoadedFile

/-- Whether the answers of a loader are those of some files, whatever its state. -/
def Loader.Answers {σ : Type} (loader : Loader σ) (files : Files) : Prop :=
  ∀ path fromPath store, (loader path fromPath store).1 = files path fromPath

/-- The loader that gives files and keeps its state. -/
def Loader.ofFiles {σ : Type} (files : Files) : Loader σ :=
  fun path fromPath store => (files path fromPath, store)

theorem Loader.answers_ofFiles {σ : Type} (files : Files) :
    (ofFiles files : Loader σ).Answers files :=
  fun _ _ _ => rfl

/-- Finitely many contents by path, with a way to find the path of a file. -/
structure Library where
  /-- The contents by path. -/
  contents : Table String
  /-- The path of the file that a path names inside a file of another path. -/
  locate : (path fromPath : String) → Except LoadFault String

/-- The files of a library: what cannot be found, or is not there, cannot be loaded. -/
def Library.files (l : Library) : Files := fun path fromPath =>
  match l.locate path fromPath with
  | .error fault => .error fault
  | .ok found =>
    match l.contents.find? found with
    | some content => .ok ⟨content, found⟩
    | none => .error (.declined s!"No such file: {found}")

theorem Library.files_eq_ok_iff {l : Library} {path fromPath found content : String} :
    l.files path fromPath = .ok ⟨content, found⟩ ↔
      l.locate path fromPath = .ok found ∧ l.contents.find? found = some content := by
  rw [files]
  cases l.locate path fromPath with
  | error fault => simp
  | ok place =>
      simp only [Except.ok.injEq]
      constructor
      · intro loaded
        split at loaded
        · rename_i text there
          obtain ⟨rfl, rfl⟩ := LoadedFile.mk.inj (Except.ok.inj loaded)
          exact ⟨rfl, there⟩
        · cases loaded
      · rintro ⟨rfl, there⟩
        rw [there]

section Gives

variable {σ α β : Type}

/-- Whether a step has a result, whatever has happened so far. -/
def Resolving.Gives (x : Resolving σ α) (result : Except Rejection α) : Prop :=
  ∀ trace, (x.run.run trace).1 = result

namespace Resolving.Gives

theorem pure (a : α) : (Pure.pure a : Resolving σ α).Gives (.ok a) :=
  fun _ => rfl

theorem bind {x : Resolving σ α} {f : α → Resolving σ β} {a : α} {result : Except Rejection β}
    (first : x.Gives (.ok a)) (rest : (f a).Gives result) : (x >>= f).Gives result := by
  intro trace
  have value := first trace
  rw [ExceptT.run_bind, StateT.run_bind]
  generalize x.run.run trace = after at value
  obtain ⟨answer, trace'⟩ := after
  obtain rfl : answer = .ok a := value
  exact rest trace'

theorem emit (event : Event) : (Inclusion.emit event : Resolving σ Unit).Gives (.ok ()) :=
  fun _ => rfl

theorem bind_error {x : Resolving σ α} {f : α → Resolving σ β} {r : Rejection}
    (first : x.Gives (.error r)) : (x >>= f).Gives (.error r) := by
  intro trace
  have refused := first trace
  rw [ExceptT.run_bind, StateT.run_bind]
  generalize x.run.run trace = after at refused
  obtain ⟨answer, trace'⟩ := after
  obtain rfl : answer = .error r := refused
  rfl

theorem lift {reading result : Except Rejection α} (same : reading = result) :
    (liftM reading : Resolving σ α).Gives result := by
  subst same
  intro trace
  cases reading <;> rfl

theorem get_bind {f : Trace σ → Resolving σ β} {result : Except Rejection β}
    (rest : ∀ trace, (f trace).Gives result) : (get >>= f).Gives result :=
  fun trace => rest trace trace

theorem modified (f : Trace σ → Trace σ) : (modify f : Resolving σ Unit).Gives (.ok ()) :=
  fun _ => rfl

theorem load {loader : Loader σ} {files : Files} (answers : loader.Answers files)
    (path fromPath : String) :
    (Inclusion.load loader path fromPath).Gives (.ok (files path fromPath)) := by
  refine (emit _).bind (get_bind fun trace => ?_)
  have answer := answers path fromPath trace.store
  generalize loader path fromPath trace.store = reply at answer ⊢
  obtain ⟨result, store⟩ := reply
  obtain rfl : result = files path fromPath := answer
  refine (modified _).bind ?_
  split
  · exact (emit _).bind (.pure _)
  · exact .pure _

theorem mapM {f : α → Resolving σ β} {P : α → β → Prop} {as : List α}
    (each : ∀ a ∈ as, ∃ b, (f a).Gives (.ok b) ∧ P a b) :
    ∃ bs, (as.mapM f).Gives (.ok bs) ∧ List.Forall₂ P as bs := by
  induction as with
  | nil => exact ⟨[], .pure [], .nil⟩
  | cons a rest ih =>
      obtain ⟨b, gives, related⟩ := each a List.mem_cons_self
      obtain ⟨bs, others, allRelated⟩ := ih fun a' member => each a' (List.mem_cons_of_mem a member)
      refine ⟨b :: bs, ?_, .cons related allRelated⟩
      rw [List.mapM_cons]
      exact gives.bind (others.bind (.pure _))

end Resolving.Gives
end Gives

namespace Attempt

variable {α : Type} {x : Attempt α}

/-- What was read, if it was without any fault. -/
def clean? (x : Attempt α) : Option α :=
  if x.noted.isEmpty then x.value? else none

theorem clean?_eq_some_iff {a : α} : x.clean? = some a ↔ x = pure a := by
  obtain ⟨noted, outcome⟩ := x
  cases noted <;> cases outcome <;> simp [clean?, value?, pure]

/-- What reads something is not refused. -/
theorem settled_of_isSome (read : x.value?.isSome) (r : Rejection) : x.outcome ≠ .refused r := by
  intro refused
  rw [value?, refused] at read
  cases read

/-- What is said of an attempt with faults. -/
def complaint (x : Attempt α) : String :=
  (x.faults.head?.map (·.cause.message)).getD "Parse error"

/-- Unless it is refused, an attempt is accepted if it is clean, and else there are faults. -/
theorem accepted_of_settled (settled : ∀ r, x.outcome ≠ .refused r) :
    x.accepted = .ok (x.clean?.elim (.inr (x.value?, x.faults)) .inl) := by
  obtain ⟨noted, outcome⟩ := x
  cases outcome with
  | value a => cases noted <;> rfl
  | fault f => cases noted <;> rfl
  | refused r => exact absurd rfl (settled r)

end Attempt

/-- Whether no file is refused. -/
def Files.Readable (files : Files) (options : CompileOptions) : Prop :=
  ∀ path fromPath file, files path fromPath = .ok file →
    ∀ r, (options.read file.content).outcome ≠ .refused r

theorem Library.readable {l : Library} {options : CompileOptions}
    (settled : ∀ content ∈ l.contents.values, ∀ r, (options.read content).outcome ≠ .refused r) :
    l.files.Readable options := by
  rintro path fromPath ⟨content, found⟩ loaded
  obtain ⟨-, there⟩ := files_eq_ok_iff.mp loaded
  exact settled content (List.mem_map_of_mem ((Table.find?_eq_some_iff _ _ _).mp there))

section Included

variable (files : Files) (options : CompileOptions)

namespace Include

/-- The document that a directive loads and its path, or else why the directive is not carried
out. -/
def loaded (fromPath : String) (chain : List String) (i : Include) :
    Except IncludeCause (Document × String) :=
  match files i.path fromPath with
  | .error fault => .error (.unloadable i.path fault.message)
  | .ok file =>
    if file.path ∈ chain then .error (.circular i.path file.path)
    else
      match (options.read file.content).clean? with
      | some d => .ok (d, file.path)
      | none => .error (.faulty i.path (options.read file.content).complaint)

variable {files options} in
theorem loaded_eq_ok_iff {fromPath path : String} {chain : List String} {i : Include}
    {d : Document} : i.loaded files options fromPath chain = .ok (d, path) ↔
      ∃ content, files i.path fromPath = .ok ⟨content, path⟩ ∧ path ∉ chain ∧
        options.read content = pure d := by
  rw [loaded]
  cases reply : files i.path fromPath with
  | error fault => simp
  | ok file =>
      obtain ⟨content, found⟩ := file
      by_cases known : found ∈ chain
      · simp only [if_pos known, reduceCtorEq, Except.ok.injEq, LoadedFile.mk.injEq, false_iff]
        rintro ⟨_, ⟨-, rfl⟩, fresh, -⟩
        exact fresh known
      · simp only [if_neg known, ← Attempt.clean?_eq_some_iff, Except.ok.injEq,
          LoadedFile.mk.injEq]
        cases clean : (options.read content).clean? with
        | none =>
          simp only [reduceCtorEq, false_iff]
          rintro ⟨_, ⟨rfl, -⟩, -, read⟩
          rw [clean] at read
          cases read
        | some e =>
          simp only [Except.ok.injEq, Prod.mk.injEq]
          constructor
          · rintro ⟨rfl, rfl⟩
            exact ⟨content, ⟨rfl, rfl⟩, known, clean⟩
          · rintro ⟨_, ⟨rfl, rfl⟩, -, read⟩
            exact ⟨Option.some.inj (clean.symm.trans read), rfl⟩

/-- The errors that a directive leads to, given those of the documents that may be loaded. -/
def errors (inside : Document → String → List String → List Diagnostic) (fromPath : String)
    (chain : List String) (i : Include) : List Diagnostic :=
  match i.loaded files options fromPath chain with
  | .error cause => (Harvest.failed i cause).errors
  | .ok (d, path) => inside d path (chain ++ [path])

/-- What a directive adds, given the errors and the definitions of the documents that may be
loaded. -/
def adds {α : Type} (inside : Document → String → List String → List Diagnostic)
    (definitions : Document → String → List String → List α) (fromPath : String)
    (chain : List String) (i : Include) : List α :=
  match i.loaded files options fromPath chain with
  | .error _ => []
  | .ok (d, path) =>
    if inside d path (chain ++ [path]) = [] then definitions d path (chain ++ [path]) else []

end Include

namespace Inclusion

/-- The errors of the includes of a document, with a limit to the levels of files. -/
def report : Nat → Document → String → List String → List Diagnostic
  | 0, d, _, _ =>
    if d.includes = [] then []
    else [⟨(IncludeCause.tooDeep options.inclusion).message, Position.first⟩]
  | levels + 1, d, fromPath, chain =>
    d.includes.flatMap (Include.errors files options (report levels) fromPath chain)

/-- The definitions of a document, in order, with a limit to the levels of files: those that its
directives add, and then its own. -/
def flattened {α : Type} (own : Document → List α) :
    Nat → Document → String → List String → List α
  | 0, d, _, _ => own d
  | levels + 1, d, fromPath, chain =>
    d.includes.flatMap (Include.adds files options (report files options levels)
      (flattened own levels) fromPath chain) ++ own d

end Inclusion

/-- The document with definitions merged by name in place of its own, and without directives. -/
def Document.merging (components : List Component) (layouts : List Layout) (d : Document) :
    Document :=
  { d with
    includes := []
    components := lastByName Component.name components
    layouts := lastByName Layout.name layouts }

namespace Inclusion

variable {files options} {σ : Type} {loader : Loader σ}

theorem report_of_noIncludes {d : Document} (bare : d.includes = []) (levels : Nat)
    (fromPath : String) (chain : List String) :
    report files options levels d fromPath chain = [] := by
  cases levels with
  | zero => exact if_pos bare
  | succ levels => rw [report, bare, List.flatMap_nil]

theorem flattened_of_noIncludes {α : Type} {own : Document → List α} {d : Document}
    (bare : d.includes = []) (levels : Nat) (fromPath : String) (chain : List String) :
    flattened files options own levels d fromPath chain = own d := by
  cases levels with
  | zero => rfl
  | succ levels => rw [flattened, bare, List.flatMap_nil, List.nil_append]

/-- Whether a harvest is that of a directive: it has its errors, and merges into the same as what
it adds. -/
structure IsHarvest (files : Files) (options : CompileOptions) (levels : Nat) (fromPath : String)
    (chain : List String) (i : Include) (h : Harvest) : Prop where
  errors : h.errors = i.errors files options (report files options levels) fromPath chain
  components : lastByName Component.name h.components = lastByName Component.name
    (i.adds files options (report files options levels)
      (flattened files options Document.components levels) fromPath chain)
  layouts : lastByName Layout.name h.layouts = lastByName Layout.name
    (i.adds files options (report files options levels)
      (flattened files options Document.layouts levels) fromPath chain)

/-- Whether a document that was resolved has some errors, and without any merges into the same as
what it takes over. -/
structure IsResolved (files : Files) (options : CompileOptions) (levels : Nat) (d : Document)
    (path : String) (chain : List String) (result : Document × List Diagnostic) : Prop where
  errors : result.2 = report files options levels d path chain
  components : result.2 = [] → lastByName Component.name result.1.components =
    lastByName Component.name (flattened files options Document.components levels d path chain)
  layouts : result.2 = [] → lastByName Layout.name result.1.layouts =
    lastByName Layout.name (flattened files options Document.layouts levels d path chain)

theorem isResolved_of_noIncludes {levels : Nat} {d : Document} {path : String}
    {chain : List String} (bare : d.includes = []) :
    IsResolved files options levels d path chain (d, []) where
  errors := (report_of_noIncludes bare levels path chain).symm
  components _ := by rw [flattened_of_noIncludes bare]
  layouts _ := by rw [flattened_of_noIncludes bare]

section Directive

variable {levels : Nat} {fromPath : String} {chain : List String} {i : Include}

theorem isHarvest_failed {cause : IncludeCause}
    (fails : i.loaded files options fromPath chain = .error cause) :
    IsHarvest files options levels fromPath chain i (.failed i cause) := by
  constructor <;> simp only [Include.errors, Include.adds, fails] <;> rfl

theorem isHarvest_ofDocument {d : Document} {path : String}
    (loads : i.loaded files options fromPath chain = .ok (d, path))
    {result : Document × List Diagnostic}
    (resolved : IsResolved files options levels d path (chain ++ [path]) result) :
    IsHarvest files options levels fromPath chain i (.ofDocument result.1 result.2) := by
  obtain ⟨errors, components, layouts⟩ := resolved
  by_cases quiet : result.2 = []
  · have clear := errors.symm.trans quiet
    constructor <;> simp [Include.errors, Include.adds, Harvest.ofDocument, *]
  · have unclear := errors ▸ quiet
    constructor <;> simp [Include.errors, Include.adds, Harvest.ofDocument, *]

variable {resolve : Document → String → List String → Resolving σ (Document × List Diagnostic)}

/-- A file that is not being included already is read. -/
theorem gives_directive_of_read (answers : loader.Answers files) {file : LoadedFile}
    (reply : files i.path fromPath = .ok file) (fresh : file.path ∉ chain)
    {read : Document ⊕ (Option Document × List Fault)} {h : Harvest}
    (rest : (match read with
      | .inr (_, faults) =>
        return .failed i (.faulty i.path ((faults.head?.map (·.cause.message)).getD "Parse error"))
      | .inl d => do
        if d.includes.isEmpty then return .ofDocument d []
        let (d, errors) ← resolve d file.path (chain ++ [file.path])
        return .ofDocument d errors : Resolving σ Harvest).Gives (.ok h))
    (accepted : (options.read file.content).accepted = .ok read) :
    (directive loader options resolve fromPath chain i).Gives (.ok h) := by
  have load := Resolving.Gives.load answers i.path fromPath
  rw [reply] at load
  refine load.bind ?_
  simp only [List.contains_iff_mem, if_neg fresh]
  refine (Resolving.Gives.emit _).bind ((Resolving.Gives.emit _).bind ?_)
  exact (Resolving.Gives.lift accepted).bind rest

theorem gives_directive_of_error (answers : loader.Answers files)
    (readable : files.Readable options) {cause : IncludeCause}
    (fails : i.loaded files options fromPath chain = .error cause) :
    (directive loader options resolve fromPath chain i).Gives (.ok (.failed i cause)) := by
  have load := Resolving.Gives.load answers i.path fromPath
  unfold Include.loaded at fails
  split at fails
  · rename_i fault reply
    obtain rfl := Except.error.inj fails
    rw [reply] at load
    exact load.bind (.pure _)
  · rename_i file reply
    split at fails
    · rename_i known
      obtain rfl := Except.error.inj fails
      rw [reply] at load
      refine load.bind ?_
      simp only [List.contains_iff_mem, if_pos known]
      exact .pure _
    · rename_i fresh
      have accepted := Attempt.accepted_of_settled (readable _ _ file reply)
      split at fails
      · cases fails
      · rename_i unclean
        obtain rfl := Except.error.inj fails
        rw [unclean] at accepted
        exact gives_directive_of_read answers reply fresh (.pure _) accepted

theorem gives_directive_of_loaded (answers : loader.Answers files) {d : Document} {path : String}
    (loads : i.loaded files options fromPath chain = .ok (d, path))
    {result : Document × List Diagnostic}
    (inner : if d.includes = [] then result = (d, [])
      else (resolve d path (chain ++ [path])).Gives (.ok result)) :
    (directive loader options resolve fromPath chain i).Gives
      (.ok (.ofDocument result.1 result.2)) := by
  obtain ⟨content, reply, fresh, read⟩ := Include.loaded_eq_ok_iff.mp loads
  have accepted : (options.read content).accepted = .ok (.inl d) := by
    rw [read]
    rfl
  refine gives_directive_of_read answers reply fresh ?_ accepted
  by_cases bare : d.includes = []
  · rw [if_pos bare] at inner
    simp only [bare, inner, List.isEmpty_nil, if_true]
    exact .pure _
  · rw [if_neg bare] at inner
    simp only [List.isEmpty_iff, if_neg bare]
    exact inner.bind (.pure _)

end Directive

theorem isResolved_merging (levels : Nat) (d : Document) (path : String) (chain : List String) :
    IsResolved files options levels d path chain
      (d.merging (flattened files options Document.components levels d path chain)
        (flattened files options Document.layouts levels d path chain),
        report files options levels d path chain) where
  errors := rfl
  components _ := lastByName_lastByName
  layouts _ := lastByName_lastByName

section Harvests

variable {levels : Nat} {fromPath : String} {chain : List String} {is : List Include}
  {hs : List Harvest}

theorem errors_of_harvests
    (harvests : List.Forall₂ (IsHarvest files options levels fromPath chain) is hs) :
    hs.flatMap Harvest.errors =
      is.flatMap (Include.errors files options (report files options levels) fromPath chain) := by
  induction harvests with
  | nil => rfl
  | cons first _ ih => rw [List.flatMap_cons, List.flatMap_cons, first.errors, ih]

/-- What harvests add merges into the same as what their directives add. -/
theorem lastByName_flatMap_of_harvests {α : Type} {name : α → String} {own : Document → List α}
    {reaped : Harvest → List α}
    (each : ∀ i h, IsHarvest files options levels fromPath chain i h →
      lastByName name (reaped h) = lastByName name (i.adds files options
        (report files options levels) (flattened files options own levels) fromPath chain))
    (harvests : List.Forall₂ (IsHarvest files options levels fromPath chain) is hs) :
    lastByName name (hs.flatMap reaped) = lastByName name (is.flatMap (Include.adds files options
      (report files options levels) (flattened files options own levels) fromPath chain)) := by
  induction harvests with
  | nil => rfl
  | cons first _ ih =>
      rw [List.flatMap_cons, List.flatMap_cons]
      exact lastByName_append_congr (each _ _ first) ih

theorem merge_of_harvests {d : Document}
    (harvests : List.Forall₂ (IsHarvest files options levels fromPath chain) d.includes hs) :
    Harvest.merge hs d =
      d.merging (flattened files options Document.components (levels + 1) d fromPath chain)
        (flattened files options Document.layouts (levels + 1) d fromPath chain) := by
  have components := lastByName_append_congr
    (lastByName_flatMap_of_harvests (fun _ _ => IsHarvest.components) harvests)
    (rfl : lastByName Component.name d.components = _)
  have layouts := lastByName_append_congr
    (lastByName_flatMap_of_harvests (fun _ _ => IsHarvest.layouts) harvests)
    (rfl : lastByName Layout.name d.layouts = _)
  rw [Harvest.merge, Document.merging, flattened, flattened, ← components, ← layouts,
    Table.values_ofList_map, Table.values_ofList_map]

end Harvests

theorem exists_isHarvest (answers : loader.Answers files) (readable : files.Readable options)
    {resolve : Document → String → List String → Resolving σ (Document × List Diagnostic)}
    {levels : Nat} (fromPath : String) {chain : List String} (i : Include)
    (inner : ∀ d path, d.includes ≠ [] → ∃ result,
      (resolve d path (chain ++ [path])).Gives (.ok result) ∧
        IsResolved files options levels d path (chain ++ [path]) result) :
    ∃ h, (directive loader options resolve fromPath chain i).Gives (.ok h) ∧
      IsHarvest files options levels fromPath chain i h := by
  cases loads : i.loaded files options fromPath chain with
  | error cause =>
      exact ⟨_, gives_directive_of_error answers readable loads, isHarvest_failed loads⟩
  | ok loaded =>
      obtain ⟨d, path⟩ := loaded
      by_cases bare : d.includes = []
      · refine ⟨_, gives_directive_of_loaded answers loads ?_,
          isHarvest_ofDocument loads (isResolved_of_noIncludes bare)⟩
        rw [if_pos bare]
      · obtain ⟨result, gives, resolved⟩ := inner d path bare
        refine ⟨_, gives_directive_of_loaded answers loads ?_, isHarvest_ofDocument loads resolved⟩
        rw [if_neg bare]
        exact gives

/-- Resolving the includes of a document gives it with all that they add merged at once, and the
errors of all directives. -/
theorem gives_resolve (answers : loader.Answers files) (readable : files.Readable options)
    (levels : Nat) (d : Document) (fromPath : String) (chain : List String) :
    (resolve loader options (levels + 1) d fromPath chain).Gives
      (.ok (d.merging (flattened files options Document.components (levels + 1) d fromPath chain)
        (flattened files options Document.layouts (levels + 1) d fromPath chain),
        report files options (levels + 1) d fromPath chain)) := by
  -- One level further down, files that include others are beyond the limit or resolved in turn.
  have inner (chain : List String) : ∀ d path, d.includes ≠ [] → ∃ result,
      (resolve loader options levels d path (chain ++ [path])).Gives (.ok result) ∧
        IsResolved files options levels d path (chain ++ [path]) result := by
    intro d path includes
    cases levels with
    | zero =>
        refine ⟨_, .pure _, ?_, nofun, nofun⟩
        rw [report, if_neg includes]
    | succ levels =>
        exact ⟨_, gives_resolve answers readable levels d path (chain ++ [path]),
          isResolved_merging ..⟩
  obtain ⟨hs, gives, harvests⟩ := Resolving.Gives.mapM
    fun i (_ : i ∈ d.includes) => exists_isHarvest answers readable fromPath i (inner chain)
  rw [report, ← merge_of_harvests harvests, ← errors_of_harvests harvests]
  exact gives.bind (.pure _)

end Inclusion
end Included

/-- A document merged from a document and definitions: it is the same but for them, holds each name
where it first comes, as it comes last, and has no directives left. -/
structure Document.IsMerged (d : Document) (allComponents : List Component)
    (allLayouts : List Layout) (merged : Document) : Prop where
  includes : merged.includes = []
  metadata : merged.metadata = d.metadata
  screens : merged.screens = d.screens
  location : merged.location = d.location
  components : merged.components = lastByName Component.name allComponents
  layouts : merged.layouts = lastByName Layout.name allLayouts
  /-- The document's own component counts, or else the last one. -/
  component? : ∀ n, merged.component? n =
    (lastOf? Component.name d.components n).or (lastOf? Component.name allComponents n)
  /-- The document's own layout counts, or else the last one. -/
  layout? : ∀ n, merged.layout? n =
    (lastOf? Layout.name d.layouts n).or (lastOf? Layout.name allLayouts n)

namespace Inclusion

variable {σ : Type} {loader : Loader σ} {files : Files} {options : CompileOptions}

theorem lastOf?_flattened {α : Type} {own : Document → List α} (name : α → String)
    (levels : Nat) (d : Document) (fromPath : String) (chain : List String) (n : String) :
    lastOf? name (flattened files options own levels d fromPath chain) n =
      (lastOf? name (own d) n).or
        (lastOf? name (flattened files options own levels d fromPath chain) n) := by
  cases levels with
  | zero => rw [flattened, Option.or_self]
  | succ levels =>
      rw [flattened, lastOf?_append]
      cases lastOf? name (own d) n <;> simp

/-- Including is flattening: unless a file is refused, resolving the includes of a document within
the limit gives it merged with all definitions that its directives lead to. -/
theorem resolve_flattens (answers : loader.Answers files) (readable : files.Readable options)
    {depth : Int} (within : depth ≤ options.inclusion) (d : Document) (fromPath : String)
    (chain : List String) (trace : Trace σ) :
    ∃ merged, ((resolve loader options (levels options depth) d fromPath chain).run.run trace).1 =
        .ok (merged, report files options (levels options depth) d fromPath chain) ∧
      d.IsMerged
        (flattened files options Document.components (levels options depth) d fromPath chain)
        (flattened files options Document.layouts (levels options depth) d fromPath chain)
        merged := by
  obtain ⟨below, isLevels⟩ : ∃ below, levels options depth = below + 1 :=
    Nat.exists_eq_succ_of_ne_zero (by rw [levels]; omega)
  rw [isLevels]
  refine ⟨_, gives_resolve answers readable below d fromPath chain trace, ?_⟩
  refine ⟨rfl, rfl, rfl, rfl, rfl, rfl, fun n => ?_, fun n => ?_⟩
  · rw [Document.component?_eq_lastOf?, ← lastOf?_flattened]
    exact lastOf?_lastByName
  · rw [Document.layout?_eq_lastOf?, ← lastOf?_flattened]
    exact lastOf?_lastByName

/-- One file is included by the other as well, and a third one is missing. -/
theorem resolve_flattens_shared : ∃ (l : Library) (d merged : Document) (errors : List Diagnostic),
    d.includes.map Include.path = ["a", "c", "gone"] ∧
      ((resolve (.ofFiles l.files) ⟨20, 5, false, ""⟩ (levels ⟨20, 5, false, ""⟩ 0) d
        "" []).run.run ⟨(), []⟩).1 = .ok (merged, errors) ∧
      merged.components.map Component.name = ["z", "x", "y"] ∧
      errors = [⟨"Cannot resolve include 'gone': No such file: gone", ⟨1, 1⟩⟩] := by
  let l : Library := ⟨.ofList [
    ("a", "(wire (include \"c\") (define x () (box)) (layout l (box)))"),
    ("c", "(wire (define z () (box)) (define x () (row)))")], fun path _ => .ok path⟩
  let options : CompileOptions := ⟨20, 5, false, ""⟩
  let d : Document := { Document.empty with
    includes := [⟨"a", none⟩, ⟨"c", none⟩, ⟨"gone", none⟩]
    components := [⟨"y", [], default, none⟩] }
  have reads : ∀ content ∈ l.contents.values, (options.read content).value?.isSome := by
    decide +kernel
  have readable : l.files.Readable options :=
    Library.readable fun content member => Attempt.settled_of_isSome (reads content member)
  have within : (0 : Int) ≤ options.inclusion := by decide
  obtain ⟨merged, gives, isMerged⟩ :=
    resolve_flattens (Loader.answers_ofFiles l.files) readable within d "" [] ⟨(), []⟩
  refine ⟨l, d, merged, _, rfl, gives, ?_, ?_⟩
  · rw [isMerged.components]
    decide +kernel
  · decide +kernel

end Inclusion
end Wireframe
