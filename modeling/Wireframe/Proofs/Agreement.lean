import Wireframe.Proofs.Outcome
import Wireframe.Proofs.Overriding

/-!
# Compiling with and without a loader

Files that define nothing add nothing to the document that includes them, which is then merged with
itself alone.  Compiling it with a loader and without comes to the same, apart from what stands
against components that later ones replace: only compiling without a loader tells of these.
-/

namespace Wireframe

/-- A result of compiling without a loader tells what one with a loader tells, and some findings
besides. -/
structure Compiled.Exceeds (plain merged : Compiled) (strict : Bool) (hidden : List Finding) :
    Prop where
  errors : plain.errors.Perm (merged.errors ++ Finding.errors hidden)
  warnings : plain.warnings.Perm (merged.warnings ++ Finding.warnings hidden)
  success_iff : plain.success = true ↔ merged.success = true ∧ Finding.errors hidden = [] ∧
    ¬(strict = true ∧ Finding.warnings hidden ≠ [])

namespace Document

theorem missingScreen_merging (d : Document) :
    (d.merging d.components d.layouts).missingScreen = d.missingScreen := rfl

private theorem eq_nil_iff_of_perm {told kept hidden : List Diagnostic}
    (perm : told.Perm (kept ++ hidden)) : told = [] ↔ kept = [] ∧ hidden = [] := by
  rw [← List.append_eq_nil_iff]
  exact ⟨fun none => (none ▸ perm).nil_eq.symm, fun none => (none ▸ perm).eq_nil⟩

/-- Validation of a merged document leaves out what stands against components that are replaced. -/
theorem exceeds_finish (d : Document) (strict : Bool) :
    (d.finish strict []).Exceeds ((d.merging d.components d.layouts).finish strict []) strict
      d.overriddenFindings := by
  let merged := d.merging d.components d.layouts
  have errors : (d.finish strict []).errors.Perm
      ((merged.finish strict []).errors ++ Finding.errors d.overriddenFindings) := by
    simp only [finish, List.nil_append, merged, missingScreen_merging, List.append_assoc]
    exact d.perm_errors_merging.append_left _
  have warnings : (d.finish strict []).warnings.Perm
      ((merged.finish strict []).warnings ++ Finding.warnings d.overriddenFindings) :=
    d.perm_warnings_merging
  refine ⟨errors, warnings, ?_⟩
  rw [success_finish_iff, success_finish_iff, eq_nil_iff_of_perm errors, ne_eq,
    eq_nil_iff_of_perm warnings]
  tauto

theorem finish_merging_of_nodup {d : Document} (distinct : (d.components.map Component.name).Nodup)
    (strict : Bool) : (d.merging d.components d.layouts).finish strict [] =
      { d.finish strict [] with document := some (d.merging d.components d.layouts) } := by
  simp only [finish, errors, warnings, findings_merging_of_nodup distinct, missingScreen_merging]

end Document

/-- Whether a file is loaded that includes and defines nothing. -/
def Request.LoadsBare (options : CompileOptions) (q : Request) : Prop :=
  ∃ inner path, q.loaded options = .ok (inner, path) ∧
    inner.includes = [] ∧ inner.components = [] ∧ inner.layouts = []

/-- Whether a loader in some state answers the directives of a document one after the other, each
with a file that includes and defines nothing. -/
def Loader.ServesBare {σ : Type} (loader : Loader σ) (options : CompileOptions) (v : Visit)
    (store : σ) : Prop :=
  ∃ log last, loader.Serves store log last ∧ log.map Request.directive = v.document.includes ∧
    ∀ q ∈ log, q.visit = v ∧ q.LoadsBare options

namespace Inclusion

variable {σ : Type} {loader : Loader σ} {options : CompileOptions} {v : Visit}

/-- A directive adds nothing if it loads a file that defines nothing. -/
theorem run_directive_of_loadsBare
    (resolve : Document → String → List String → Resolving σ (Document × List Diagnostic))
    {i : Include} {reply : Reply} {next : σ} {before : Trace σ}
    (answer : loader i.path v.path before.store = (reply, next))
    (bare : Request.LoadsBare options ⟨v, i, reply⟩) :
    ∃ between, between.store = next ∧
      (directive loader options resolve v.path v.chain i).run.run before =
        (.ok ⟨[], [], []⟩, between) := by
  obtain ⟨inner, path, loads, includes, components, layouts⟩ := bare
  have enters : Request.inside? options ⟨v, i, reply⟩ =
      some ⟨inner, v.depth + 1, path, v.chain ++ [path]⟩ := by
    rw [Request.inside?, loads]
  obtain ⟨reply', between, asked, outcome⟩ :=
    exists_directive loader options resolve v i before
  obtain ⟨rfl, rfl⟩ := Prod.mk.inj (answer.symm.trans asked.answer)
  refine ⟨between, rfl, ?_⟩
  rcases outcome with ⟨r, refused, -⟩ | ⟨cause, fails, -⟩ | ⟨inner', enters', run⟩
  · exact absurd refused (Request.not_refused_of_inside enters r)
  · rw [loads] at fails
    cases fails
  · obtain rfl := Option.some.inj (enters.symm.trans enters')
    rw [run, harvest, includes, List.isEmpty_nil, if_pos rfl]
    simp only [Harvest.ofDocument, components, layouts]
    rfl

theorem run_mapM_of_loadsBare
    (resolve : Document → String → List String → Resolving σ (Document × List Diagnostic))
    {log : List Request} {last : σ} (bare : ∀ q ∈ log, q.visit = v ∧ q.LoadsBare options)
    (before : Trace σ) (serves : loader.Serves before.store log last) :
    ∃ after, ((log.map Request.directive).mapM
      (directive loader options resolve v.path v.chain)).run.run before =
        (.ok (log.map fun _ => ⟨[], [], []⟩), after) := by
  induction log generalizing before with
  | nil => exact ⟨before, rfl⟩
  | cons q rest ih =>
      obtain ⟨⟨here, first⟩, others⟩ := List.forall_mem_cons.mp bare
      cases serves with
      | cons answer onward =>
          obtain ⟨visit, i, reply⟩ := q
          obtain rfl : visit = v := here
          -- The others are asked in the state that the first answer leaves.
          obtain ⟨between, rfl, run⟩ := run_directive_of_loadsBare resolve answer first
          obtain ⟨after, runs⟩ := ih others between onward
          refine ⟨after, ?_⟩
          rw [List.map_cons, List.mapM_cons, Resolving.run_bind, run]
          simp only [Resolving.run_bind, runs]
          rfl

theorem merge_of_nothing (d : Document) (log : List Request) :
    Harvest.merge (log.map fun _ => ⟨[], [], []⟩) d = d.merging d.components d.layouts := by
  have nothing {α : Type} (own : Harvest → List α) (empty : own ⟨[], [], []⟩ = []) :
      (log.map fun _ => (⟨[], [], []⟩ : Harvest)).flatMap own = [] := by
    simp [empty]
  simp only [Harvest.merge, Document.merging, Table.values_ofList_map,
    nothing Harvest.components rfl, nothing Harvest.layouts rfl, List.nil_append]

theorem run_resolve_of_servesBare {before : Trace σ} (within : v.depth ≤ options.inclusion)
    (serves : loader.ServesBare options v before.store) :
    ∃ after, (v.resolve loader options).run.run before =
      (.ok (v.document.merging v.document.components v.document.layouts, []), after) := by
  obtain ⟨log, last, serves, asked, bare⟩ := serves
  obtain ⟨after, run⟩ := run_mapM_of_loadsBare
    (resolve loader options (levels options (v.depth + 1))) bare before serves
  refine ⟨after, ?_⟩
  have quiet : (log.map fun _ => (⟨[], [], []⟩ : Harvest)).flatMap Harvest.errors = [] := by
    simp
  rw [Visit.resolve, levels_succ within, resolve, Resolving.run_bind, ← asked, run]
  simp only [merge_of_nothing, quiet]
  rfl

/-- Whether a source is read as a document with directives, and each loads a file that defines
nothing. -/
structure AddsNothing (loader : Loader σ) (options : CompileOptions) (source : String)
    (before : Trace σ) (d : Document) : Prop where
  read : options.read source = pure d
  directives : d.includes ≠ []
  within : 0 ≤ options.inclusion
  serves : loader.ServesBare options (.start options d) before.store

theorem compile_of_addsNothing {source : String} {before : Trace σ} {d : Document}
    (nothing : AddsNothing loader options source before d) :
    options.compile source = .ok (d.finish options.strict []) ∧
      ∃ after, (compile loader options source).run.run before =
        (.ok ((d.merging d.components d.layouts).finish options.strict []), after) := by
  have accepted := Attempt.accepted_eq_inl_iff.mpr nothing.read
  constructor
  · rw [CompileOptions.compile, accepted]
    rfl
  · obtain ⟨after, run⟩ := run_resolve_of_servesBare nothing.within nothing.serves
    refine ⟨after, ?_⟩
    rw [run_compile, accepted]
    simp only [if_neg nothing.directives, run, if_true]
    rfl

/-- If all files define nothing, compiling without a loader tells the same as compiling with one and
what stands against components that later ones replace; the order is the same too if no component
is defined twice. -/
theorem compile_exceeds {source : String} {before : Trace σ} {d : Document}
    (nothing : AddsNothing loader options source before d) :
    ∃ plain merged after, options.compile source = .ok plain ∧
      (compile loader options source).run.run before = (.ok merged, after) ∧
      plain.Exceeds merged options.strict d.overriddenFindings ∧
      ((d.components.map Component.name).Nodup → plain.errors = merged.errors ∧
        plain.warnings = merged.warnings ∧ plain.success = merged.success) := by
  obtain ⟨alone, after, loaded⟩ := compile_of_addsNothing nothing
  refine ⟨_, _, after, alone, loaded, d.exceeds_finish options.strict, fun distinct => ?_⟩
  rw [Document.finish_merging_of_nodup distinct]
  exact ⟨rfl, rfl, rfl⟩

/-- A loader with nothing but an empty file. -/
def emptyFile : Loader Unit :=
  fun _ _ _ => (.ok ⟨"(wire)", "/empty"⟩, ())

/-- The limits for documents that include an empty file. -/
def emptyOptions : CompileOptions :=
  ⟨20, 10, false, ""⟩

theorem servesBare_emptyFile (d : Document) :
    emptyFile.ServesBare emptyOptions (.start emptyOptions d) () := by
  have nothing : (emptyOptions.read "(wire)").clean?.map (fun inner =>
      (inner.includes.isEmpty, inner.components.isEmpty, inner.layouts.isEmpty)) =
        some (true, true, true) := by
    decide +kernel
  obtain ⟨inner, clean, empty⟩ := Option.map_eq_some_iff.mp nothing
  have read := Attempt.clean?_eq_some_iff.mp clean
  have bare : inner.includes = [] ∧ inner.components = [] ∧ inner.layouts = [] := by
    simpa using empty
  let v := Visit.start emptyOptions d
  let request (i : Include) : Request := ⟨v, i, .ok ⟨"(wire)", "/empty"⟩⟩
  have served (is : List Include) : emptyFile.Serves () (is.map request) () := by
    induction is with
    | nil => exact .nil ()
    | cons i is ih => exact .cons rfl ih
  refine ⟨d.includes.map request, (), served _, ?_, ?_⟩
  · rw [List.map_map]
    exact List.map_id _
  · intro q member
    obtain ⟨i, -, rfl⟩ := List.mem_map.mp member
    refine ⟨rfl, inner, "/empty", ?_, bare⟩
    exact Include.loaded_eq_ok_iff.mpr ⟨"(wire)", rfl, List.not_mem_nil, read⟩

theorem addsNothing_emptyFile {source : String}
    (includes : (emptyOptions.read source).clean?.map (·.includes.isEmpty) = some false) :
    ∃ d, AddsNothing emptyFile emptyOptions source ⟨(), []⟩ d := by
  obtain ⟨d, clean, some⟩ := Option.map_eq_some_iff.mp includes
  have directives : d.includes ≠ [] := by
    intro none
    rw [none] at some
    cases some
  exact ⟨d, Attempt.clean?_eq_some_iff.mp clean, directives, by decide, servesBare_emptyFile d⟩

/-- A document in which a component without errors is replaced. -/
def repeatedSource : String :=
  "(wire (include \"a\") (define c () (box)) (define c () (text $x)) (screen home (gone)))"

/-- Here the component that is replaced has no errors, and both results tell the same. -/
theorem compile_exceeds_twice : ∃ (d : Document) (plain merged : Compiled) (after : Trace Unit),
    AddsNothing emptyFile emptyOptions repeatedSource ⟨(), []⟩ d ∧
      plain.Exceeds merged false d.overriddenFindings ∧ d.overriddenFindings = [] ∧
      plain.errors = [⟨"Unknown parameter reference '$x'", ⟨1, 54⟩⟩] ∧
      plain.warnings = [⟨"Unknown element type: 'gone'", ⟨1, 78⟩⟩] ∧
      emptyOptions.compile repeatedSource = .ok plain ∧
      (compile emptyFile emptyOptions repeatedSource).run.run ⟨(), []⟩ = (.ok merged, after) := by
  let options := emptyOptions
  let source := repeatedSource
  obtain ⟨includes, hidden, errors, warnings⟩ :
      (options.read source).clean?.map (·.includes.isEmpty) = some false ∧
        (options.read source).clean?.map Document.overriddenFindings = some [] ∧
        (options.compile source).toOption.map Compiled.errors =
          some [⟨"Unknown parameter reference '$x'", ⟨1, 54⟩⟩] ∧
        (options.compile source).toOption.map Compiled.warnings =
          some [⟨"Unknown element type: 'gone'", ⟨1, 78⟩⟩] := by
    decide +kernel
  obtain ⟨d, nothing⟩ := addsNothing_emptyFile includes
  obtain ⟨plain, merged, after, alone, loaded, exceeds, -⟩ := compile_exceeds nothing
  rw [alone] at errors warnings
  rw [Attempt.clean?_eq_some_iff.mpr nothing.read] at hidden
  exact ⟨d, plain, merged, after, nothing, exceeds, Option.some.inj hidden, Option.some.inj errors,
    Option.some.inj warnings, alone, loaded⟩

/-- A document in which a component with an error is replaced. -/
def overriddenSource : String :=
  "(wire (include \"a\") (define c () (text $x)) (define c () (box)) (screen home (box)))"

/-- A document in which a component is replaced by one further back. -/
def reorderedSource : String :=
  "(wire (include \"a\") (define c () (box)) (define e () (text $y)) (define c () (text $x)) " ++
    "(screen home (box)))"

/-- Compiling with a loader succeeds although a component that is replaced has an error, and it may
tell errors in another order. -/
theorem compile_conceals :
    (∃ (d : Document) (plain merged : Compiled) (after : Trace Unit),
      AddsNothing emptyFile emptyOptions overriddenSource ⟨(), []⟩ d ∧
        emptyOptions.compile overriddenSource = .ok plain ∧
        (compile emptyFile emptyOptions overriddenSource).run.run ⟨(), []⟩ = (.ok merged, after) ∧
        (plain.success, plain.errors) =
          (false, [⟨"Unknown parameter reference '$x'", ⟨1, 34⟩⟩]) ∧
        (merged.success, merged.errors) = (true, [])) ∧
    ∃ (d : Document) (plain merged : Compiled) (after : Trace Unit),
      AddsNothing emptyFile emptyOptions reorderedSource ⟨(), []⟩ d ∧
        emptyOptions.compile reorderedSource = .ok plain ∧
        (compile emptyFile emptyOptions reorderedSource).run.run ⟨(), []⟩ = (.ok merged, after) ∧
        d.overriddenFindings = [] ∧
        plain.errors = [⟨"Unknown parameter reference '$y'", ⟨1, 54⟩⟩,
          ⟨"Unknown parameter reference '$x'", ⟨1, 78⟩⟩] ∧
        merged.errors = [⟨"Unknown parameter reference '$x'", ⟨1, 78⟩⟩,
          ⟨"Unknown parameter reference '$y'", ⟨1, 54⟩⟩] := by
  let options := emptyOptions
  constructor
  · let source := overriddenSource
    obtain ⟨includes, plainly, mergedly⟩ :
        (options.read source).clean?.map (·.includes.isEmpty) = some false ∧
          (options.compile source).toOption.map (fun c => (c.success, c.errors)) =
            some (false, [⟨"Unknown parameter reference '$x'", ⟨1, 34⟩⟩]) ∧
          ((compile emptyFile options source).run.run ⟨(), []⟩).1.toOption.map
            (fun c => (c.success, c.errors)) = some (true, []) := by
      decide +kernel
    obtain ⟨d, nothing⟩ := addsNothing_emptyFile includes
    obtain ⟨alone, after, loaded⟩ := compile_of_addsNothing nothing
    rw [alone] at plainly
    rw [loaded] at mergedly
    exact ⟨d, _, _, after, nothing, alone, loaded, Option.some.inj plainly,
      Option.some.inj mergedly⟩
  · let source := reorderedSource
    obtain ⟨includes, hidden, plainly, mergedly⟩ :
        (options.read source).clean?.map (·.includes.isEmpty) = some false ∧
          (options.read source).clean?.map Document.overriddenFindings = some [] ∧
          (options.compile source).toOption.map Compiled.errors =
            some [⟨"Unknown parameter reference '$y'", ⟨1, 54⟩⟩,
              ⟨"Unknown parameter reference '$x'", ⟨1, 78⟩⟩] ∧
          ((compile emptyFile options source).run.run ⟨(), []⟩).1.toOption.map
            Compiled.errors = some [⟨"Unknown parameter reference '$x'", ⟨1, 78⟩⟩,
              ⟨"Unknown parameter reference '$y'", ⟨1, 54⟩⟩] := by
      decide +kernel
    obtain ⟨d, nothing⟩ := addsNothing_emptyFile includes
    obtain ⟨alone, after, loaded⟩ := compile_of_addsNothing nothing
    rw [Attempt.clean?_eq_some_iff.mpr nothing.read] at hidden
    rw [alone] at plainly
    rw [loaded] at mergedly
    exact ⟨d, _, _, after, nothing, alone, loaded, Option.some.inj hidden, Option.some.inj plainly,
      Option.some.inj mergedly⟩

end Inclusion
end Wireframe
