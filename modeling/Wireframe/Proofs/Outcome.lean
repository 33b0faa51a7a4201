import Wireframe.Proofs.Asking

/-!
# What a result says

A result of compiling comes from a source with faults, from directives that were not carried out, or
from a document that was validated.  Whichever it is, its parts agree: it is a success just if
nothing in it stands against the document, and a success vouches for the document that it holds.
-/

namespace Wireframe

/-- A result of compiling a source agrees with itself, with its document and with the source. -/
structure Compiled.Coherent (options : CompileOptions) (source : String) (c : Compiled) :
    Prop where
  /-- It is a success just if there are no errors, and no warnings where these count. -/
  success_iff : c.success = true ↔ c.errors = [] ∧ ¬(options.strict = true ∧ c.warnings ≠ [])
  /-- A success holds a document with screens and without errors, and tells all warnings. -/
  valid : c.success = true →
    ∃ d, c.document = some d ∧ d.screens ≠ [] ∧ d.errors = [] ∧ c.warnings = d.warnings
  /-- Where reading finds faults, these are told and nothing else. -/
  faults : (options.read source).faults ≠ [] →
    c.errors = (options.read source).faults.map Fault.diagnostic ∧ c.warnings = []

variable {options : CompileOptions} {source : String} {d : Document}

theorem Document.missingScreen_eq_nil_iff : d.missingScreen = [] ↔ d.screens ≠ [] := by
  rw [missingScreen]
  cases d.screens <;> simp

theorem Document.success_finish_iff {strict : Bool} {errors : List Diagnostic} :
    (d.finish strict errors).success = true ↔ (d.finish strict errors).errors = [] ∧
      ¬(strict = true ∧ (d.finish strict errors).warnings ≠ []) := by
  simp only [finish, Bool.and_eq_true, List.isEmpty_iff, Bool.not_eq_true', Bool.and_eq_false_iff,
    Bool.not_eq_false', not_and_or, not_not, Bool.not_eq_true]

namespace Compiled

theorem coherent_ofFaults {document : Option Document} {faults : List Fault}
    (accepted : (options.read source).accepted = .ok (.inr (document, faults))) :
    (ofFaults document faults).Coherent options source := by
  obtain ⟨rfl, faulty⟩ := Attempt.faults_of_accepted accepted
  refine ⟨?_, nofun, fun _ => ⟨rfl, rfl⟩⟩
  simp only [ofFaults, Bool.false_eq_true, List.map_eq_nil_iff, faulty, false_and]

theorem coherent_finish (read : options.read source = pure d) (merged : Document) :
    (merged.finish options.strict []).Coherent options source := by
  refine ⟨Document.success_finish_iff, fun success => ?_, fun faulty => ?_⟩
  · obtain ⟨none, -⟩ := Document.success_finish_iff.mp success
    obtain ⟨screens, errors⟩ := List.append_eq_nil_iff.mp none
    exact ⟨merged, rfl, Document.missingScreen_eq_nil_iff.mp screens, errors, rfl⟩
  · rw [read] at faulty
    exact absurd rfl faulty

theorem coherent_unresolved (read : options.read source = pure d) (merged : Document)
    {errors : List Diagnostic} (told : errors ≠ []) :
    Coherent options source ⟨false, some merged, errors, []⟩ := by
  refine ⟨?_, nofun, fun faulty => ?_⟩
  · simp only [Bool.false_eq_true, told, false_and]
  · rw [read] at faulty
    exact absurd rfl faulty

end Compiled

namespace Inclusion

variable {σ : Type} {loader : Loader σ} {before after : Trace σ}

/-- No directives are left in a document whose includes were resolved without errors. -/
theorem includes_of_run_resolve {v : Visit} {merged : Document}
    (run : (v.resolve loader options).run.run before = (.ok (merged, []), after)) :
    merged.includes = [] := by
  rw [Visit.resolve] at run
  cases left : levels options v.depth with
  | zero =>
      rw [left] at run
      cases run
  | succ levels =>
      rw [left, resolve, Resolving.run_bind] at run
      split at run
      · obtain ⟨rfl, -⟩ := Prod.mk.inj (Except.ok.inj (Prod.mk.inj run).1)
        rfl
      · cases run

theorem coherent_of_run_compile {c : Compiled}
    (run : (compile loader options source).run.run before = (.ok c, after)) :
    c.Coherent options source ∧
      (c.success = true → ∃ d, c.document = some d ∧ d.includes = []) := by
  rw [run_compile] at run
  rcases accepted : (options.read source).accepted with r | d | ⟨document, faults⟩ <;>
    simp only [accepted] at run
  · cases run
  · have read := Attempt.accepted_eq_inl_iff.mp accepted
    by_cases bare : d.includes = []
    · rw [if_pos bare] at run
      obtain rfl := Except.ok.inj (Prod.mk.inj run).1
      exact ⟨Compiled.coherent_finish read d, fun _ => ⟨d, rfl, bare⟩⟩
    · rw [if_neg bare] at run
      split at run
      · cases run
      · rename_i merged errors between resolved
        obtain rfl := Except.ok.inj (Prod.mk.inj run).1
        by_cases quiet : errors = []
        · subst quiet
          rw [if_pos rfl]
          exact ⟨Compiled.coherent_finish read merged,
            fun _ => ⟨merged, rfl, includes_of_run_resolve resolved⟩⟩
        · rw [if_neg quiet]
          exact ⟨Compiled.coherent_unresolved read merged quiet, nofun⟩
  · obtain rfl := Except.ok.inj (Prod.mk.inj run).1
    exact ⟨Compiled.coherent_ofFaults accepted, nofun⟩

end Inclusion

theorem CompileOptions.coherent_of_compile {c : Compiled} (run : options.compile source = .ok c) :
    c.Coherent options source := by
  rw [compile] at run
  rcases accepted : (options.read source).accepted with r | d | ⟨document, faults⟩ <;>
    rw [accepted] at run
  · cases run
  · obtain rfl := Except.ok.inj run
    exact Compiled.coherent_finish (Attempt.accepted_eq_inl_iff.mp accepted) d
  · obtain rfl := Except.ok.inj run
    exact Compiled.coherent_ofFaults accepted

/-- Whatever compiling gives agrees with itself, with or without a loader, and what a loader makes a
success of has no directives left. -/
theorem Inclusion.compile_coherent {σ : Type} (loader : Loader σ) (options : CompileOptions)
    (source : String) :
    (∀ c, options.compile source = .ok c → c.Coherent options source) ∧
    ∀ (before after : Trace σ) (c : Compiled),
      (compile loader options source).run.run before = (.ok c, after) →
        c.Coherent options source ∧
          (c.success = true → ∃ d, c.document = some d ∧ d.includes = []) :=
  ⟨fun _ => CompileOptions.coherent_of_compile, fun _ _ _ => coherent_of_run_compile⟩

/-- Where warnings count, a component that only an included file defines makes the difference. -/
theorem Inclusion.compile_coherent_strict : ∃ (loader : Loader Unit) (options : CompileOptions)
    (source : String) (plain merged : Compiled) (after : Trace Unit),
    options.compile source = .ok plain ∧
      (compile loader options source).run.run ⟨(), []⟩ = (.ok merged, after) ∧
      plain.Coherent options source ∧ merged.Coherent options source ∧
      (plain.success = false ∧ plain.errors = []) ∧
      merged.success = true ∧ ∃ d, merged.document = some d ∧ d.includes = [] := by
  let loader : Loader Unit := fun _ _ _ => (.ok ⟨"(wire (define own () (box)))", "/own"⟩, ())
  let options : CompileOptions := ⟨20, 10, true, ""⟩
  let source := "(wire (include \"own\") (screen home (own)))"
  obtain ⟨plainly, succeeds⟩ :
      (options.compile source).toOption.map (fun c => (c.success, c.errors)) = some (false, []) ∧
        ((compile loader options source).run.run ⟨(), []⟩).1.toOption.map Compiled.success =
          some true := by
    decide +kernel
  obtain ⟨alone, loaded⟩ := compile_coherent loader options source
  rcases run : (compile loader options source).run.run ⟨(), []⟩ with ⟨result, after⟩
  rw [run] at succeeds
  cases result with
  | error r => cases succeeds
  | ok merged =>
      have success : merged.success = true := Option.some.inj succeeds
      obtain ⟨coherent, bare⟩ := loaded _ _ _ run
      cases plainRun : options.compile source with
      | error r =>
          rw [plainRun] at plainly
          cases plainly
      | ok plain =>
          rw [plainRun] at plainly
          obtain ⟨fails, none⟩ := Prod.mk.inj (Option.some.inj plainly)
          exact ⟨loader, options, source, plain, merged, after, plainRun, run,
            alone plain plainRun, coherent, ⟨fails, none⟩, success, bare success⟩

end Wireframe
