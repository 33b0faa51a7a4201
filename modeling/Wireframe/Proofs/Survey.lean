import Wireframe.Proofs.Asking
import Wireframe.Proofs.Refusal

/-!
# What is asked in a run

Whatever a loader answers, resolving includes ends.  Unless a file is refused on the way, the loader
is asked exactly once for each directive of each document within the limit to the nesting of
includes, depth first and in order, and each time with the path of the file that the directive
stands in.
-/

namespace Wireframe

section Survey

variable {σ α : Type}

/-- What a run asks of a loader from a document on: the requests that were made, and those that were
left when a file was refused. -/
structure Survey (loader : Loader σ) (options : CompileOptions) (v : Visit) (before after : Trace σ)
    (result : Except Rejection α) (made left : List Request) : Prop where
  /-- Together they are a request for each directive, depth first and in order. -/
  walk : Walk options v v.document.includes (made ++ left)
  /-- The loader was asked for those that were made. -/
  asked : Asked loader before made after
  /-- Going on, it would come to the end. -/
  ends : ∃ last, loader.Serves after.store left last
  /-- Only documents within the limit are asked for. -/
  within : ∀ q ∈ made, q.visit.depth ≤ options.inclusion
  /-- A directive stands in the first document or in a file loaded before, the path of which is the
  path that the loader is told, and which is one level further down. -/
  origin : ∀ front q back, made = front ++ q :: back → q.visit = v ∨
    ∃ p ∈ front, ∃ content, p.reply = .ok ⟨content, q.visit.path⟩ ∧
      options.read content = pure q.visit.document ∧ q.visit.depth = p.visit.depth + 1
  /-- No path comes twice in a chain that is passed down. -/
  distinct : v.chain.Nodup → ∀ q ∈ made, q.visit.chain.Nodup ∧
    ∀ inner ∈ q.inside? options, inner.chain.Nodup
  /-- A run with a result made all requests. -/
  whole : ∀ a, result = .ok a → left = []
  /-- A run without a result stopped at the first file that is refused. -/
  stops : ∀ r, result = .error r → ∃ front q, made = front ++ [q] ∧ q.Refused options r ∧
    ∀ p ∈ front, ∀ r, ¬p.Refused options r

variable {loader : Loader σ} {options : CompileOptions} {v : Visit} {before after : Trace σ}

theorem Survey.of_walk {result : Except Rejection α} {made left : List Request}
    (walk : Walk options v v.document.includes (made ++ left))
    (asked : Asked loader before made after)
    (ends : ∃ last, loader.Serves after.store left last) (whole : ∀ a, result = .ok a → left = [])
    (stops : ∀ r, result = .error r → ∃ front q, made = front ++ [q] ∧ q.Refused options r ∧
      ∀ p ∈ front, ∀ r, ¬p.Refused options r) :
    Survey loader options v before after result made left where
  walk := walk
  asked := asked
  ends := ends
  within q member := walk.depth_le q (List.mem_append_left _ member)
  origin front q back split := by
    have split' : made ++ left = front ++ q :: (back ++ left) := by
      rw [split, List.append_assoc, List.cons_append]
    refine (walk.visit_eq_or split').imp_right ?_
    rintro ⟨p, earlier, enters⟩
    obtain ⟨content, reply, -, read, depth, -⟩ := Request.inside?_eq_some_iff.mp enters
    exact ⟨p, earlier, content, reply, read, depth⟩
  distinct nodup q member := walk.nodup_chain nodup q (List.mem_append_left _ member)
  whole := whole
  stops := stops

theorem Survey.congr {β : Type} {result : Except Rejection α} {other : Except Rejection β}
    {made left : List Request} (alike : ∀ r, other = .error r ↔ result = .error r)
    (survey : Survey loader options v before after result made left) :
    Survey loader options v before after other made left := by
  refine .of_walk survey.walk survey.asked survey.ends (fun b finished => ?_) fun r refused =>
    survey.stops r ((alike r).mp refused)
  cases result with
  | ok a => exact survey.whole a rfl
  | error r =>
      rw [(alike r).mpr rfl] at finished
      cases finished

theorem Explores.exists_survey {result : Except Rejection α}
    {errors : Except Rejection (List Diagnostic)}
    (ends : ∀ r, result = .error r ↔ errors = .error r)
    (explores : Explores loader options v v.document.includes before errors after) :
    ∃ made left, Survey loader options v before after result made left := by
  cases explores with
  | @finished log _ walk asked settled =>
      refine ⟨log, [], .of_walk (by rwa [List.append_nil]) asked ⟨_, .nil _⟩ (fun _ _ => rfl) ?_⟩
      intro r refused
      cases (ends r).mp refused
  | @refused made left q r _ last walk asked settled refused onward =>
      have stopped : result = .error r := (ends r).mpr rfl
      refine ⟨made ++ [q], left, .of_walk (by rwa [List.append_cons] at walk) asked ⟨last, onward⟩
        ?_ ?_⟩
      · intro a finished
        rw [stopped] at finished
        cases finished
      · intro r' refused'
        obtain rfl := Except.error.inj (stopped.symm.trans refused')
        exact ⟨made, q, rfl, refused, settled⟩

namespace Inclusion

theorem exists_survey_resolve (loader : Loader σ) (options : CompileOptions) (v : Visit)
    (before : Trace σ) : ∃ result after made left,
      (v.resolve loader options).run.run before = (result, after) ∧
        Survey loader options v before after result made left := by
  rcases run : (v.resolve loader options).run.run before with ⟨result, after⟩
  by_cases within : v.depth ≤ options.inclusion
  · have explores := explores_resolve loader v within run
    have ends (r : Rejection) : result = .error r ↔ result.map Prod.snd = .error r := by
      cases result <;> simp [Except.map]
    obtain ⟨made, left, survey⟩ := explores.exists_survey ends
    exact ⟨result, after, made, left, rfl, survey⟩
  · have deep := Int.not_le.mp within
    rw [Visit.resolve, levels_eq_zero_iff.mpr deep] at run
    obtain ⟨rfl, rfl⟩ := Prod.mk.inj run
    exact ⟨_, _, [], [], rfl,
      .of_walk (.beyond deep) (.nil _) ⟨_, .nil _⟩ (fun _ _ => rfl) (by simp)⟩

theorem exists_survey_compile (loader : Loader σ) {options : CompileOptions} {source : String}
    {d : Document} (read : options.read source = pure d) (before : Trace σ) :
    ∃ result after made left, (compile loader options source).run.run before = (result, after) ∧
      Survey loader options (.start options d) before after result made left := by
  have accepted := Attempt.accepted_eq_inl_iff.mpr read
  rw [run_compile, accepted]
  by_cases bare : d.includes = []
  · have nothing : (Visit.start options d).document.includes = [] := bare
    refine ⟨_, before, [], [], if_pos bare, ?_⟩
    refine .of_walk ?_ (.nil _) ⟨_, .nil _⟩ (fun _ _ => rfl) (by simp)
    rw [nothing]
    exact .done
  · obtain ⟨result, after, made, left, run, survey⟩ :=
      exists_survey_resolve loader options (.start options d) before
    simp only [if_neg bare, run]
    cases result with
    | error r => exact ⟨_, after, made, left, rfl, survey.congr fun r => by simp⟩
    | ok found => exact ⟨_, after, made, left, rfl, survey.congr fun r => by simp⟩

/-- Resolving asks a loader for each directive within the limit, whatever it answers, and ends. -/
theorem compile_surveys (loader : Loader σ) (options : CompileOptions) :
    (∀ (v : Visit) (before : Trace σ), ∃ result after made left,
      (resolve loader options (levels options v.depth) v.document v.path v.chain).run.run before =
          (result, after) ∧
        Survey loader options v before after result made left) ∧
    ∀ (source : String) (before : Trace σ), ∃ result after,
      (compile loader options source).run.run before = (result, after) ∧
        (∀ d, options.read source = pure d → (Visit.start options d).chain.Nodup ∧
          ∃ made left, Survey loader options (.start options d) before after result made left) ∧
        ((∀ d, options.read source ≠ pure d) → after = before) := by
  refine ⟨exists_survey_resolve loader options, fun source before => ?_⟩
  by_cases whole : ∃ d, options.read source = pure d
  · obtain ⟨d, read⟩ := whole
    obtain ⟨result, after, made, left, run, survey⟩ := exists_survey_compile loader read before
    refine ⟨result, after, run, fun d' read' => ?_, fun none => absurd read (none d)⟩
    obtain rfl := Attempt.pure_inj.mp (read.symm.trans read')
    exact ⟨Visit.nodup_start options d, made, left, survey⟩
  · have none (d : Document) : options.read source ≠ pure d := fun read => whole ⟨d, read⟩
    rw [run_compile]
    rcases accepted : (options.read source).accepted with r | d | ⟨d, faults⟩
    · exact ⟨_, before, rfl, fun d read => absurd read (none d), fun _ => rfl⟩
    · exact absurd (Attempt.accepted_eq_inl_iff.mp accepted) (none d)
    · exact ⟨_, before, rfl, fun d read => absurd read (none d), fun _ => rfl⟩

/-- The files "f", "ff" and so on, each with two directives. -/
def freshFile (n : Nat) : LoadedFile :=
  let path := String.ofList (List.replicate (n + 1) 'f')
  ⟨s!"(wire (include \"x\") (include \"y\")) ; {path}", path⟩

/-- A loader that never gives the same file twice. -/
theorem compile_surveys_fresh : ∃ (loader : Loader Nat) (result : Except Rejection Compiled)
    (after : Trace Nat) (d : Document) (made left : List Request),
    (∀ path fromPath n, loader path fromPath n = (.ok (freshFile n), n + 1)) ∧
      (compile loader ⟨20, 1, false, "main"⟩ "(wire (include \"a\") (include \"b\"))").run.run
        ⟨0, []⟩ = (result, after) ∧
      Survey loader ⟨20, 1, false, "main"⟩ (.start ⟨20, 1, false, "main"⟩ d) ⟨0, []⟩ after result
        made left ∧
      made.map Request.call = [("a", "main"), ("x", "f"), ("y", "f"), ("b", "main"),
        ("x", "ffff"), ("y", "ffff")] ∧ left = [] := by
  let loader : Loader Nat := fun _ _ n => (.ok (freshFile n), n + 1)
  let options : CompileOptions := ⟨20, 1, false, "main"⟩
  let source := "(wire (include \"a\") (include \"b\"))"
  obtain ⟨accepts, calls, finishes⟩ : (options.read source).succeeds = true ∧
      ((compile loader options source).run.run ⟨0, []⟩).2.calls = [("a", "main"),
        ("x", "f"), ("y", "f"), ("b", "main"), ("x", "ffff"), ("y", "ffff")] ∧
      ((compile loader options source).run.run ⟨0, []⟩).1.toOption.isSome := by
    decide +kernel
  obtain ⟨d, read⟩ := Attempt.succeeds_iff.mp accepts
  obtain ⟨result, after, run, surveys, -⟩ := (compile_surveys loader options).2 source ⟨0, []⟩
  obtain ⟨-, made, left, survey⟩ := surveys d read
  rw [run, survey.asked.calls] at calls
  rw [run] at finishes
  refine ⟨loader, result, after, d, made, left, fun _ _ _ => rfl, run, survey, calls, ?_⟩
  cases result with
  | ok compiled => exact survey.whole compiled rfl
  | error r => cases finishes

/-- A document within the limit need not have all its directives asked for: a file that is refused
ends the run. -/
theorem unasked_behind_refused : ¬∀ (loader : Loader Unit) (options : CompileOptions)
    (source : String) (d : Document), 0 ≤ options.inclusion → options.read source = pure d →
      ∀ i ∈ d.includes, (i.path, options.path) ∈
        ((compile loader options source).run.run ⟨(), []⟩).2.calls := by
  intro always
  let loader : Loader Unit := fun _ _ _ => (.ok ⟨Document.endlessSource, "/a"⟩, ())
  let options : CompileOptions := ⟨20, 100, false, ""⟩
  let source := "(wire (include \"a\") (include \"b\"))"
  obtain ⟨accepts, paths⟩ : (options.read source).succeeds = true ∧
      (options.read source).value?.map (·.includes.map Include.path) = some ["a", "b"] := by
    decide +kernel
  obtain ⟨d, read⟩ := Attempt.succeeds_iff.mp accepts
  rw [read] at paths
  obtain ⟨i, rest, includes, path, others⟩ := List.map_eq_cons_iff.mp (Option.some.inj paths)
  have within : 0 ≤ options.inclusion := by decide
  have refused : (options.read Document.endlessSource).outcome =
      .refused (.infiniteCount false) := Document.refused_endless
  have reply : (loader i.path options.path ()).1 = .ok ⟨Document.endlessSource, "/a"⟩ := rfl
  have fresh : "/a" ≠ options.path := by decide
  obtain ⟨after, run, calls⟩ :=
    run_compile_of_refused ⟨(), []⟩ read within includes reply fresh refused
  obtain ⟨j, _, rfl, path', -⟩ := List.map_eq_cons_iff.mp others
  have asked := always loader options source d within read j (by simp [includes])
  rw [run, calls, path, path'] at asked
  have other : ("b", "") ∉ [("a", "")] := by decide
  exact other asked

end Inclusion
end Survey
end Wireframe
