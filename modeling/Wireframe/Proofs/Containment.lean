import Wireframe.Proofs.Asking
import Wireframe.Proofs.Cycles
import Wireframe.Proofs.Recovery
import Wireframe.Proofs.Refusal

/-!
# Trouble in included files

Whatever is wrong with an included file is an error of the document that was compiled, at the
directive that asks for the file, unless includes are nested too deeply.  The one exception is a
count without end in an included file, for which there is no result at all.
-/

namespace Wireframe

/-- Where the errors of a directive are. -/
def Include.position (i : Include) : Position :=
  (i.location.map Location.start).getD Position.first

/-- What is wrong with the file that a request loads. -/
inductive Request.Trouble (options : CompileOptions) (q : Request) : Diagnostic → Prop
  /-- There is no file. -/
  | unloadable {fault : LoadFault} (reply : q.reply = .error fault) :
      Trouble options q ⟨(IncludeCause.unloadable q.directive.path fault.message).message,
        q.directive.position⟩
  /-- The file is being included already. -/
  | circular {file : LoadedFile} (reply : q.reply = .ok file) (known : file.path ∈ q.visit.chain) :
      Trouble options q ⟨(IncludeCause.circular q.directive.path file.path).message,
        q.directive.position⟩
  /-- The file has faults, of which the first is told. -/
  | faulty {file : LoadedFile} {f : Fault} (reply : q.reply = .ok file)
      (fresh : file.path ∉ q.visit.chain)
      (first : f ∈ (options.read file.content).faults.head?) :
      Trouble options q ⟨(IncludeCause.faulty q.directive.path f.cause.message).message,
        q.directive.position⟩
  /-- The file includes others beyond the limit. -/
  | tooDeep {inner : Visit} (enters : q.inside? options = some inner)
      (directives : inner.document.includes ≠ []) (deep : options.inclusion < inner.depth) :
      Trouble options q ⟨(IncludeCause.tooDeep options.inclusion).message, Position.first⟩

variable {options : CompileOptions}

theorem Visit.mem_excess_iff {v : Visit} {e : Diagnostic} : e ∈ v.excess options ↔
    v.document.includes ≠ [] ∧ options.inclusion < v.depth ∧
      e = ⟨(IncludeCause.tooDeep options.inclusion).message, Position.first⟩ := by
  rw [excess]
  split
  · rename_i both
    simp [both]
  · rename_i neither
    simp only [List.not_mem_nil, false_iff]
    exact fun ⟨directives, deep, _⟩ => neither ⟨directives, deep⟩

theorem Attempt.exists_complaint {α : Type} {x : Attempt α} (settled : ∀ r, x.outcome ≠ .refused r)
    (unclean : x.clean? = none) : ∃ f ∈ x.faults.head?, x.complaint = f.cause.message := by
  have accepted := accepted_of_settled settled
  rw [unclean] at accepted
  obtain ⟨-, some⟩ := faults_of_accepted accepted
  obtain ⟨f, rest, faults⟩ := List.exists_cons_of_ne_nil some
  refine ⟨f, by rw [faults]; rfl, ?_⟩
  rw [complaint, faults]
  rfl

theorem Attempt.clean?_of_faults {α : Type} {x : Attempt α} {f : Fault}
    (first : f ∈ x.faults.head?) : x.clean? = none := by
  cases clean : x.clean? with
  | none => rfl
  | some a =>
      obtain rfl := clean?_eq_some_iff.mp clean
      cases first

namespace Request

variable {q : Request} {e : Diagnostic}

theorem mem_errors_of_trouble (trouble : q.Trouble options e) : e ∈ q.errors options := by
  cases trouble with
  | @unloadable fault reply =>
      have fails : q.loaded options = .error (.unloadable q.directive.path fault.message) := by
        rw [loaded, Include.loaded, reply]
      rw [errors_of_loaded fails]
      exact List.mem_singleton_self _
  | @circular file reply known =>
      have fails : q.loaded options = .error (.circular q.directive.path file.path) := by
        rw [loaded, Include.loaded, reply]
        exact if_pos known
      rw [errors_of_loaded fails]
      exact List.mem_singleton_self _
  | @faulty file f reply fresh first =>
      have complaint : (options.read file.content).complaint = f.cause.message := by
        rw [Attempt.complaint, first]
        rfl
      have fails : q.loaded options = .error (.faulty q.directive.path f.cause.message) := by
        rw [loaded, Include.loaded, reply]
        simp only [if_neg fresh, Attempt.clean?_of_faults first, complaint]
      rw [errors_of_loaded fails]
      exact List.mem_singleton_self _
  | tooDeep enters directives deep =>
      rw [errors_of_inside enters]
      exact Visit.mem_excess_iff.mpr ⟨directives, deep, rfl⟩

theorem trouble_of_mem_errors (settled : ∀ r, ¬q.Refused options r)
    (isError : e ∈ q.errors options) : q.Trouble options e := by
  cases loads : q.loaded options with
  | error cause =>
      rw [errors_of_loaded loads] at isError
      obtain rfl := List.mem_singleton.mp isError
      rcases Include.cause_of_loaded loads with
        ⟨fault, reply, rfl⟩ | ⟨content, path, reply, ⟨known, rfl⟩ | ⟨fresh, unclean, rfl⟩⟩
      · exact .unloadable reply
      · exact .circular reply known
      · have settles (r : Rejection) : (options.read content).outcome ≠ .refused r :=
          fun refused => settled r ⟨_, reply, fresh, refused⟩
        obtain ⟨f, first, complaint⟩ := Attempt.exists_complaint settles unclean
        rw [complaint]
        exact .faulty reply fresh first
  | ok found =>
      have enters : q.inside? options =
          some ⟨found.1, q.visit.depth + 1, found.2, q.visit.chain ++ [found.2]⟩ := by
        rw [inside?, loads]
      rw [errors_of_inside enters] at isError
      obtain ⟨directives, deep, rfl⟩ := Visit.mem_excess_iff.mp isError
      exact .tooDeep enters directives deep

theorem mem_errors_iff (settled : ∀ r, ¬q.Refused options r) :
    e ∈ q.errors options ↔ q.Trouble options e :=
  ⟨trouble_of_mem_errors settled, mem_errors_of_trouble⟩

/-- Whether no number behind a `count` keyword in the file is infinite. -/
def HasFiniteCounts (q : Request) : Prop :=
  ∀ file, q.reply = .ok file → ∀ tokens, Token.ofSource file.content = .ok tokens →
    Token.FiniteCounts tokens

theorem not_refused_of_hasFiniteCounts (counts : q.HasFiniteCounts) (r : Rejection) :
    ¬q.Refused options r := by
  rintro ⟨file, reply, -, refused⟩
  exact Document.not_refused_of_finiteCounts (counts file reply) options.nesting r refused

end Request

/-- What is wrong with included files, from a first document on. -/
def Troubles (options : CompileOptions) (v : Visit) (log : List Request) (e : Diagnostic) : Prop :=
  e ∈ v.excess options ∨ ∃ q ∈ log, q.Trouble options e

namespace Inclusion

variable {σ : Type}

/-- The errors of resolving are what is wrong with the files that were asked for. -/
theorem exists_troubles_resolve (loader : Loader σ) (options : CompileOptions) (v : Visit)
    (directives : v.document.includes ≠ []) (before : Trace σ) :
    ∃ result after made left, (v.resolve loader options).run.run before = (result, after) ∧
      Walk options v v.document.includes (made ++ left) ∧ Asked loader before made after ∧
        (∀ r, result = .error r → ∃ q ∈ made, q.Refused options r) ∧
          ∀ found, result = .ok found → ∀ e, e ∈ found.2 ↔ Troubles options v made e := by
  rcases run : (v.resolve loader options).run.run before with ⟨result, after⟩
  by_cases within : v.depth ≤ options.inclusion
  · have excess : v.excess options = [] := if_neg fun both => Int.not_lt.mpr within both.2
    have explores := explores_resolve loader v within run
    cases result with
    | error r =>
        cases explores with
        | @refused made left q _ _ last walk asked settled refused onward =>
            rw [List.append_cons] at walk
            refine ⟨_, after, made ++ [q], left, rfl, walk, asked, fun r' same => ?_, by simp⟩
            obtain rfl := Except.error.inj same
            exact ⟨q, by simp, refused⟩
    | ok found =>
        generalize told : (Except.ok found).map Prod.snd = errors at explores
        cases explores with
        | refused => cases told
        | @finished log _ walk asked settled =>
            rw [← List.append_nil log] at walk
            refine ⟨_, after, log, [], rfl, walk, asked, by simp, fun found' same e => ?_⟩
            obtain rfl := Except.ok.inj same
            have errors : found.2 = log.flatMap (Request.errors options) := Except.ok.inj told
            rw [errors, List.mem_flatMap, Troubles, excess]
            simp only [List.not_mem_nil, false_or]
            refine exists_congr fun q => and_congr_right fun member => ?_
            exact Request.mem_errors_iff (settled q member)
  · have deep := Int.not_le.mp within
    rw [Visit.resolve, levels_eq_zero_iff.mpr deep] at run
    obtain ⟨rfl, rfl⟩ := Prod.mk.inj run
    refine ⟨_, _, [], [], rfl, .beyond deep, .nil _, by simp, fun found same e => ?_⟩
    obtain rfl := Except.ok.inj same
    simp [Troubles, Visit.mem_excess_iff, directives, deep]

/-- What is told of a document that was read without a fault and whose includes were asked for. -/
structure Contains (loader : Loader σ) (options : CompileOptions) (v : Visit)
    (before after : Trace σ) (result : Except Rejection Compiled) (made left : List Request) :
    Prop where
  /-- The files are those that the directives ask for, depth first and in order. -/
  walk : Walk options v v.document.includes (made ++ left)
  /-- The loader was asked for those that were made. -/
  asked : Asked loader before made after
  /-- There is a result, unless a file has a count without end. -/
  settles : (∀ q ∈ made, q.HasFiniteCounts) → ∃ c, result = .ok c
  /-- The errors are whatever is wrong with the files. -/
  errors : ∀ c, result = .ok c → (∃ e, Troubles options v made e) →
    c.success = false ∧ c.warnings = [] ∧ ∀ e, e ∈ c.errors ↔ Troubles options v made e

theorem exists_contains (loader : Loader σ) {options : CompileOptions} {source : String}
    {d : Document} (read : options.read source = pure d) (before : Trace σ) :
    ∃ result after made left, (compile loader options source).run.run before = (result, after) ∧
      Contains loader options (.start options d) before after result made left := by
  rw [run_compile, Attempt.accepted_eq_inl_iff.mpr read]
  by_cases bare : d.includes = []
  · have nothing : (Visit.start options d).document.includes = [] := bare
    refine ⟨_, before, [], [], if_pos bare, nothing ▸ .done, .nil _, fun _ => ⟨_, rfl⟩, ?_⟩
    rintro c - ⟨e, excess | ⟨q, member, -⟩⟩
    · exact absurd nothing (Visit.mem_excess_iff.mp excess).1
    · cases member
  · obtain ⟨result, after, made, left, run, walk, asked, refused, errors⟩ :=
      exists_troubles_resolve loader options (.start options d) bare before
    simp only [if_neg bare, run]
    cases result with
    | error r =>
        refine ⟨_, after, made, left, rfl, walk, asked, fun counts => ?_, by simp⟩
        obtain ⟨q, member, refused⟩ := refused r rfl
        exact absurd refused (Request.not_refused_of_hasFiniteCounts (counts q member) r)
    | ok found =>
        refine ⟨_, after, made, left, rfl, walk, asked, fun _ => ⟨_, rfl⟩, ?_⟩
        rintro c same ⟨e, trouble⟩
        have some : found.2 ≠ [] := List.ne_nil_of_mem ((errors found rfl e).mpr trouble)
        obtain rfl := Except.ok.inj same
        rw [if_neg some]
        exact ⟨rfl, rfl, errors found rfl⟩

/-- Trouble in included files is told as errors, and only a count without end leaves no result. -/
theorem compile_contains (loader : Loader σ) {options : CompileOptions} {source : String}
    (settled : ∀ r, (options.read source).outcome ≠ .refused r) (before : Trace σ) :
    ∃ result after, (compile loader options source).run.run before = (result, after) ∧
      ((∀ d, options.read source ≠ pure d) → ∃ c, result = .ok c) ∧
      ∀ d, options.read source = pure d → ∃ made left,
        Contains loader options (.start options d) before after result made left := by
  by_cases whole : ∃ d, options.read source = pure d
  · obtain ⟨d, read⟩ := whole
    obtain ⟨result, after, made, left, run, contains'⟩ := exists_contains loader read before
    refine ⟨result, after, run, fun none => absurd read (none d), fun d' read' => ?_⟩
    obtain rfl := Attempt.pure_inj.mp (read.symm.trans read')
    exact ⟨made, left, contains'⟩
  · have none (d : Document) : options.read source ≠ pure d := fun read => whole ⟨d, read⟩
    rw [run_compile]
    rcases accepted : (options.read source).accepted with r | d | ⟨d, faults⟩
    · exact absurd (Attempt.accepted_eq_error_iff.mp accepted) (settled r)
    · exact absurd (Attempt.accepted_eq_inl_iff.mp accepted) (none d)
    · exact ⟨_, before, rfl, fun _ => ⟨_, rfl⟩, fun d read => absurd read (none d)⟩

/-- The files of a document that has every kind of trouble. -/
def troubledFiles : Library :=
  ⟨.ofList [("a", "(wire (define c () (box :x \"y))"), ("b", "(wire (include \"b\"))"),
    ("c", "(wire (include \"d\"))"), ("d", "(wire (include \"e\"))")], fun path _ => .ok path⟩

/-- One file is missing, one has a fault, one includes itself, and one is too deep. -/
theorem compile_contains_every : ∃ (source : String) (d : Document) (c : Compiled)
    (after : Trace Unit) (made left : List Request),
    (∀ r, ((⟨20, 1, false, "main"⟩ : CompileOptions).read source).outcome ≠ .refused r) ∧
      (compile (.ofFiles troubledFiles.files) ⟨20, 1, false, "main"⟩ source).run.run ⟨(), []⟩ =
        (.ok c, after) ∧
      Contains (.ofFiles troubledFiles.files) ⟨20, 1, false, "main"⟩
        (.start ⟨20, 1, false, "main"⟩ d) ⟨(), []⟩ after (.ok c) made left ∧
      c.errors = [⟨"Cannot resolve include 'gone': No such file: gone", ⟨1, 7⟩⟩,
        ⟨"Error in included file 'a': Unterminated string", ⟨1, 24⟩⟩,
        ⟨"Circular include detected: b (b)", ⟨1, 7⟩⟩,
        ⟨"Maximum include depth (1) exceeded", ⟨1, 1⟩⟩] := by
  let loader : Loader Unit := .ofFiles troubledFiles.files
  let options : CompileOptions := ⟨20, 1, false, "main"⟩
  let source :=
    "(wire (include \"gone\") (include \"a\") (include \"b\") (include \"c\"))"
  obtain ⟨accepts, told⟩ : (options.read source).succeeds = true ∧
      ((compile loader options source).run.run ⟨(), []⟩).1.toOption.map Compiled.errors =
        some [⟨"Cannot resolve include 'gone': No such file: gone", ⟨1, 7⟩⟩,
          ⟨"Error in included file 'a': Unterminated string", ⟨1, 24⟩⟩,
          ⟨"Circular include detected: b (b)", ⟨1, 7⟩⟩,
          ⟨"Maximum include depth (1) exceeded", ⟨1, 1⟩⟩] := by
    decide +kernel
  obtain ⟨d, read⟩ := Attempt.succeeds_iff.mp accepts
  have settled (r : Rejection) : (options.read source).outcome ≠ .refused r := by simp [read]
  obtain ⟨result, after, run, -, all⟩ := compile_contains loader settled ⟨(), []⟩
  obtain ⟨made, left, contains'⟩ := all d read
  rw [run] at told
  cases result with
  | error r => cases told
  | ok c =>
      exact ⟨source, d, c, after, made, left, settled, run, contains', Option.some.inj told⟩

/-- Compiling does not always give a result: an included file may have a count without end. -/
theorem compile_endless : ¬∀ (loader : Loader Unit) (options : CompileOptions) (source : String)
    (before : Trace Unit), (∀ r, (options.read source).outcome ≠ .refused r) →
      ∃ c, ((compile loader options source).run.run before).1 = .ok c := by
  intro always
  let loader : Loader Unit := fun _ _ _ => (.ok ⟨Document.endlessSource, "/a"⟩, ())
  let options : CompileOptions := ⟨20, 100, false, ""⟩
  let source := "(wire (include \"a\"))"
  obtain ⟨accepts, includes⟩ : (options.read source).succeeds = true ∧
      (options.read source).value?.map (·.includes.isEmpty) = some false := by
    decide +kernel
  obtain ⟨d, read⟩ := Attempt.succeeds_iff.mp accepts
  rw [read] at includes
  have directives : d.includes ≠ [] := by
    intro none
    rw [Attempt.value?, Attempt.outcome_pure] at includes
    simp [none] at includes
  obtain ⟨i, rest, first⟩ := List.exists_cons_of_ne_nil directives
  have refused : (options.read Document.endlessSource).outcome =
      .refused (.infiniteCount false) := Document.refused_endless
  have reply : (loader i.path options.path ()).1 = .ok ⟨Document.endlessSource, "/a"⟩ := rfl
  have fresh : "/a" ≠ options.path := by decide
  obtain ⟨after, run, -⟩ :=
    run_compile_of_refused ⟨(), []⟩ read (by decide) first reply fresh refused
  obtain ⟨c, finished⟩ :=
    always loader options source ⟨(), []⟩ fun r => by simp [read]
  rw [run] at finished
  cases finished

end Inclusion

end Wireframe
