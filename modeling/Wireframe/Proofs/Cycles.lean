import Wireframe.Proofs.Inclusions
import Mathlib.Data.List.Nodup
import Mathlib.Logic.Relation

/-!
# Cycles of includes

Only the files that led to a document are kept in mind while its includes are resolved, and a file
may be included again and again.  Still the errors tell exactly whether the graph of files that can
be reached is whole and without a cycle: every path through it is followed until it comes back to a
file on it.
-/

namespace Wireframe

open Relation (ReflTransGen TransGen)

section Fails

variable (files : Files) (options : CompileOptions)

/-- A directive of a document, or of a document that one of its directives loads, is not carried
out. -/
inductive Fails : Document → (fromPath : String) → (chain : List String) → IncludeCause → Prop
  /-- A directive of the document itself. -/
  | here {d : Document} {fromPath : String} {chain : List String} {i : Include}
      {cause : IncludeCause} (member : i ∈ d.includes)
      (failed : i.loaded files options fromPath chain = .error cause) :
      Fails d fromPath chain cause
  /-- A directive of a document that is loaded. -/
  | inside {d inner : Document} {fromPath path : String} {chain : List String} {i : Include}
      {cause : IncludeCause} (member : i ∈ d.includes)
      (loads : i.loaded files options fromPath chain = .ok (inner, path))
      (below : Fails inner path (chain ++ [path]) cause) :
      Fails d fromPath chain cause

end Fails

variable {files : Files} {options : CompileOptions}

/-- Why a directive fails by itself: its file cannot be loaded, is being included already, or has
faults. -/
theorem Include.cause_of_loaded {fromPath : String} {chain : List String} {i : Include}
    {cause : IncludeCause} (failed : i.loaded files options fromPath chain = .error cause) :
    (∃ fault, files i.path fromPath = .error fault ∧ cause = .unloadable i.path fault.message) ∨
      ∃ content path, files i.path fromPath = .ok ⟨content, path⟩ ∧
        (path ∈ chain ∧ cause = .circular i.path path ∨
          path ∉ chain ∧ (options.read content).clean? = none ∧
            cause = .faulty i.path (options.read content).complaint) := by
  rw [loaded] at failed
  cases reply : files i.path fromPath with
  | error fault =>
      rw [reply] at failed
      exact .inl ⟨fault, rfl, (Except.error.inj failed).symm⟩
  | ok file =>
      obtain ⟨content, path⟩ := file
      rw [reply] at failed
      refine .inr ⟨content, path, rfl, ?_⟩
      by_cases known : path ∈ chain
      · simp only [if_pos known] at failed
        exact .inl ⟨known, (Except.error.inj failed).symm⟩
      · simp only [if_neg known] at failed
        cases clean : (options.read content).clean? with
        | none =>
            rw [clean] at failed
            exact .inr ⟨known, rfl, (Except.error.inj failed).symm⟩
        | some d =>
            rw [clean] at failed
            cases failed

namespace IncludeCause

/-- The letter that the message of a cause begins with. -/
def initial : IncludeCause → Char
  | unloadable _ _ | circular _ _ => 'C'
  | faulty _ _ => 'E'
  | tooDeep _ => 'M'

private theorem head?_append {s t : String} {c : Char} (head : s.toList.head? = some c) :
    (s ++ t).toList.head? = some c := by
  rw [String.toList_append, List.head?_append, head, Option.some_or]

theorem head?_message (cause : IncludeCause) : cause.message.toList.head? = some cause.initial := by
  cases cause with
  | unloadable _ _ =>
      exact head?_append (head?_append (head?_append (by rw [initial]; decide)))
  | circular _ _ =>
      exact head?_append (head?_append (head?_append (head?_append (by rw [initial]; decide))))
  | faulty _ _ => exact head?_append (head?_append (head?_append (by rw [initial]; decide)))
  | tooDeep _ => exact head?_append (head?_append (by rw [initial]; decide))

theorem message_ne_tooDeep {cause : IncludeCause} (other : cause.initial ≠ 'M') (limit : Int) :
    cause.message ≠ (tooDeep limit).message := by
  intro same
  have initials := head?_message cause
  rw [same, head?_message] at initials
  exact other (Option.some.inj initials).symm

end IncludeCause

theorem Fails.initial_ne {d : Document} {fromPath : String} {chain : List String}
    {cause : IncludeCause} (fails : Fails files options d fromPath chain cause) :
    cause.initial ≠ 'M' := by
  induction fails with
  | here member failed =>
      rcases Include.cause_of_loaded failed with ⟨_, -, rfl⟩ | ⟨_, _, -, ⟨-, rfl⟩ | ⟨-, -, rfl⟩⟩ <;>
        simp [IncludeCause.initial]
  | inside member loads below ih => exact ih

/-- Whether the levels that are left suffice for every way to lengthen a chain by known paths. -/
structure HasRoom (paths : List String) (levels : Nat) (chain : List String) : Prop where
  distinct : chain.Nodup
  known : chain ⊆ paths
  enough : paths.length < levels + chain.length

namespace HasRoom

variable {paths chain : List String} {levels : Nat} {path : String}

theorem levels_pos (room : HasRoom paths levels chain) : levels ≠ 0 := by
  rintro rfl
  have := room.distinct.length_le_of_subset room.known
  have := room.enough
  omega

theorem step (room : HasRoom paths (levels + 1) chain) (fresh : path ∉ chain)
    (known : path ∈ paths) : HasRoom paths levels (chain ++ [path]) where
  distinct := by
    rw [← List.concat_eq_append]
    exact room.distinct.concat fresh
  known := by
    intro p member
    rcases List.mem_append.mp member with before | last
    · exact room.known before
    · exact List.mem_singleton.mp last ▸ known
  enough := by
    have := room.enough
    rw [List.length_append, List.length_singleton]
    omega

end HasRoom

theorem Inclusion.mem_report_iff {paths : List String}
    (within : ∀ path fromPath file, files path fromPath = .ok file → file.path ∈ paths)
    {levels : Nat} {chain : List String} (room : HasRoom paths levels chain) (d : Document)
    (fromPath message : String) :
    (∃ e ∈ report files options levels d fromPath chain, e.message = message) ↔
      ∃ cause, Fails files options d fromPath chain cause ∧ cause.message = message := by
  induction levels generalizing d fromPath chain with
  | zero => exact absurd rfl room.levels_pos
  | succ levels ih =>
      have onward {i : Include} {inner : Document} {path : String}
          (loads : i.loaded files options fromPath chain = .ok (inner, path)) :
          HasRoom paths levels (chain ++ [path]) := by
        obtain ⟨content, reply, fresh, -⟩ := Include.loaded_eq_ok_iff.mp loads
        exact room.step fresh (within _ _ _ reply)
      simp only [report, List.mem_flatMap]
      constructor
      · rintro ⟨e, ⟨i, member, isError⟩, rfl⟩
        rw [Include.errors] at isError
        cases loads : i.loaded files options fromPath chain with
        | error cause =>
            rw [loads] at isError
            obtain rfl := List.mem_singleton.mp isError
            exact ⟨cause, .here member loads, rfl⟩
        | ok loaded =>
            obtain ⟨inner, path⟩ := loaded
            rw [loads] at isError
            obtain ⟨cause, below, same⟩ := (ih (onward loads) inner path).mp ⟨e, isError, rfl⟩
            exact ⟨cause, .inside member loads below, same⟩
      · rintro ⟨cause, fails, rfl⟩
        cases fails with
        | @here _ _ _ i _ member failed =>
            refine ⟨⟨cause.message, (i.location.map Location.start).getD Position.first⟩,
              ⟨i, member, ?_⟩, rfl⟩
            rw [Include.errors, failed]
            exact List.mem_singleton_self _
        | @inside _ inner _ path _ i _ member loads below =>
            obtain ⟨e, isError, same⟩ := (ih (onward loads) inner path).mpr ⟨cause, below, rfl⟩
            refine ⟨e, ⟨i, member, ?_⟩, same⟩
            rw [Include.errors, loads]
            exact isError

namespace Library

section Graph

variable (l : Library) (options : CompileOptions) (entry : Document)

/-- The document at a path: the one that resolving starts from, or else what the content there is
read as without a fault. -/
def document? (path : String) : Option Document :=
  if path = options.path then some entry
  else (l.contents.find? path).bind fun content => (options.read content).clean?

/-- Whether a directive of the document at a path leads to the file at another. -/
def Includes (path next : String) : Prop :=
  ∃ d, l.document? options entry path = some d ∧
    ∃ i ∈ d.includes, ∃ content, l.files i.path path = .ok ⟨content, next⟩

/-- Whether directives lead from the document that resolving starts from to a path. -/
def Reaches (path : String) : Prop :=
  ReflTransGen (l.Includes options entry) options.path path

/-- Whether every directive that can be reached leads to a file. -/
def Loads : Prop :=
  ∀ path d, l.Reaches options entry path → l.document? options entry path = some d →
    ∀ i ∈ d.includes, ∃ file, l.files i.path path = .ok file

/-- Whether every file that can be reached is read without a fault. -/
def Reads : Prop :=
  ∀ path, l.Reaches options entry path → ∃ d, l.document? options entry path = some d

/-- Whether no file that can be reached includes itself, directly or through others. -/
def Acyclic : Prop :=
  ∀ path, l.Reaches options entry path → ¬TransGen (l.Includes options entry) path path

/-- Whether a chain of files led from the start to a document. -/
structure Trail (d : Document) (fromPath : String) (chain : List String) : Prop where
  isDocument : l.document? options entry fromPath = some d
  starts : options.path ∈ chain
  ends : fromPath ∈ chain
  leads : ∀ path ∈ chain, ReflTransGen (l.Includes options entry) path fromPath

end Graph

variable {l : Library} {entry d : Document} {fromPath : String} {chain : List String}

theorem includes_of_files (isDocument : l.document? options entry fromPath = some d) {i : Include}
    (member : i ∈ d.includes) {content path : String}
    (reply : l.files i.path fromPath = .ok ⟨content, path⟩) :
    l.Includes options entry fromPath path :=
  ⟨d, isDocument, i, member, content, reply⟩

theorem document?_of_ne {path : String} (other : path ≠ options.path) {content : String}
    (known : l.contents.find? path = some content) :
    l.document? options entry path = (options.read content).clean? := by
  rw [document?, if_neg other, known, Option.bind_some]

namespace Trail

theorem start : Trail l options entry entry options.path [options.path] where
  isDocument := if_pos rfl
  starts := List.mem_singleton_self _
  ends := List.mem_singleton_self _
  leads _ member := List.mem_singleton.mp member ▸ .refl

theorem reaches (trail : Trail l options entry d fromPath chain) :
    l.Reaches options entry fromPath :=
  trail.leads _ trail.starts

theorem step (trail : Trail l options entry d fromPath chain) {i : Include}
    (member : i ∈ d.includes) {inner : Document} {path : String}
    (loads : i.loaded l.files options fromPath chain = .ok (inner, path)) :
    Trail l options entry inner path (chain ++ [path]) := by
  obtain ⟨content, reply, fresh, read⟩ := Include.loaded_eq_ok_iff.mp loads
  have next := includes_of_files trail.isDocument member reply
  have other : path ≠ options.path := fun same => fresh (same ▸ trail.starts)
  refine ⟨?_, List.mem_append_left _ trail.starts, by simp, fun p known => ?_⟩
  · rw [document?_of_ne other (files_eq_ok_iff.mp reply).2]
    exact Attempt.clean?_eq_some_iff.mpr read
  · rcases List.mem_append.mp known with before | last
    · exact (trail.leads p before).tail next
    · rw [List.mem_singleton.mp last]

/-- A failing directive tells of a file that cannot be loaded or read, or else of a cycle. -/
theorem of_fails (trail : Trail l options entry d fromPath chain) {cause : IncludeCause}
    (fails : Fails l.files options d fromPath chain cause) :
    ¬l.Loads options entry ∨ ¬l.Reads options entry ∨
      ¬l.Acyclic options entry ∧ ∃ path resolved, cause = .circular path resolved := by
  induction fails with
  | @here d fromPath chain i cause member failed =>
      rcases Include.cause_of_loaded failed with
        ⟨fault, reply, -⟩ | ⟨content, path, reply, ⟨known, same⟩ | ⟨fresh, unclean, -⟩⟩
      · refine .inl fun loads => ?_
        obtain ⟨file, loaded⟩ := loads fromPath d trail.reaches trail.isDocument i member
        rw [reply] at loaded
        cases loaded
      · have next := includes_of_files trail.isDocument member reply
        refine .inr (.inr ⟨fun acyclic => ?_, i.path, path, same⟩)
        exact acyclic fromPath trail.reaches (.head' next (trail.leads path known))
      · have next := includes_of_files trail.isDocument member reply
        have other : path ≠ options.path := fun same => fresh (same ▸ trail.starts)
        refine .inr (.inl fun reads => ?_)
        obtain ⟨inner, isDocument⟩ := reads path (trail.reaches.tail next)
        rw [document?_of_ne other (files_eq_ok_iff.mp reply).2, unclean] at isDocument
        cases isDocument
  | inside member loads below ih => exact ih (trail.step member loads)

theorem step_of_includes (trail : Trail l options entry d fromPath chain)
    (quiet : ∀ cause, ¬Fails l.files options d fromPath chain cause) {path : String}
    (next : l.Includes options entry fromPath path) :
    path ∉ chain ∧ ∃ inner, Trail l options entry inner path (chain ++ [path]) ∧
      ∀ cause, ¬Fails l.files options inner path (chain ++ [path]) cause := by
  obtain ⟨d', isDocument, i, member, content, reply⟩ := next
  obtain rfl := Option.some.inj (trail.isDocument.symm.trans isDocument)
  cases loads : i.loaded l.files options fromPath chain with
  | error cause => exact absurd (.here member loads) (quiet cause)
  | ok loaded =>
      obtain ⟨inner, path'⟩ := loaded
      obtain ⟨content', reply', fresh, -⟩ := Include.loaded_eq_ok_iff.mp loads
      obtain ⟨rfl, rfl⟩ := LoadedFile.mk.inj (Except.ok.inj (reply.symm.trans reply'))
      exact ⟨fresh, inner, trail.step member loads,
        fun cause below => quiet cause (.inside member loads below)⟩

/-- Without a failing directive, no path comes back to the trail. -/
theorem notMem_of_transGen (trail : Trail l options entry d fromPath chain)
    (quiet : ∀ cause, ¬Fails l.files options d fromPath chain cause) {path : String}
    (onward : TransGen (l.Includes options entry) fromPath path) : path ∉ chain := by
  induction onward using TransGen.head_induction_on generalizing d chain with
  | single next => exact (trail.step_of_includes quiet next).1
  | head next _ ih =>
      obtain ⟨-, inner, trail', quiet'⟩ := trail.step_of_includes quiet next
      exact fun known => ih trail' quiet' (List.mem_append_left _ known)

/-- Without a failing directive, every file ahead is read, has directives that lead to files, and
does not include itself. -/
theorem whole_of_quiet (trail : Trail l options entry d fromPath chain)
    (quiet : ∀ cause, ¬Fails l.files options d fromPath chain cause) {path : String}
    (ahead : ReflTransGen (l.Includes options entry) fromPath path) :
    (∃ d, l.document? options entry path = some d ∧
        ∀ i ∈ d.includes, ∃ file, l.files i.path path = .ok file) ∧
      ¬TransGen (l.Includes options entry) path path := by
  induction ahead using ReflTransGen.head_induction_on generalizing d chain with
  | refl =>
      refine ⟨⟨d, trail.isDocument, fun i member => ?_⟩, fun cycle => ?_⟩
      · cases loads : i.loaded l.files options path chain with
        | error cause => exact absurd (.here member loads) (quiet cause)
        | ok loaded =>
            obtain ⟨content, reply, -⟩ := Include.loaded_eq_ok_iff.mp loads
            exact ⟨_, reply⟩
      · exact trail.notMem_of_transGen quiet cycle trail.ends
  | head next _ ih =>
      obtain ⟨-, inner, trail', quiet'⟩ := trail.step_of_includes quiet next
      exact ih trail' quiet'

end Trail

/-- Without a failing directive from the start on, the graph is whole and without a cycle. -/
theorem whole_of_quiet
    (quiet : ∀ cause, ¬Fails l.files options entry options.path [options.path] cause) :
    l.Loads options entry ∧ l.Reads options entry ∧ l.Acyclic options entry := by
  refine ⟨fun path d reaches isDocument => ?_, fun path reaches => ?_, fun path reaches => ?_⟩
  · obtain ⟨⟨d', isDocument', loads⟩, -⟩ := Trail.start.whole_of_quiet quiet reaches
    obtain rfl := Option.some.inj (isDocument.symm.trans isDocument')
    exact loads
  · obtain ⟨⟨d, isDocument, -⟩, -⟩ := Trail.start.whole_of_quiet quiet reaches
    exact ⟨d, isDocument⟩
  · exact (Trail.start.whole_of_quiet quiet reaches).2

theorem mem_keys_of_files {path fromPath : String} {file : LoadedFile}
    (reply : l.files path fromPath = .ok file) : file.path ∈ l.contents.keys := by
  obtain ⟨content, found⟩ := file
  have there := (files_eq_ok_iff.mp reply).2
  exact List.mem_map_of_mem ((Table.find?_eq_some_iff _ _ _).mp there)

theorem hasRoom_start (fits : (l.contents.values.length : Int) ≤ options.inclusion) :
    HasRoom (options.path :: l.contents.keys) (Inclusion.levels options 0) [options.path] where
  distinct := List.nodup_singleton _
  known := by simp
  enough := by
    rw [Table.values, List.length_map] at fits
    rw [List.length_cons, List.length_singleton, Table.keys, List.length_map, Inclusion.levels]
    omega

end Library

/-- What errors tell about the graph of files. -/
structure Library.Diagnoses (l : Library) (options : CompileOptions) (entry : Document)
    (errors : List Diagnostic) : Prop where
  /-- There is no error exactly if the graph is whole and without a cycle. -/
  none_iff : errors = [] ↔
    l.Loads options entry ∧ l.Reads options entry ∧ l.Acyclic options entry
  /-- The limit to the nesting of includes is never the reason. -/
  within : ∀ e ∈ errors, ∀ limit, e.message ≠ (IncludeCause.tooDeep limit).message
  /-- In a graph that is whole a cycle is told of. -/
  circular : l.Loads options entry → l.Reads options entry → ¬l.Acyclic options entry →
    ∃ e ∈ errors, ∃ path resolved, e.message = (IncludeCause.circular path resolved).message

theorem Library.Diagnoses.of_fails {l : Library} {entry : Document} {errors : List Diagnostic}
    (messages : ∀ message, (∃ e ∈ errors, e.message = message) ↔
      ∃ cause, Fails l.files options entry options.path [options.path] cause ∧
        cause.message = message) : l.Diagnoses options entry errors := by
  have start : l.Trail options entry entry options.path [options.path] := .start
  have quiet_iff : errors = [] ↔
      ∀ cause, ¬Fails l.files options entry options.path [options.path] cause := by
    constructor
    · rintro rfl cause fails
      obtain ⟨e, isError, -⟩ := (messages cause.message).mpr ⟨cause, fails, rfl⟩
      cases isError
    · intro quiet
      refine List.eq_nil_iff_forall_not_mem.mpr fun e isError => ?_
      obtain ⟨cause, fails, -⟩ := (messages e.message).mp ⟨e, isError, rfl⟩
      exact quiet cause fails
  refine ⟨⟨fun none => whole_of_quiet (quiet_iff.mp none), ?_⟩, ?_, ?_⟩
  · rintro ⟨loads, reads, acyclic⟩
    refine quiet_iff.mpr fun cause fails => ?_
    rcases start.of_fails fails with bad | bad | ⟨bad, -⟩
    · exact bad loads
    · exact bad reads
    · exact bad acyclic
  · intro e isError limit
    obtain ⟨cause, fails, same⟩ := (messages e.message).mp ⟨e, isError, rfl⟩
    exact same ▸ IncludeCause.message_ne_tooDeep fails.initial_ne limit
  · intro loads reads cyclic
    by_contra none
    refine cyclic (whole_of_quiet fun cause fails => none ?_).2.2
    rcases start.of_fails fails with bad | bad | ⟨-, path, resolved, rfl⟩
    · exact absurd loads bad
    · exact absurd reads bad
    · obtain ⟨e, isError, same⟩ := (messages _).mpr ⟨_, fails, rfl⟩
      exact ⟨e, isError, path, resolved, same⟩

namespace Inclusion

variable {σ : Type} {loader : Loader σ} {l : Library}

/-- Resolving finds cycles exactly, from a document with a path and with a limit of at least the
number of contents. -/
theorem resolve_diagnoses (answers : loader.Answers l.files)
    (settled : ∀ content ∈ l.contents.values, ∀ r, (options.read content).outcome ≠ .refused r)
    (named : options.path ≠ "") (fits : (l.contents.values.length : Int) ≤ options.inclusion)
    (entry : Document) (trace : Trace σ) :
    ∃ merged errors, ((resolve loader options (levels options 0) entry options.path
          (if options.path = "" then [] else [options.path])).run.run trace).1 =
        .ok (merged, errors) ∧ l.Diagnoses options entry errors := by
  have within (path fromPath : String) (file : LoadedFile)
      (reply : l.files path fromPath = .ok file) :
      file.path ∈ options.path :: l.contents.keys :=
    List.mem_cons_of_mem _ (Library.mem_keys_of_files reply)
  obtain ⟨below, isLevels⟩ : ∃ below, levels options 0 = below + 1 :=
    Nat.exists_eq_succ_of_ne_zero (by rw [levels]; omega)
  have room := Library.hasRoom_start fits
  rw [isLevels] at room
  rw [if_neg named, isLevels]
  refine ⟨_, _, gives_resolve answers (Library.readable settled) below entry options.path
    [options.path] trace, .of_fails fun message => ?_⟩
  exact mem_report_iff within room entry options.path message

/-- Two files include a third one, which includes one of them. -/
theorem resolve_diagnoses_shared : ∃ (l : Library) (entry merged : Document)
    (errors : List Diagnostic),
    ((resolve (.ofFiles l.files) ⟨20, 3, false, "main"⟩ (levels ⟨20, 3, false, "main"⟩ 0) entry
        "main" ["main"]).run.run ⟨(), []⟩).1 = .ok (merged, errors) ∧
      errors.map Diagnostic.message =
        ["Circular include detected: c (c)", "Circular include detected: b (b)"] ∧
      ¬(l.Loads ⟨20, 3, false, "main"⟩ entry ∧ l.Reads ⟨20, 3, false, "main"⟩ entry ∧
        l.Acyclic ⟨20, 3, false, "main"⟩ entry) := by
  let l : Library := ⟨.ofList [("a", "(wire (include \"c\"))"), ("b", "(wire (include \"c\"))"),
    ("c", "(wire (include \"b\"))")], fun path _ => .ok path⟩
  let options : CompileOptions := ⟨20, 3, false, "main"⟩
  let entry : Document := { Document.empty with includes := [⟨"a", none⟩, ⟨"b", none⟩] }
  have reads : ∀ content ∈ l.contents.values, (options.read content).value?.isSome := by
    decide +kernel
  have named : options.path ≠ "" := by decide
  have fits : (l.contents.values.length : Int) ≤ options.inclusion := by decide
  obtain ⟨merged, errors, gives, diagnoses⟩ :=
    resolve_diagnoses (Loader.answers_ofFiles l.files)
      (fun content member => Attempt.settled_of_isSome (reads content member)) named fits entry
      ⟨(), []⟩
  have messages : (((resolve (.ofFiles l.files) options (levels options 0) entry "main"
      ["main"]).run.run ⟨(), []⟩).1.toOption.map fun result => result.2.map Diagnostic.message) =
        some ["Circular include detected: c (c)", "Circular include detected: b (b)"] := by
    decide +kernel
  rw [if_neg named] at gives
  have found := (congrArg (fun result => result.toOption.map fun result =>
    result.2.map Diagnostic.message) gives).symm.trans messages
  have told := Option.some.inj found
  refine ⟨l, entry, merged, errors, gives, told, fun whole => ?_⟩
  rw [diagnoses.none_iff.mpr whole] at told
  cases told

end Inclusion
end Wireframe
