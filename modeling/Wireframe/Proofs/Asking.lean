import Wireframe.Proofs.Walk

/-!
# Asking a loader

Resolving includes walks through them: the loader is asked for the directives of every document
within the limit, depth first and each with the path of its document.  Only a file that is refused
ends the walk early.
-/

namespace Wireframe

section Calls

variable {σ : Type}

/-- What a loader is asked, if that is what happens. -/
def Event.call? : Event → Option (String × String)
  | .requested path fromPath => some (path, fromPath)
  | _ => none

/-- What a loader was asked so far, in order. -/
def Trace.calls (trace : Trace σ) : List (String × String) :=
  trace.events.filterMap Event.call?

/-- Whether a loader was asked just what requests say between two traces. -/
structure Asked (loader : Loader σ) (before : Trace σ) (log : List Request) (after : Trace σ) :
    Prop where
  /-- The answers are those of the loader. -/
  serves : loader.Serves before.store log after.store
  /-- The loader is asked once for each request, in order. -/
  calls : after.calls = before.calls ++ log.map Request.call

variable {loader : Loader σ} {before between after : Trace σ}

theorem Asked.nil (before : Trace σ) : Asked loader before [] before :=
  ⟨.nil _, (List.append_nil _).symm⟩

theorem Asked.append {front back : List Request} (first : Asked loader before front between)
    (second : Asked loader between back after) : Asked loader before (front ++ back) after where
  serves := first.serves.append second.serves
  calls := by rw [second.calls, first.calls, List.map_append, List.append_assoc]

theorem Asked.cons {q : Request} {rest : List Request} (first : Asked loader before [q] between)
    (second : Asked loader between rest after) : Asked loader before (q :: rest) after :=
  first.append second

theorem Asked.answer {q : Request} (asked : Asked loader before [q] after) :
    loader q.directive.path q.visit.path before.store = (q.reply, after.store) := by
  cases asked.serves with
  | cons answer onward =>
      cases onward
      exact answer

theorem Asked.emit {log : List Request} (asked : Asked loader before log after) {event : Event}
    (other : event.call? = none) :
    Asked loader before log { after with events := after.events ++ [event] } where
  serves := asked.serves
  calls := by
    rw [← asked.calls, Trace.calls, Trace.calls, List.filterMap_append]
    simp [other]

end Calls

/-- The error of a document with directives beyond the limit. -/
def Visit.excess (options : CompileOptions) (v : Visit) : List Diagnostic :=
  if v.document.includes ≠ [] ∧ options.inclusion < v.depth then
    [⟨(IncludeCause.tooDeep options.inclusion).message, Position.first⟩]
  else []

/-- The errors that a request leads to by itself. -/
def Request.errors (options : CompileOptions) (q : Request) : List Diagnostic :=
  match q.loaded options with
  | .error cause => (Harvest.failed q.directive cause).errors
  | .ok (d, path) => Visit.excess options ⟨d, q.visit.depth + 1, path, q.visit.chain ++ [path]⟩

theorem Request.errors_of_loaded {options : CompileOptions} {q : Request} {cause : IncludeCause}
    (fails : q.loaded options = .error cause) :
    q.errors options = (Harvest.failed q.directive cause).errors := by
  rw [errors, fails]

theorem Request.errors_of_inside {options : CompileOptions} {q : Request} {inner : Visit}
    (enters : q.inside? options = some inner) : q.errors options = inner.excess options := by
  rw [inside?] at enters
  split at enters
  · rename_i d path loads
    obtain rfl := Option.some.inj enters
    rw [errors, loads]
  · cases enters

section Runs

variable {σ : Type} {loader : Loader σ} {options : CompileOptions} {v inner : Visit}
  {is : List Include} {before between between' after : Trace σ} {r : Rejection}

/-- What comes of the directives of a document, with what the loader was asked meanwhile. -/
inductive Explores (loader : Loader σ) (options : CompileOptions) (v : Visit) (is : List Include)
    (before : Trace σ) : Except Rejection (List Diagnostic) → Trace σ → Prop
  /-- The whole walk, with the errors of its requests. -/
  | finished {log : List Request} {after : Trace σ} (walk : Walk options v is log)
      (asked : Asked loader before log after) (settled : ∀ q ∈ log, ∀ r, ¬q.Refused options r) :
      Explores loader options v is before (.ok (log.flatMap (Request.errors options))) after
  /-- The walk up to the first file that is refused. -/
  | refused {made left : List Request} {q : Request} {r : Rejection} {after : Trace σ} {last : σ}
      (walk : Walk options v is (made ++ q :: left))
      (asked : Asked loader before (made ++ [q]) after)
      (settled : ∀ p ∈ made, ∀ r, ¬p.Refused options r) (refused : q.Refused options r)
      (onward : loader.Serves after.store left last) :
      Explores loader options v is before (.error r) after

namespace Explores

variable {i : Include} {reply : Reply} {result : Except Rejection (List Diagnostic)}

theorem nil : Explores loader options v [] before (.ok []) before :=
  .finished .done (.nil before) (by simp)

/-- A directive that loads no document. -/
theorem shut (asked : Asked loader before [⟨v, i, reply⟩] between)
    (within : v.depth ≤ options.inclusion)
    (fails : Request.inside? options ⟨v, i, reply⟩ = none)
    (settled : ∀ r, ¬Request.Refused options ⟨v, i, reply⟩ r)
    (rest : Explores loader options v is between result after) :
    Explores loader options v (i :: is) before
      (result.map (Request.errors options ⟨v, i, reply⟩ ++ ·)) after := by
  cases rest with
  | finished walk asked' settled' =>
      have allSettled := List.forall_mem_cons.mpr ⟨settled, settled'⟩
      exact .finished (.shut within fails walk) (asked.cons asked') allSettled
  | refused walk asked' settled' refused onward =>
      have allSettled := List.forall_mem_cons.mpr ⟨settled, settled'⟩
      exact .refused (.shut within fails walk) (asked.cons asked') allSettled refused onward

/-- A directive that loads a document in which no file is refused. -/
theorem enter {inside : List Diagnostic} (asked : Asked loader before [⟨v, i, reply⟩] between)
    (within : v.depth ≤ options.inclusion)
    (enters : Request.inside? options ⟨v, i, reply⟩ = some inner)
    (below : Explores loader options inner inner.document.includes between (.ok inside) between')
    (rest : Explores loader options v is between' result after) :
    Explores loader options v (i :: is) before
      (result.map fun later => Request.errors options ⟨v, i, reply⟩ ++ (inside ++ later))
      after := by
  have settled := Request.not_refused_of_inside enters
  obtain ⟨walkBelow, askedBelow, settledBelow⟩ := below
  cases rest with
  | finished walk asked' settled' =>
      have allSettled := List.forall_mem_cons.mpr
        ⟨settled, List.forall_mem_append.mpr ⟨settledBelow, settled'⟩⟩
      rw [Except.map, ← List.flatMap_append, ← List.flatMap_cons]
      exact .finished (.enter within enters walkBelow walk)
        (asked.cons (askedBelow.append asked')) allSettled
  | refused walk asked' settled' refused onward =>
      have allSettled := List.forall_mem_cons.mpr
        ⟨settled, List.forall_mem_append.mpr ⟨settledBelow, settled'⟩⟩
      have walk' := Walk.enter within enters walkBelow walk
      have asked'' := asked.cons (askedBelow.append asked')
      rw [← List.append_assoc, ← List.cons_append] at walk' asked''
      exact .refused walk' asked'' allSettled refused onward

/-- A directive that loads a file that is refused. -/
theorem refuse (asked : Asked loader before [⟨v, i, reply⟩] between)
    (within : v.depth ≤ options.inclusion) (refused : Request.Refused options ⟨v, i, reply⟩ r) :
    Explores loader options v (i :: is) before (.error r) between := by
  obtain ⟨later, last, walk, onward⟩ := loader.exists_walk options v is between.store
  have fails : Request.inside? options ⟨v, i, reply⟩ = none := by
    cases enters : Request.inside? options ⟨v, i, reply⟩ with
    | none => rfl
    | some inner => exact absurd refused (Request.not_refused_of_inside enters r)
  have walk' : Walk options v (i :: is) ([] ++ ⟨v, i, reply⟩ :: later) := .shut within fails walk
  exact .refused walk' asked (by simp) refused onward

/-- A directive that loads a document in which a file is refused. -/
theorem enter_refused (asked : Asked loader before [⟨v, i, reply⟩] between)
    (within : v.depth ≤ options.inclusion)
    (enters : Request.inside? options ⟨v, i, reply⟩ = some inner)
    (below : Explores loader options inner inner.document.includes between (.error r) after) :
    Explores loader options v (i :: is) before (.error r) after := by
  have settled := Request.not_refused_of_inside enters
  cases below with
  | refused walkBelow askedBelow settledBelow refused onward =>
      obtain ⟨later, last, walk, onward'⟩ := loader.exists_walk options v is _
      have walk' := Walk.enter within enters walkBelow walk
      rw [List.append_assoc, ← List.cons_append] at walk'
      have allSettled := List.forall_mem_cons.mpr ⟨settled, settledBelow⟩
      exact .refused walk' (asked.cons askedBelow) allSettled refused (onward.append onward')

end Explores

end Runs

namespace Attempt

variable {α : Type} {x : Attempt α}

theorem accepted_eq_error_iff {r : Rejection} : x.accepted = .error r ↔ x.outcome = .refused r := by
  obtain ⟨noted, outcome⟩ := x
  cases outcome <;> simp [accepted]

theorem accepted_eq_inl_iff {a : α} : x.accepted = .ok (.inl a) ↔ x = pure a := by
  obtain ⟨noted, outcome⟩ := x
  cases noted <;> cases outcome <;> simp [accepted, pure]

/-- What is not accepted has faults, and all of them stand against it. -/
theorem faults_of_accepted {read : Option α} {faults : List Fault}
    (accepted : x.accepted = .ok (.inr (read, faults))) : faults = x.faults ∧ faults ≠ [] := by
  obtain ⟨noted, outcome⟩ := x
  cases outcome with
  | value a =>
      cases noted with
      | nil => cases accepted
      | cons f rest =>
          obtain ⟨-, rfl⟩ := Prod.mk.inj (Sum.inr.inj (Except.ok.inj accepted))
          exact ⟨rfl, List.cons_ne_nil _ _⟩
  | fault f =>
      obtain ⟨-, rfl⟩ := Prod.mk.inj (Sum.inr.inj (Except.ok.inj accepted))
      exact ⟨rfl, List.append_ne_nil_of_right_ne_nil _ (List.cons_ne_nil _ _)⟩
  | refused r => cases accepted

end Attempt

section Steps

variable {σ α β : Type}

namespace Resolving

theorem run_bind (x : Resolving σ α) (f : α → Resolving σ β) (before : Trace σ) :
    (x >>= f).run.run before =
      match x.run.run before with
      | (.ok a, after) => (f a).run.run after
      | (.error r, after) => (.error r, after) := by
  rw [ExceptT.run_bind, StateT.run_bind]
  rcases x.run.run before with ⟨result, after⟩
  cases result <;> rfl

theorem run_get (before : Trace σ) :
    (get : Resolving σ (Trace σ)).run.run before = (.ok before, before) := rfl

theorem run_modify (f : Trace σ → Trace σ) (before : Trace σ) :
    (modify f : Resolving σ Unit).run.run before = (.ok (), f before) := rfl

theorem run_lift (x : Except Rejection α) (before : Trace σ) :
    (liftM x : Resolving σ α).run.run before = (x, before) := by
  cases x <;> rfl

theorem run_emit (event : Event) (before : Trace σ) : (Inclusion.emit event).run.run before =
    (.ok (), { before with events := before.events ++ [event] }) := rfl

end Resolving

variable {loader : Loader σ} {options : CompileOptions}

/-- Resolve the includes of a document at its depth. -/
def Visit.resolve (loader : Loader σ) (options : CompileOptions) (v : Visit) :
    Resolving σ (Document × List Diagnostic) :=
  Inclusion.resolve loader options (Inclusion.levels options v.depth) v.document v.path v.chain

namespace Inclusion

open Resolving

theorem exists_load (loader : Loader σ) (v : Visit) (i : Include) (before : Trace σ) :
    ∃ reply between, Asked loader before [⟨v, i, reply⟩] between ∧
      (load loader i.path v.path).run.run before = (.ok reply, between) := by
  rcases answer : loader i.path v.path before.store with ⟨reply, next⟩
  simp only [load, run_bind, run_emit, run_get, run_modify, answer]
  split <;>
    exact ⟨_, _, ⟨.cons answer (.nil _), by simp [Trace.calls, Event.call?, Request.call]⟩, rfl⟩

/-- What a directive adds once a document is loaded. -/
def harvest (resolve : Document → String → List String → Resolving σ (Document × List Diagnostic))
    (inner : Visit) : Resolving σ Harvest := do
  if inner.document.includes.isEmpty then return .ofDocument inner.document []
  let (d, errors) ← resolve inner.document inner.path inner.chain
  return .ofDocument d errors

/-- The loader is asked once for a directive.  Then the file is refused, or the directive is not
carried out, or the document that is loaded is resolved in turn. -/
theorem exists_directive (loader : Loader σ) (options : CompileOptions)
    (resolve : Document → String → List String → Resolving σ (Document × List Diagnostic))
    (v : Visit) (i : Include) (before : Trace σ) :
    ∃ reply between, Asked loader before [⟨v, i, reply⟩] between ∧
      ((∃ r, Request.Refused options ⟨v, i, reply⟩ r ∧
          (directive loader options resolve v.path v.chain i).run.run before =
            (.error r, between)) ∨
        (∃ cause, Request.loaded options ⟨v, i, reply⟩ = .error cause ∧
          (∀ r, ¬Request.Refused options ⟨v, i, reply⟩ r) ∧
          (directive loader options resolve v.path v.chain i).run.run before =
            (.ok (.failed i cause), between)) ∨
        ∃ inner, Request.inside? options ⟨v, i, reply⟩ = some inner ∧
          (directive loader options resolve v.path v.chain i).run.run before =
            (harvest resolve inner).run.run between) := by
  obtain ⟨reply, between, asked, loads⟩ := exists_load loader v i before
  rw [directive, run_bind, loads]
  cases reply with
  | error fault =>
      refine ⟨_, between, asked, .inr (.inl ⟨_, rfl, ?_, rfl⟩)⟩
      rintro r ⟨file, reply, -⟩
      cases reply
  | ok file =>
      by_cases known : file.path ∈ v.chain
      · refine ⟨_, between, asked, .inr (.inl ⟨.circular i.path file.path, ?_, ?_, ?_⟩)⟩
        · exact if_pos known
        · rintro r ⟨file', reply, fresh, -⟩
          exact fresh (Except.ok.inj reply ▸ known)
        · simp only [List.contains_iff_mem, if_pos known]
          rfl
      · have entered := asked.emit (show (Event.included i.path file.path).call? = none from rfl)
        refine ⟨_, _, entered.emit (show (Event.read file.content).call? = none from rfl), ?_⟩
        simp only [List.contains_iff_mem, if_neg known, run_bind, run_emit, run_lift]
        by_cases refused : ∃ r, (options.read file.content).outcome = .refused r
        · obtain ⟨r, refused⟩ := refused
          refine .inl ⟨r, ⟨file, rfl, known, refused⟩, ?_⟩
          rw [Attempt.accepted, refused]
        · have settled : ∀ r, (options.read file.content).outcome ≠ .refused r :=
            fun r same => refused ⟨r, same⟩
          rw [Attempt.accepted_of_settled settled]
          cases clean : (options.read file.content).clean? with
          | none =>
              refine .inr (.inl ⟨.faulty i.path (options.read file.content).complaint, ?_, ?_, rfl⟩)
              · rw [Request.loaded, Include.loaded]
                simp only [if_neg known, clean]
              · rintro r ⟨file', reply, -, refused⟩
                exact settled r (Except.ok.inj reply ▸ refused)
          | some d =>
              have read := Attempt.clean?_eq_some_iff.mp clean
              refine .inr (.inr ⟨⟨d, v.depth + 1, file.path, v.chain ++ [file.path]⟩, ?_, rfl⟩)
              exact Request.inside?_eq_some_iff.mpr ⟨file.content, rfl, known, read, rfl, rfl⟩

variable {v : Visit}

theorem run_mapM_cons {f : Include → Resolving σ Harvest} {i : Include} {before between : Trace σ}
    {h : Harvest} (first : (f i).run.run before = (.ok h, between)) (is : List Include) :
    (((i :: is).mapM f).run.run before).1.map (·.flatMap Harvest.errors) =
        (((is.mapM f).run.run between).1.map (·.flatMap Harvest.errors)).map (h.errors ++ ·) ∧
      (((i :: is).mapM f).run.run before).2 = ((is.mapM f).run.run between).2 := by
  rw [List.mapM_cons, run_bind, first]
  simp only [run_bind]
  rcases (is.mapM f).run.run between with ⟨result, after⟩
  cases result <;> exact ⟨rfl, rfl⟩

theorem run_mapM_refused {f : Include → Resolving σ Harvest} {i : Include} {is : List Include}
    {before between : Trace σ} {r : Rejection}
    (first : (f i).run.run before = (.error r, between)) :
    ((i :: is).mapM f).run.run before = (.error r, between) := by
  rw [List.mapM_cons, run_bind, first]

theorem explores_mapM
    {resolve : Document → String → List String → Resolving σ (Document × List Diagnostic)}
    (within : v.depth ≤ options.inclusion)
    (below : ∀ inner : Visit, inner.depth = v.depth + 1 → ∀ before result after,
      (harvest resolve inner).run.run before = (result, after) →
        ∃ inside, result.map Harvest.errors = inside.map (inner.excess options ++ ·) ∧
          Explores loader options inner inner.document.includes before inside after)
    (is : List Include) (before : Trace σ) :
    Explores loader options v is before
      (((is.mapM (directive loader options resolve v.path v.chain)).run.run before).1.map
        (·.flatMap Harvest.errors))
      ((is.mapM (directive loader options resolve v.path v.chain)).run.run before).2 := by
  induction is generalizing before with
  | nil => exact .nil
  | cons i is ih =>
      obtain ⟨reply, between, asked, ⟨r, refused, run⟩ | ⟨cause, fails, settled, run⟩ |
        ⟨inner, enters, run⟩⟩ := exists_directive loader options resolve v i before
      · rw [run_mapM_refused run]
        exact .refuse asked within refused
      · obtain ⟨errors, after⟩ := run_mapM_cons run is
        have here : Request.errors options ⟨v, i, reply⟩ = (Harvest.failed i cause).errors :=
          Request.errors_of_loaded fails
        have closed : Request.inside? options ⟨v, i, reply⟩ = none := by
          rw [Request.inside?, fails]
        rw [errors, after, ← here]
        exact .shut asked within closed settled (ih between)
      · obtain ⟨_, _, _, _, depth, _⟩ := Request.inside?_eq_some_iff.mp enters
        have here : Request.errors options ⟨v, i, reply⟩ = inner.excess options :=
          Request.errors_of_inside enters
        rcases inner_run : (harvest resolve inner).run.run between with ⟨result, between'⟩
        obtain ⟨inside, errors, explores⟩ := below inner depth between result between' inner_run
        rw [inner_run] at run
        cases result with
        | error r =>
            rw [run_mapM_refused run]
            cases inside with
            | ok errs => cases errors
            | error r' =>
                obtain rfl : r = r' := Except.error.inj errors
                exact .enter_refused asked within enters explores
        | ok h =>
            cases inside with
            | error r' => cases errors
            | ok inside =>
                obtain ⟨joined, after⟩ := run_mapM_cons run is
                have errors : h.errors = inner.excess options ++ inside := Except.ok.inj errors
                rw [joined, after, errors, ← here]
                simp only [List.append_assoc]
                exact .enter asked within enters explores (ih between')

theorem errors_ofDocument (d : Document) (errors : List Diagnostic) :
    (Harvest.ofDocument d errors).errors = errors := by
  cases errors <;> rfl

theorem explores_harvest {inner : Visit} {before after : Trace σ}
    (explores : inner.depth ≤ options.inclusion → ∀ result after,
      (inner.resolve loader options).run.run before = (result, after) →
        Explores loader options inner inner.document.includes before (result.map Prod.snd) after)
    {result : Except Rejection Harvest}
    (run : (harvest (resolve loader options (levels options inner.depth)) inner).run.run before =
      (result, after)) :
    ∃ inside, result.map Harvest.errors = inside.map (inner.excess options ++ ·) ∧
      Explores loader options inner inner.document.includes before inside after := by
  by_cases bare : inner.document.includes = []
  · have excess : inner.excess options = [] := if_neg fun both => both.1 bare
    rw [harvest, bare, List.isEmpty_nil, if_pos rfl] at run
    obtain ⟨rfl, rfl⟩ := Prod.mk.inj run
    rw [excess, bare]
    exact ⟨.ok [], rfl, .nil⟩
  · have some : ¬inner.document.includes.isEmpty = true :=
      fun none => bare (List.isEmpty_iff.mp none)
    rw [harvest, if_neg some, run_bind] at run
    by_cases within : inner.depth ≤ options.inclusion
    · have excess : inner.excess options = [] := if_neg fun both => Int.not_lt.mpr within both.2
      rcases resolved : (inner.resolve loader options).run.run before with ⟨outcome, after'⟩
      have explored := explores within outcome after' resolved
      rw [Visit.resolve] at resolved
      rw [resolved] at run
      rw [excess]
      cases outcome with
      | error r =>
          obtain ⟨rfl, rfl⟩ := Prod.mk.inj run
          exact ⟨.error r, rfl, explored⟩
      | ok found =>
          obtain ⟨rfl, rfl⟩ := Prod.mk.inj run
          exact ⟨.ok found.2, congrArg Except.ok (errors_ofDocument found.1 found.2), explored⟩
    · have deep := Int.not_le.mp within
      have excess : inner.excess options =
          [⟨(IncludeCause.tooDeep options.inclusion).message, Position.first⟩] :=
        if_pos ⟨bare, deep⟩
      rw [levels_eq_zero_iff.mpr deep] at run
      obtain ⟨rfl, rfl⟩ := Prod.mk.inj run
      rw [excess]
      exact ⟨.ok [], rfl, .finished (.beyond deep) (.nil _) (by simp)⟩

/-- Resolving the includes of a document within the limit explores its directives. -/
theorem explores_resolve (loader : Loader σ) (v : Visit) (within : v.depth ≤ options.inclusion)
    {before after : Trace σ} {result : Except Rejection (Document × List Diagnostic)}
    (run : (v.resolve loader options).run.run before = (result, after)) :
    Explores loader options v v.document.includes before (result.map Prod.snd) after := by
  induction left : levels options v.depth generalizing v before after result with
  | zero => exact absurd within (Int.not_le.mpr (levels_eq_zero_iff.mp left))
  | succ levels' ih =>
      have further : levels options (v.depth + 1) = levels' := by
        have := levels_succ within
        omega
      have below (inner : Visit) (depth : inner.depth = v.depth + 1) (before : Trace σ)
          (result : Except Rejection Harvest) (after : Trace σ)
          (run : (harvest (resolve loader options levels') inner).run.run before =
            (result, after)) :
          ∃ inside, result.map Harvest.errors = inside.map (inner.excess options ++ ·) ∧
            Explores loader options inner inner.document.includes before inside after := by
        rw [← further, ← depth] at run
        refine explores_harvest (fun within' result after run' => ?_) run
        exact ih inner within' run' (depth ▸ further)
      have explored := explores_mapM within below v.document.includes before
      rw [Visit.resolve, left, resolve, run_bind] at run
      rcases reaped : (v.document.includes.mapM (directive loader options
        (resolve loader options levels') v.path v.chain)).run.run before with ⟨harvests, between⟩
      rw [reaped] at run explored
      cases harvests with
      | error r =>
          obtain ⟨rfl, rfl⟩ := Prod.mk.inj run
          exact explored
      | ok harvests =>
          obtain ⟨rfl, rfl⟩ := Prod.mk.inj run
          exact explored

theorem run_resolve_of_refused {i : Include} {rest : List Include} {before : Trace σ}
    {file : LoadedFile} {r : Rejection} (within : v.depth ≤ options.inclusion)
    (first : v.document.includes = i :: rest)
    (reply : (loader i.path v.path before.store).1 = .ok file) (fresh : file.path ∉ v.chain)
    (refused : (options.read file.content).outcome = .refused r) :
    ∃ after, (v.resolve loader options).run.run before = (.error r, after) ∧
      after.calls = before.calls ++ [(i.path, v.path)] := by
  obtain ⟨reply', between, asked, outcome⟩ :=
    exists_directive loader options (resolve loader options (levels options (v.depth + 1))) v i
      before
  obtain rfl : reply' = .ok file := by
    rw [← reply, asked.answer]
  rcases outcome with ⟨r', ⟨file', same, -, refused'⟩, run⟩ | ⟨cause, -, settled, -⟩ |
    ⟨inner, enters, -⟩
  · obtain rfl := Except.ok.inj same
    obtain rfl := Outcome.refused.inj (refused.symm.trans refused')
    refine ⟨between, ?_, asked.calls⟩
    rw [Visit.resolve, levels_succ within, resolve, run_bind, first, run_mapM_refused run]
  · exact absurd ⟨file, rfl, fresh, refused⟩ (settled r)
  · exact absurd ⟨file, rfl, fresh, refused⟩ (Request.not_refused_of_inside enters r)

theorem run_compile (loader : Loader σ) (options : CompileOptions) (source : String)
    (before : Trace σ) : (compile loader options source).run.run before =
      match (options.read source).accepted with
      | .error r => (.error r, before)
      | .ok (.inr (d, faults)) => (.ok (.ofFaults d faults), before)
      | .ok (.inl d) =>
        if d.includes = [] then (.ok (d.finish options.strict []), before)
        else
          match ((Visit.start options d).resolve loader options).run.run before with
          | (.error r, after) => (.error r, after)
          | (.ok (d, errors), after) =>
            (.ok (if errors = [] then d.finish options.strict [] else ⟨false, some d, errors, []⟩),
              after) := by
  rw [compile, resolveSource, run_bind, run_bind, run_lift]
  rcases (options.read source).accepted with r | d | ⟨d, faults⟩
  · rfl
  · by_cases bare : d.includes = []
    · simp only [bare, List.isEmpty_nil, if_true]
      rfl
    · simp only [List.isEmpty_iff, if_neg bare, run_bind]
      simp only [Visit.resolve, Visit.start]
      rcases (resolve loader options (levels options 0) d options.path
        (if options.path = "" then [] else [options.path])).run.run before with ⟨result, after⟩
      cases result with
      | error r => rfl
      | ok found =>
          by_cases quiet : found.2 = []
          · simp only [if_pos quiet]
            rfl
          · simp only [if_neg quiet]
            rfl
  · rfl

theorem run_compile_of_refused {source : String} {d : Document} {i : Include} {rest : List Include}
    (before : Trace σ) {file : LoadedFile} {r : Rejection} (read : options.read source = pure d)
    (within : 0 ≤ options.inclusion) (first : d.includes = i :: rest)
    (reply : (loader i.path options.path before.store).1 = .ok file)
    (fresh : file.path ≠ options.path)
    (refused : (options.read file.content).outcome = .refused r) :
    ∃ after, (compile loader options source).run.run before = (.error r, after) ∧
      after.calls = before.calls ++ [(i.path, options.path)] := by
  have unknown : file.path ∉ (Visit.start options d).chain := by
    rw [Visit.start]
    split <;> simp [fresh]
  obtain ⟨after, run, calls⟩ := run_resolve_of_refused within first reply unknown refused
  refine ⟨after, ?_, calls⟩
  rw [run_compile, Attempt.accepted_eq_inl_iff.mpr read]
  simp only [first, List.cons_ne_nil, if_false, run]

end Inclusion

end Steps
end Wireframe
