import Wireframe.Proofs.Inclusions
import Mathlib.Data.List.Nodup

/-!
# Walks through includes

A loader may give another answer every time that it is asked, so there need be no fixed graph of
files.  What resolving includes asks of it is a walk: every directive of a document once and in
order, and behind each directive those of the document that it loads.  Nothing is asked beyond the
limit to the nesting of includes and no file is entered inside itself, so a walk ends whatever the
answers are.
-/

namespace Wireframe

/-- What a loader answers. -/
abbrev Reply := Except LoadFault LoadedFile

/-- A document whose directives are to be carried out. -/
structure Visit where
  /-- The document. -/
  document : Document
  /-- How many files were entered on the way to it. -/
  depth : Int
  /-- The path of the document. -/
  path : String
  /-- The paths of the files that led to it. -/
  chain : List String

/-- A document as the first whose directives are to be carried out. -/
def Visit.start (options : CompileOptions) (d : Document) : Visit :=
  ⟨d, 0, options.path, if options.path = "" then [] else [options.path]⟩

theorem Visit.nodup_start (options : CompileOptions) (d : Document) :
    (start options d).chain.Nodup := by
  rw [start]
  split <;> simp

/-- A directive for which a loader is asked, and the answer. -/
structure Request where
  /-- The document of the directive. -/
  visit : Visit
  /-- The directive. -/
  directive : Include
  /-- The answer. -/
  reply : Reply

namespace Request

/-- What a loader is told: the path that is wanted and the path of the document that wants it. -/
def call (q : Request) : String × String :=
  (q.directive.path, q.visit.path)

/-- The document that was loaded and its path, or else why the directive is not carried out. -/
def loaded (options : CompileOptions) (q : Request) : Except IncludeCause (Document × String) :=
  q.directive.loaded (fun _ _ => q.reply) options q.visit.path q.visit.chain

/-- The document that was loaded as the next one whose directives are to be carried out. -/
def inside? (options : CompileOptions) (q : Request) : Option Visit :=
  match q.loaded options with
  | .ok (d, path) => some ⟨d, q.visit.depth + 1, path, q.visit.chain ++ [path]⟩
  | .error _ => none

/-- Whether a file was loaded that is refused outright. -/
def Refused (options : CompileOptions) (q : Request) (r : Rejection) : Prop :=
  ∃ file, q.reply = .ok file ∧ file.path ∉ q.visit.chain ∧
    (options.read file.content).outcome = .refused r

variable {options : CompileOptions} {q : Request} {inner : Visit}

theorem inside?_eq_some_iff : q.inside? options = some inner ↔
    ∃ content, q.reply = .ok ⟨content, inner.path⟩ ∧ inner.path ∉ q.visit.chain ∧
      options.read content = pure inner.document ∧ inner.depth = q.visit.depth + 1 ∧
        inner.chain = q.visit.chain ++ [inner.path] := by
  constructor
  · intro enters
    rw [inside?] at enters
    split at enters
    · rename_i d path loads
      obtain rfl := Option.some.inj enters
      obtain ⟨content, reply, fresh, read⟩ := Include.loaded_eq_ok_iff.mp loads
      exact ⟨content, reply, fresh, read, rfl, rfl⟩
    · cases enters
  · rintro ⟨content, reply, fresh, read, depth, chain⟩
    have loads : q.loaded options = .ok (inner.document, inner.path) :=
      Include.loaded_eq_ok_iff.mpr ⟨content, reply, fresh, read⟩
    rw [inside?, loads, ← depth]
    simp only [← chain]

theorem not_refused_of_inside (enters : q.inside? options = some inner) (r : Rejection) :
    ¬q.Refused options r := by
  obtain ⟨content, reply, -, read, -⟩ := inside?_eq_some_iff.mp enters
  rintro ⟨file, reply', -, refused⟩
  obtain rfl := Except.ok.inj (reply.symm.trans reply')
  rw [read] at refused
  cases refused

end Request

/-- The requests for some directives of a document, in order, each followed by those for the
document that it loads. -/
inductive Walk (options : CompileOptions) : Visit → List Include → List Request → Prop
  /-- Nothing is asked for a document beyond the limit. -/
  | beyond {v : Visit} {is : List Include} (deep : options.inclusion < v.depth) :
      Walk options v is []
  /-- No directive is left. -/
  | done {v : Visit} : Walk options v [] []
  /-- A directive that loads no document. -/
  | shut {v : Visit} {i : Include} {is : List Include} {reply : Reply} {later : List Request}
      (within : v.depth ≤ options.inclusion)
      (fails : Request.inside? options ⟨v, i, reply⟩ = none) (rest : Walk options v is later) :
      Walk options v (i :: is) (⟨v, i, reply⟩ :: later)
  /-- A directive that loads a document. -/
  | enter {v inner : Visit} {i : Include} {is : List Include} {reply : Reply}
      {below later : List Request} (within : v.depth ≤ options.inclusion)
      (enters : Request.inside? options ⟨v, i, reply⟩ = some inner)
      (inside : Walk options inner inner.document.includes below)
      (rest : Walk options v is later) :
      Walk options v (i :: is) (⟨v, i, reply⟩ :: (below ++ later))

namespace Walk

variable {options : CompileOptions} {v : Visit} {is : List Include} {log : List Request}

theorem depth_le (walk : Walk options v is log) :
    ∀ q ∈ log, q.visit.depth ≤ options.inclusion := by
  induction walk with
  | beyond | done => simp
  | shut within fails rest ih => exact List.forall_mem_cons.mpr ⟨within, ih⟩
  | enter within enters inside rest ihInside ih =>
      refine List.forall_mem_cons.mpr ⟨within, fun q member => ?_⟩
      rcases List.mem_append.mp member with below | later
      · exact ihInside q below
      · exact ih q later

theorem nodup_chain (walk : Walk options v is log) (distinct : v.chain.Nodup) :
    ∀ q ∈ log, q.visit.chain.Nodup ∧ ∀ inner ∈ q.inside? options, inner.chain.Nodup := by
  have onward {q : Request} (start : q.visit.chain.Nodup) :
      ∀ inner ∈ q.inside? options, inner.chain.Nodup := by
    intro inner enters
    obtain ⟨content, -, fresh, -, -, chain⟩ := Request.inside?_eq_some_iff.mp enters
    rw [chain, ← List.concat_eq_append]
    exact List.Nodup.concat fresh start
  induction walk with
  | beyond | done => simp
  | shut within fails rest ih =>
      exact List.forall_mem_cons.mpr ⟨⟨distinct, onward distinct⟩, ih distinct⟩
  | enter within enters inside rest ihInside ih =>
      refine List.forall_mem_cons.mpr ⟨⟨distinct, onward distinct⟩, fun q member => ?_⟩
      rcases List.mem_append.mp member with below | later
      · exact ihInside (onward distinct _ enters) q below
      · exact ih distinct q later

/-- A request is for the document that the walk starts from, or for one that an earlier request
loads. -/
theorem visit_eq_or (walk : Walk options v is log) {front back : List Request} {q : Request}
    (split : log = front ++ q :: back) :
    q.visit = v ∨ ∃ p ∈ front, p.inside? options = some q.visit := by
  induction walk generalizing front back with
  | beyond | done => simp at split
  | shut within fails rest ih =>
      rcases List.cons_eq_append_iff.mp split with ⟨-, first⟩ | ⟨front, rfl, others⟩
      · exact .inl ((List.cons.inj first).1 ▸ rfl)
      · refine (ih others).imp_right ?_
        exact fun ⟨p, earlier, enters⟩ => ⟨p, List.mem_cons_of_mem _ earlier, enters⟩
  | enter within enters inside rest ihInside ih =>
      rcases List.cons_eq_append_iff.mp split with ⟨-, first⟩ | ⟨front, rfl, others⟩
      · exact .inl ((List.cons.inj first).1 ▸ rfl)
      · rcases List.append_eq_append_iff.mp others with ⟨more, rfl, later⟩ | ⟨more, below, later⟩
        · -- The request comes behind those for the document that is loaded.
          refine (ih later).imp_right ?_
          exact fun ⟨p, earlier, enters'⟩ =>
            ⟨p, List.mem_cons_of_mem _ (List.mem_append_right _ earlier), enters'⟩
        · cases more with
          | nil =>
              refine (ih (show _ = [] ++ q :: back from later.symm)).imp_right ?_
              rintro ⟨p, earlier, -⟩
              cases earlier
          | cons q' more =>
              obtain ⟨rfl, -⟩ := List.cons.inj later
              rcases ihInside below with start | ⟨p, earlier, enters'⟩
              · exact .inr ⟨_, List.mem_cons_self, start ▸ enters⟩
              · exact .inr ⟨p, List.mem_cons_of_mem _ earlier, enters'⟩

end Walk

section Serving

variable {σ : Type}

/-- Whether a loader in some state gives the answers of requests, one after the other, and is left
in another state. -/
inductive Loader.Serves (loader : Loader σ) : σ → List Request → σ → Prop
  /-- Nothing is asked. -/
  | nil (store : σ) : loader.Serves store [] store
  /-- The loader is asked once more. -/
  | cons {store next last : σ} {q : Request} {rest : List Request}
      (answer : loader q.directive.path q.visit.path store = (q.reply, next))
      (onward : loader.Serves next rest last) : loader.Serves store (q :: rest) last

variable {loader : Loader σ}

theorem Loader.Serves.append {store next last : σ} {front back : List Request}
    (first : loader.Serves store front next) (second : loader.Serves next back last) :
    loader.Serves store (front ++ back) last := by
  induction first with
  | nil => exact second
  | cons answer _ ih => exact .cons answer (ih second)

/-- The levels that are left at a depth. -/
theorem Inclusion.levels_eq_zero_iff {options : CompileOptions} {depth : Int} :
    levels options depth = 0 ↔ options.inclusion < depth := by
  rw [levels]
  omega

theorem Inclusion.levels_succ {options : CompileOptions} {depth : Int}
    (within : depth ≤ options.inclusion) :
    levels options depth = levels options (depth + 1) + 1 := by
  rw [levels, levels]
  omega

/-- Whatever a loader answers, its answers lead through a walk that ends. -/
theorem Loader.exists_walk (loader : Loader σ) (options : CompileOptions) (v : Visit)
    (is : List Include) (store : σ) :
    ∃ log last, Walk options v is log ∧ loader.Serves store log last := by
  induction left : Inclusion.levels options v.depth generalizing v is store with
  | zero => exact ⟨[], store, .beyond (Inclusion.levels_eq_zero_iff.mp left), .nil store⟩
  | succ levels ihLevels =>
      have within : v.depth ≤ options.inclusion := by
        by_contra deep
        rw [Inclusion.levels_eq_zero_iff.mpr (Int.not_le.mp deep)] at left
        cases left
      have fewer : Inclusion.levels options (v.depth + 1) = levels := by
        have := Inclusion.levels_succ within
        omega
      induction is generalizing store with
      | nil => exact ⟨[], store, .done, .nil store⟩
      | cons i is ih =>
          rcases answer : loader i.path v.path store with ⟨reply, next⟩
          cases enters : Request.inside? options ⟨v, i, reply⟩ with
          | none =>
              obtain ⟨later, last, walk, serves⟩ := ih next
              exact ⟨_, last, .shut within enters walk, .cons answer serves⟩
          | some inner =>
              obtain ⟨-, -, -, -, depth, -⟩ := Request.inside?_eq_some_iff.mp enters
              obtain ⟨below, between, inside, first⟩ :=
                ihLevels inner inner.document.includes next (depth ▸ fewer)
              obtain ⟨later, last, walk, second⟩ := ih between
              exact ⟨_, last, .enter within enters inside walk, .cons answer (first.append second)⟩

end Serving
end Wireframe
