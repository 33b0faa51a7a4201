import Wireframe.Proofs.Recurring
import Wireframe.Proofs.Sites
import Wireframe.Reading.Document

/-!
# Violations

What a document must not have is told from its parts alone: screens and overlays whose ids recur,
components named like elements, and, at the sites of components and screens, parameters that
nothing binds and repetitions that never happen.  The errors of validation are these violations,
each as often as it occurs.
-/

namespace Wireframe

/-- What stands against a component that is named like an element. -/
def Component.shadowing (c : Component) : Finding :=
  ⟨.shadowing c.name, c.location⟩

/-- The components that are named like elements. -/
def Document.shadowers (d : Document) : List Component :=
  d.components.filter (Schema.isBuiltin ·.name)

private theorem map_filter_eq_flatMap {α β : Type} (p : α → Bool) (f : α → β) (xs : List α) :
    (xs.filter p).map f = xs.flatMap fun x => if p x then [f x] else [] := by
  induction xs with
  | nil => rfl
  | cons x rest ih =>
      rw [List.flatMap_cons, ← ih, List.filter_cons]
      split <;> rfl

namespace Document

variable (d : Document)

private theorem perm_checkComponents (scope : Scope) (cs : List Component) :
    (cs.flatMap scope.checkComponent).Perm
      ((cs.filter (Schema.isBuiltin ·.name)).map Component.shadowing ++
        (cs.flatMap Component.sites).flatMap scope.checkSite) := by
  rw [map_filter_eq_flatMap, List.flatMap_assoc]
  refine .trans ?_ (List.flatMap_append_perm cs _ _).symm
  exact .of_eq (List.flatMap_congr fun c _ => scope.checkComponent_eq c)

private theorem perm_checkScreens (scope : Scope) (ss : List Screen) :
    (ss.flatMap scope.checkScreen).Perm
      ((ss.flatMap fun s => scope.checkLayout s.location s.layout) ++
        (ss.flatMap Screen.sites).flatMap scope.checkSite) := by
  rw [List.flatMap_assoc]
  refine .trans ?_ (List.flatMap_append_perm ss _ _).symm
  exact .of_eq (List.flatMap_congr fun s _ => scope.checkScreen_eq s)

/-- What is found in a document: what stands against the ids of its screens and overlays, against
the names of its components and the layouts of its screens, and against its sites. -/
theorem perm_findings : d.findings.Perm
    ((recurring Screen.id d.screens).map Screen.duplication ++
      (recurring Overlay.id d.overlays).map Overlay.duplication ++
      d.shadowers.map Component.shadowing ++
      (d.screens.flatMap fun s => (Scope.ofDocument d).checkLayout s.location s.layout) ++
      d.sites.flatMap (Scope.ofDocument d).checkSite) := by
  refine (((perm_duplicates d.screens).append (perm_checkComponents _ d.components)).append
    (perm_checkScreens _ d.screens)).trans ?_
  rw [sites, List.flatMap_append]
  simp only [List.append_assoc]
  refine .append_left _ (.append_left _ (.append_left _ ?_))
  rw [← List.append_assoc, ← List.append_assoc]
  exact List.perm_append_comm.append_right _

end Document

namespace Site

variable (s : Site)

/-- What stands against the parameters that a node refers to and that nothing binds. -/
def unboundParams : List Finding :=
  (s.node.references.filter (¬ s.Binds ·)).map fun name => ⟨.unboundParam name, s.node.location⟩

/-- What stands against a repetition that never happens. -/
def emptyRepetition : Finding :=
  ⟨.emptyRepetition, s.node.location⟩

end Site

namespace Scope

private abbrev errorsOf (found : List Finding) : List Finding :=
  found.filter (·.cause.isError)

/-- What stands against those of some parameters that are not among the names bound. -/
private def checkParams (names : List String) (location : Option Location) (refs : List String) :
    List Finding :=
  (refs.filter (· ∉ names)).map fun name => ⟨.unboundParam name, location⟩

variable {names : List String} {location : Option Location}

private theorem errorsOf_checkParam (name : String) :
    errorsOf (checkParam names location name) = checkParams names location [name] := by
  by_cases bound : name ∈ names
  · simp [checkParam, checkParams, bound]
  · simp [checkParam, checkParams, bound, FindingCause.isError]

private theorem errorsOf_checkContent (content : Option Content) :
    errorsOf (checkContent names location content) =
      checkParams names location (content.bind Content.param?).toList := by
  match content with
  | none => rfl
  | some (.text _) => rfl
  | some (.param name) => exact errorsOf_checkParam name

private theorem errorsOf_checkProp (prop : String × PropValue) :
    errorsOf (checkProp names location prop) =
      checkParams names location prop.2.param?.toList := by
  obtain ⟨key, value⟩ := prop
  cases value with
  | param name => exact errorsOf_checkParam name
  | scalar value =>
      cases value with
      | flag set =>
          cases set with
          | false => rfl
          | true =>
              simp only [checkProp]
              split <;> rfl
      | _ => rfl
  | _ => rfl

private theorem errorsOf_checkProps (props : Table PropValue) :
    errorsOf (checkProps names location props) =
      checkParams names location (props.entries.filterMap (·.2.param?)) := by
  rw [checkProps, errorsOf, List.filter_flatMap]
  induction props.entries with
  | nil => rfl
  | cons prop rest ih =>
      rw [List.flatMap_cons, ih]
      refine (congrArg (· ++ _) (errorsOf_checkProp prop)).trans ?_
      cases found : prop.2.param? with
      | none => simp [checkParams, found]
      | some name => simp [checkParams, found, ← List.map_append, ← List.filter_append]

private theorem errorsOf_checkTarget (scope : Scope) (target : PropValue) :
    errorsOf (scope.checkTarget location target) = [] := by
  cases target with
  | screen id =>
      simp only [checkTarget]
      split <;> rfl
  | overlay id =>
      simp only [checkTarget]
      split <;> rfl
  | _ => rfl

private theorem errorsOf_checkLayout (scope : Scope) (layout : Option String) :
    errorsOf (scope.checkLayout location layout) = [] := by
  cases layout with
  | none => rfl
  | some name =>
      simp only [checkLayout]
      split <;> rfl

private theorem errorsOf_checkNode (scope : Scope) (type : String) (content : Option Content)
    (props : Table PropValue) :
    errorsOf (scope.checkNode names type content props location) = checkParams names location
      ((content.bind Content.param?).toList ++ props.entries.filterMap (·.2.param?)) := by
  have unknown : errorsOf (if scope.knowsElement type then [] else
      [⟨.unknownElement type, location⟩]) = [] := by
    split <;> rfl
  have target : errorsOf (((props.find? "to").map (scope.checkTarget location)).getD []) = [] := by
    cases props.find? "to" with
    | none => rfl
    | some target => exact errorsOf_checkTarget scope target
  have content : errorsOf (checkContent names location content) = _ := errorsOf_checkContent content
  have props : errorsOf (checkProps names location props) = _ := errorsOf_checkProps props
  simp only [errorsOf] at unknown target content props
  rw [checkNode, errorsOf, List.filter_append, List.filter_append, List.filter_append, unknown,
    target, content, props, List.append_nil, List.nil_append, checkParams, checkParams, checkParams,
    List.filter_append, List.map_append]

private theorem errorsOf_checkCount (count : Count) : errorsOf (checkCount names location count) =
    checkParams names location count.param?.toList ++
      match count with
      | .times n => if n < 1 then [⟨.emptyRepetition, location⟩] else []
      | .param _ => [] := by
  cases count with
  | times n =>
      simp only [checkCount]
      split <;> rfl
  | param name => exact (errorsOf_checkParam name).trans (List.append_nil _).symm

private theorem checkParams_references (s : Site) :
    checkParams s.names s.node.location s.node.references = s.unboundParams := by
  simp only [checkParams, Site.unboundParams, Site.mem_names]

/-- The errors at a site are the parameters that nothing binds there, and that a repetition never
happens. -/
theorem filter_isError_checkSite (scope : Scope) (s : Site) :
    (scope.checkSite s).filter (·.cause.isError) =
      s.unboundParams ++ if s.node.isEmptyRepetition then [s.emptyRepetition] else [] := by
  rw [← checkParams_references]
  obtain ⟨node, params, around⟩ := s
  cases node with
  | element e => exact (errorsOf_checkNode scope ..).trans (List.append_nil _).symm
  | overlay o => exact (errorsOf_checkProps o.props).trans (List.append_nil _).symm
  | repetition r =>
      obtain ⟨count, counter, body, location⟩ := r
      refine (errorsOf_checkCount count).trans (congrArg (_ ++ ·) ?_)
      cases count with
      | times n => simp [Landmark.isEmptyRepetition, Site.emptyRepetition, Landmark.location]
      | param name => rfl
  | _ => rfl

end Scope

namespace Document

variable (d : Document)

/-- What makes a document unusable: screens and overlays whose ids recur, components that are named
like elements, parameters that nothing binds, and repetitions that never happen. -/
def violations : List Finding :=
  (recurring Screen.id d.screens).map Screen.duplication ++
    (recurring Overlay.id d.overlays).map Overlay.duplication ++
    d.shadowers.map Component.shadowing ++
    d.sites.flatMap Site.unboundParams ++
    (d.sites.filter (·.node.isEmptyRepetition)).map Site.emptyRepetition

private theorem perm_errorsOf_sites (scope : Scope) (sites : List Site) :
    ((sites.flatMap scope.checkSite).filter (·.cause.isError)).Perm
      (sites.flatMap Site.unboundParams ++
        (sites.filter (·.node.isEmptyRepetition)).map Site.emptyRepetition) := by
  rw [List.filter_flatMap, map_filter_eq_flatMap]
  refine .trans (.of_eq ?_) (List.flatMap_append_perm sites _ _).symm
  exact List.flatMap_congr fun s _ => scope.filter_isError_checkSite s

/-- The errors of validation are the violations of the document, each with the message for it and
with the place of the node that it is about. -/
theorem perm_errors : d.errors.Perm (d.violations.map Finding.diagnostic) := by
  have screens : ∀ f ∈ (recurring Screen.id d.screens).map Screen.duplication,
      f.cause.isError := by
    simp [Screen.duplication, FindingCause.isError]
  have overlays : ∀ f ∈ (recurring Overlay.id d.overlays).map Overlay.duplication,
      f.cause.isError := by
    simp [Overlay.duplication, FindingCause.isError]
  have shadowers : ∀ f ∈ d.shadowers.map Component.shadowing, f.cause.isError := by
    simp [Component.shadowing, FindingCause.isError]
  have layouts : (d.screens.flatMap fun s =>
      (Scope.ofDocument d).checkLayout s.location s.layout).filter (·.cause.isError) = [] := by
    rw [List.filter_flatMap, List.flatMap_eq_nil_iff]
    exact fun s _ => Scope.errorsOf_checkLayout _ s.layout
  refine ((d.perm_findings.filter _).trans ?_).map _
  rw [List.filter_append, List.filter_append, List.filter_append, List.filter_append,
    List.filter_eq_self.mpr screens, List.filter_eq_self.mpr overlays,
    List.filter_eq_self.mpr shadowers, layouts, List.append_nil, violations]
  rw [List.append_assoc _ (d.sites.flatMap Site.unboundParams)]
  exact (perm_errorsOf_sites _ d.sites).append_left _

/-- A repetition counts under a name in its body, but not in how often it repeats. -/
example : (ofSource 200 "(wire (screen s (box (repeat :count $i :as i (text $i)))))").value?.map
    (fun d => d.violations.map Finding.diagnostic) =
      some [⟨"Unknown parameter reference '$i'", ⟨1, 22⟩⟩] := by
  decide +kernel

end Document
end Wireframe
