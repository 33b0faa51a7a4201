import Wireframe.Compile.Basic

/-!
# Documents without places

The bare form of a document leaves out where its nodes stand.  Validation finds the same in both, at
no place in the bare form, so what compiling says depends on the bare form alone.
-/

namespace Wireframe

mutual

/-- An element without the places of its nodes. -/
def Element.bare : Element → Element
  | ⟨type, content, props, children, _, isComponent⟩ =>
    ⟨type, content, props, Child.bareAll children, none, isComponent⟩

/-- A repetition without the places of its nodes. -/
def Repetition.bare : Repetition → Repetition
  | ⟨count, counter, body, _⟩ => ⟨count, counter, body.bare, none⟩

/-- A node without the places of its nodes. -/
def Child.bare : Child → Child
  | .element e => .element e.bare
  | .repetition r => .repetition r.bare

/-- Nodes without their places, in order. -/
def Child.bareAll : List Child → List Child
  | [] => []
  | child :: rest => child.bare :: Child.bareAll rest

end

theorem Child.bareAll_append (left right : List Child) :
    Child.bareAll (left ++ right) = Child.bareAll left ++ Child.bareAll right := by
  induction left with
  | nil => rfl
  | cons child rest ih => simp only [List.cons_append, Child.bareAll, ih]

/-- A component without the places of its nodes. -/
def Component.bare (c : Component) : Component :=
  { c with body := c.body.bare, location := none }

/-- A layout without the places of its nodes. -/
def Layout.bare (l : Layout) : Layout :=
  { l with body := l.body.bare, location := none }

/-- An overlay without the places of its nodes. -/
def Overlay.bare (o : Overlay) : Overlay :=
  { o with children := Child.bareAll o.children, location := none }

/-- A screen without the places of its nodes. -/
def Screen.bare (s : Screen) : Screen :=
  { s with root := s.root.bare, overlays := s.overlays.map Overlay.bare, location := none }

/-- A directive without its place. -/
def Include.bare (i : Include) : Include :=
  { i with location := none }

/-- A document without the places of its nodes. -/
def Document.bare (d : Document) : Document where
  metadata := d.metadata
  includes := d.includes.map Include.bare
  components := d.components.map Component.bare
  layouts := d.layouts.map Layout.bare
  screens := d.screens.map Screen.bare
  location := none

/-- A finding without its place. -/
def Finding.bare (f : Finding) : Finding :=
  { f with location := none }

private theorem map_bare_unless (p : Prop) [Decidable p] (cause : FindingCause)
    (location : Option Location) :
    (if p then [] else [⟨cause, location⟩] : List Finding).map Finding.bare =
      if p then [] else [⟨cause, none⟩] := by
  split <;> rfl

private theorem map_bare_when (p : Prop) [Decidable p] (cause : FindingCause)
    (location : Option Location) :
    (if p then [⟨cause, location⟩] else [] : List Finding).map Finding.bare =
      if p then [⟨cause, none⟩] else [] := by
  split <;> rfl

namespace Scope

theorem ofDocument_bare (d : Document) : ofDocument d.bare = ofDocument d := by
  have overlays (s : Screen) : s.bare.overlays.map Overlay.id = s.overlays.map Overlay.id := by
    rw [Screen.bare, List.map_map]
    rfl
  simp only [ofDocument, Document.overlays, Document.bare, List.map_map, List.map_flatMap,
    List.flatMap_map, overlays]
  rfl

variable (location : Option Location)

private theorem checkParam_bare (params : List String) (name : String) :
    (checkParam params location name).map Finding.bare = checkParam params none name :=
  map_bare_unless _ _ _

private theorem checkProp_bare (params : List String) (prop : String × PropValue) :
    (checkProp params location prop).map Finding.bare = checkProp params none prop := by
  unfold checkProp
  split
  · exact map_bare_unless _ _ _
  · exact checkParam_bare location params _
  · rfl

private theorem checkProps_bare (params : List String) (props : Table PropValue) :
    (checkProps params location props).map Finding.bare = checkProps params none props := by
  simp only [checkProps, List.map_flatMap, checkProp_bare]

private theorem checkTarget_bare (s : Scope) (target : PropValue) :
    (s.checkTarget location target).map Finding.bare = s.checkTarget none target := by
  unfold checkTarget
  split
  · exact map_bare_unless _ _ _
  · exact map_bare_unless _ _ _
  · rfl

private theorem checkContent_bare (params : List String) (content : Option Content) :
    (checkContent params location content).map Finding.bare = checkContent params none content := by
  unfold checkContent
  split
  · exact checkParam_bare location params _
  · rfl

private theorem checkCount_bare (params : List String) (count : Count) :
    (checkCount params location count).map Finding.bare = checkCount params none count := by
  cases count with
  | param name => exact checkParam_bare location params name
  | times n => exact map_bare_when _ _ _

private theorem checkNode_bare (s : Scope) (params : List String) (type : String)
    (content : Option Content) (props : Table PropValue) :
    (s.checkNode params type content props location).map Finding.bare =
      s.checkNode params type content props none := by
  have target : (((props.find? "to").map (s.checkTarget location)).getD []).map Finding.bare =
      ((props.find? "to").map (s.checkTarget none)).getD [] := by
    cases props.find? "to" with
    | none => rfl
    | some value => exact checkTarget_bare location s value
  simp only [checkNode, List.map_append, map_bare_unless, checkContent_bare, checkProps_bare,
    target]

mutual

theorem checkElement_bare (s : Scope) (params : List String) :
    ∀ e : Element, s.checkElement params e.bare = (s.checkElement params e).map Finding.bare
  | ⟨type, content, props, children, location, isComponent⟩ => by
      rw [Element.bare, checkElement, checkElement, List.map_append, checkNode_bare,
        checkChildren_bare s params children]

theorem checkRepetition_bare (s : Scope) (params : List String) :
    ∀ r : Repetition,
      s.checkRepetition params r.bare = (s.checkRepetition params r).map Finding.bare
  | ⟨count, counter, body, location⟩ => by
      rw [Repetition.bare, checkRepetition, checkRepetition, List.map_append, checkCount_bare,
        checkElement_bare s (bind params counter) body]

theorem checkChild_bare (s : Scope) (params : List String) :
    ∀ c : Child, s.checkChild params c.bare = (s.checkChild params c).map Finding.bare
  | .element e => by
      rw [Child.bare, checkChild, checkChild, checkElement_bare s params e]
  | .repetition r => by
      rw [Child.bare, checkChild, checkChild, checkRepetition_bare s params r]

theorem checkChildren_bare (s : Scope) (params : List String) :
    ∀ cs : List Child,
      s.checkChildren params (Child.bareAll cs) = (s.checkChildren params cs).map Finding.bare
  | [] => rfl
  | child :: rest => by
      rw [Child.bareAll, checkChildren, checkChildren, List.map_append,
        checkChild_bare s params child, checkChildren_bare s params rest]

end

private theorem checkComponent_bare (s : Scope) (c : Component) :
    s.checkComponent c.bare = (s.checkComponent c).map Finding.bare := by
  simp only [checkComponent, List.map_append, map_bare_when, ← checkElement_bare]
  rfl

private theorem checkOverlay_bare (s : Scope) (o : Overlay) :
    s.checkOverlay o.bare = (s.checkOverlay o).map Finding.bare := by
  simp only [checkOverlay, List.map_append, checkProps_bare, ← checkChildren_bare]
  rfl

private theorem checkLayout_bare (location : Option Location) (s : Scope) (name : Option String) :
    (s.checkLayout location name).map Finding.bare = s.checkLayout none name := by
  unfold checkLayout
  split
  · rfl
  · exact map_bare_unless _ _ _

private theorem checkScreen_bare (s : Scope) (screen : Screen) :
    s.checkScreen screen.bare = (s.checkScreen screen).map Finding.bare := by
  simp only [checkScreen, List.map_append, List.map_flatMap, checkLayout_bare,
    ← checkElement_bare, ← checkOverlay_bare, Screen.bare, List.flatMap_map]

end Scope

namespace Document

private theorem duplicateOverlays_bare (seen : List String) (overlays : List Overlay) :
    duplicateOverlays seen (overlays.map Overlay.bare) =
      (duplicateOverlays seen overlays).map Finding.bare := by
  induction overlays generalizing seen with
  | nil => rfl
  | cons o rest ih =>
      simp only [List.map_cons, duplicateOverlays, List.map_append, map_bare_when, ih]
      rfl

private theorem duplicates_bare (seenScreens seenOverlays : List String) (screens : List Screen) :
    duplicates seenScreens seenOverlays (screens.map Screen.bare) =
      (duplicates seenScreens seenOverlays screens).map Finding.bare := by
  induction screens generalizing seenScreens seenOverlays with
  | nil => rfl
  | cons s rest ih =>
      have ids : (s.overlays.map Overlay.bare).map Overlay.id = s.overlays.map Overlay.id := by
        rw [List.map_map]
        rfl
      simp only [List.map_cons, duplicates, List.map_append, map_bare_when, Screen.bare,
        duplicateOverlays_bare, ids]
      rw [← ih]

/-- Validation finds the same in a bare document, at no place. -/
theorem findings_bare (d : Document) : d.bare.findings = d.findings.map Finding.bare := by
  simp only [findings, Scope.ofDocument_bare, List.map_append, List.map_flatMap,
    ← duplicates_bare, ← Scope.checkComponent_bare, ← Scope.checkScreen_bare]
  simp only [bare, List.flatMap_map]

/-- The findings of documents with one bare form have the same causes. -/
theorem map_cause_findings {d e : Document} (same : d.bare = e.bare) :
    d.findings.map Finding.cause = e.findings.map Finding.cause := by
  have found := congrArg (List.map Finding.cause) (congrArg findings same)
  simp only [findings_bare, List.map_map] at found
  exact found

private theorem map_message_filter (p : FindingCause → Bool) (found : List Finding) :
    ((found.filter (p ·.cause)).map Finding.diagnostic).map Diagnostic.message =
      ((found.map Finding.cause).filter p).map FindingCause.message := by
  rw [List.filter_map, List.map_map, List.map_map]
  rfl

theorem map_message_errors {d e : Document} (same : d.bare = e.bare) :
    d.errors.map Diagnostic.message = e.errors.map Diagnostic.message := by
  rw [errors, errors, map_message_filter FindingCause.isError,
    map_message_filter FindingCause.isError, map_cause_findings same]

theorem map_message_warnings {d e : Document} (same : d.bare = e.bare) :
    d.warnings.map Diagnostic.message = e.warnings.map Diagnostic.message := by
  rw [warnings, warnings, map_message_filter (!·.isError), map_message_filter (!·.isError),
    map_cause_findings same]

end Document

/-- Two results of compiling agree if they say the same, wherever they place it. -/
structure Compiled.Agree (left right : Compiled) : Prop where
  success : left.success = right.success
  errors : left.errors.map Diagnostic.message = right.errors.map Diagnostic.message
  warnings : left.warnings.map Diagnostic.message = right.warnings.map Diagnostic.message

private theorem isEmpty_congr {left right : List Diagnostic}
    (same : left.map Diagnostic.message = right.map Diagnostic.message) :
    left.isEmpty = right.isEmpty := by
  rw [← List.isEmpty_map (f := Diagnostic.message), same, List.isEmpty_map]

/-- What is said of a document without faults depends on its bare form alone. -/
theorem Document.agree_finish {d e : Document} (same : d.bare = e.bare) (strict : Bool) :
    (d.finish strict []).Agree (e.finish strict []) := by
  have screens : d.screens.isEmpty = e.screens.isEmpty := by
    have count := congrArg Document.screens same
    rw [← List.isEmpty_map (f := Screen.bare), ← List.isEmpty_map (l := e.screens)]
    exact congrArg List.isEmpty count
  have missing :
      d.missingScreen.map Diagnostic.message = e.missingScreen.map Diagnostic.message := by
    unfold missingScreen
    rw [screens]
    split <;> rfl
  have errors : (d.missingScreen ++ d.errors).map Diagnostic.message =
      (e.missingScreen ++ e.errors).map Diagnostic.message := by
    rw [List.map_append, List.map_append, missing, map_message_errors same]
  have warnings := map_message_warnings same
  refine ⟨?_, errors, warnings⟩
  simp only [finish, List.nil_append]
  rw [isEmpty_congr errors, isEmpty_congr warnings]

end Wireframe
