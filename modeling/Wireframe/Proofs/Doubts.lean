import Wireframe.Proofs.Violations

/-!
# Doubts

What may be meant in a document, but is not known, is told from its nodes alone: elements of no
registered type, flags that no element has, and places to go to that are not there, and beside these
the layouts of screens that are not defined.  The warnings of validation are these doubts, each as
often as it occurs, and whatever binds names around a node makes no difference to them.
-/

namespace Wireframe

namespace Landmark

/-- The type of an element. -/
def type? : Landmark → Option String
  | element e => some e.type
  | _ => none

/-- The place that an element leads to. -/
def target? : Landmark → Option PropValue
  | element e => e.props.find? "to"
  | _ => none

/-- The properties of an element or an overlay. -/
def props : Landmark → Table PropValue
  | element e => e.props
  | overlay o => o.props
  | _ => Table.empty

/-- The properties of a node that are true. -/
def flags (l : Landmark) : List String :=
  (l.props.entries.filter (·.2 = .scalar (.flag true))).map Prod.fst

end Landmark

namespace Document

variable (d : Document)

/-- The nodes in components and in screens. -/
def nodes : List Landmark :=
  d.components.flatMap (·.body.landmarks) ++
    d.screens.flatMap fun s => s.root.landmarks ++ s.overlays.flatMap Overlay.landmarks

/-- Whether an element may have a type: it is registered, it is the name of a component, or it is
that of the container around a repetition. -/
def Knows (type : String) : Prop :=
  Schema.isBuiltin type ∨ type ∈ d.components.map Component.name ∨ type = Schema.repeatContainer

instance : DecidablePred d.Knows :=
  fun _ => inferInstanceAs (Decidable (_ ∨ _ ∨ _))

/-- What is missing of a place to go to, which may be a screen or an overlay of any screen. -/
def missing? : PropValue → Option FindingCause
  | .screen id => if id ∈ d.screens.map Screen.id then none else some (.unknownScreen id)
  | .overlay id => if id ∈ d.overlays.map Overlay.id then none else some (.unknownOverlay id)
  | _ => none

/-- What stands against the layouts that screens ask for and that are not defined. -/
def unknownLayouts : List Finding :=
  d.screens.flatMap fun s =>
    (s.layout.toList.filter fun name => name ≠ "" ∧ name ∉ d.layouts.map Layout.name).map
      (⟨.unknownLayout ·, s.location⟩)

/-- What stands against the type of a node. -/
def unknownTypes (l : Landmark) : List Finding :=
  (l.type?.toList.filter (¬ d.Knows ·)).map (⟨.unknownElement ·, l.location⟩)

/-- What stands against the place that a node leads to. -/
def unknownTargets (l : Landmark) : List Finding :=
  (l.target?.bind d.missing?).toList.map (⟨·, l.location⟩)

end Document

/-- What stands against the properties of a node that are true although they are neither flags nor
known to be properties. -/
def Landmark.unknownFlags (l : Landmark) : List Finding :=
  (l.flags.filter fun key => key ∉ Schema.validFlags ∧ key ∉ Schema.knownProps).map
    (⟨.unknownFlag ·, l.location⟩)

/-- What may be meant in a document: layouts that are not defined, elements and flags that are not
known, and places to go to that are not there. -/
def Document.doubts (d : Document) : List Finding :=
  d.unknownLayouts ++ d.nodes.flatMap d.unknownTypes ++ d.nodes.flatMap Landmark.unknownFlags ++
    d.nodes.flatMap d.unknownTargets

namespace Scope

private abbrev warningsOf (found : List Finding) : List Finding :=
  found.filter (!·.cause.isError)

variable {d : Document} {names : List String} {location : Option Location}

private theorem warningsOf_checkParam (name : String) :
    warningsOf (checkParam names location name) = [] := by
  simp only [checkParam]
  split <;> rfl

private theorem warningsOf_checkContent (content : Option Content) :
    warningsOf (checkContent names location content) = [] := by
  match content with
  | none => rfl
  | some (.text _) => rfl
  | some (.param name) => exact warningsOf_checkParam name

private theorem warningsOf_checkCount (count : Count) :
    warningsOf (checkCount names location count) = [] := by
  cases count with
  | times n =>
      simp only [checkCount]
      split <;> rfl
  | param name => exact warningsOf_checkParam name

private theorem warningsOf_checkProp (prop : String × PropValue) :
    warningsOf (checkProp names location prop) =
      if prop.2 = .scalar (.flag true) ∧ prop.1 ∉ Schema.validFlags ∧ prop.1 ∉ Schema.knownProps
      then [⟨.unknownFlag prop.1, location⟩] else [] := by
  obtain ⟨key, value⟩ := prop
  cases value with
  | param name => exact warningsOf_checkParam name
  | scalar value =>
      cases value with
      | flag set =>
          cases set with
          | false => rfl
          | true =>
              by_cases known : key ∈ Schema.validFlags ∨ key ∈ Schema.knownProps
              · simp [checkProp, known, ← not_or]
              · simp [checkProp, known, ← not_or, FindingCause.isError]
      | _ => rfl
  | _ => rfl

private theorem warningsOf_checkProps (props : Table PropValue) :
    warningsOf (checkProps names location props) =
      (((props.entries.filter (·.2 = .scalar (.flag true))).map Prod.fst).filter
        fun key => key ∉ Schema.validFlags ∧ key ∉ Schema.knownProps).map
          (⟨.unknownFlag ·, location⟩) := by
  rw [checkProps, warningsOf, List.filter_flatMap]
  induction props.entries with
  | nil => rfl
  | cons prop rest ih =>
      rw [List.flatMap_cons, ih]
      refine (congrArg (· ++ _) (warningsOf_checkProp prop)).trans ?_
      by_cases set : prop.2 = .scalar (.flag true)
      · simp only [set, true_and, List.filter_cons, decide_true, if_true, List.map_cons,
          decide_eq_true_eq]
        split <;> rfl
      · simp [set]

private theorem warningsOf_checkTarget (target : PropValue) :
    warningsOf ((ofDocument d).checkTarget location target) =
      (d.missing? target).toList.map (⟨·, location⟩) := by
  cases target with
  | screen id =>
      by_cases there : id ∈ d.screens.map Screen.id
      · simp [checkTarget, Document.missing?, ofDocument, there]
      · simp [checkTarget, Document.missing?, ofDocument, there, FindingCause.isError]
  | overlay id =>
      by_cases there : id ∈ d.overlays.map Overlay.id
      · simp [checkTarget, Document.missing?, ofDocument, there]
      · simp [checkTarget, Document.missing?, ofDocument, there, FindingCause.isError]
  | _ => rfl

private theorem knowsElement_iff (type : String) :
    (ofDocument d).knowsElement type ↔ d.Knows type := by
  simp [knowsElement, ofDocument, Document.Knows, or_assoc]

private theorem warningsOf_checkLayout (scope : Scope) (layout : Option String) :
    warningsOf (scope.checkLayout location layout) =
      (layout.toList.filter fun name => name ≠ "" ∧ name ∉ scope.layouts).map
        (⟨.unknownLayout ·, location⟩) := by
  cases layout with
  | none => rfl
  | some name =>
      by_cases known : name = "" ∨ name ∈ scope.layouts
      · simp [checkLayout, known, ← not_or]
      · simp [checkLayout, known, ← not_or, FindingCause.isError]

/-- The warnings at an element are about its type, its flags and the place that it leads to. -/
private theorem warningsOf_checkNode (e : Element) :
    warningsOf ((ofDocument d).checkNode names e.type e.content e.props e.location) =
      d.unknownTypes (.element e) ++ (Landmark.element e).unknownFlags ++
        d.unknownTargets (.element e) := by
  have type : warningsOf (if (ofDocument d).knowsElement e.type then [] else
      [⟨.unknownElement e.type, e.location⟩]) = d.unknownTypes (.element e) := by
    rw [Document.unknownTypes]
    by_cases known : d.Knows e.type
    · simp [knowsElement_iff, known, Landmark.type?]
    · simp [knowsElement_iff, known, Landmark.type?, Landmark.location, FindingCause.isError]
  have target : warningsOf (((e.props.find? "to").map
      ((ofDocument d).checkTarget e.location)).getD []) = d.unknownTargets (.element e) := by
    rw [Document.unknownTargets, Landmark.target?]
    cases e.props.find? "to" with
    | none => rfl
    | some target => exact warningsOf_checkTarget target
  have content : warningsOf (checkContent names e.location e.content) = [] :=
    warningsOf_checkContent e.content
  have flags : warningsOf (checkProps names e.location e.props) =
      (Landmark.element e).unknownFlags := warningsOf_checkProps e.props
  simp only [warningsOf] at type target content flags
  rw [checkNode, warningsOf, List.filter_append, List.filter_append, List.filter_append, type,
    content, flags, target, List.append_nil]

/-- The warnings at a site depend on its node only. -/
theorem filter_not_isError_checkSite (s : Site) :
    ((ofDocument d).checkSite s).filter (!·.cause.isError) =
      d.unknownTypes s.node ++ s.node.unknownFlags ++ d.unknownTargets s.node := by
  obtain ⟨node, params, around⟩ := s
  cases node with
  | element e => exact warningsOf_checkNode e
  | overlay o => exact (warningsOf_checkProps o.props).trans (List.append_nil _).symm
  | repetition r => exact warningsOf_checkCount r.count
  | _ => rfl

end Scope

namespace Document

variable (d : Document)

private theorem perm_warningsOf_sites :
    ((d.sites.flatMap (Scope.ofDocument d).checkSite).filter (!·.cause.isError)).Perm
      (d.nodes.flatMap d.unknownTypes ++ d.nodes.flatMap Landmark.unknownFlags ++
        d.nodes.flatMap d.unknownTargets) := by
  have nodes : (d.sites.flatMap (Scope.ofDocument d).checkSite).filter (!·.cause.isError) =
      d.nodes.flatMap fun l => d.unknownTypes l ++ l.unknownFlags ++ d.unknownTargets l := by
    rw [List.filter_flatMap, nodes, ← map_node_sites, List.flatMap_map]
    exact List.flatMap_congr fun s _ => Scope.filter_not_isError_checkSite s
  rw [nodes]
  refine (List.flatMap_append_perm d.nodes _ _).symm.trans (.append_right _ ?_)
  exact (List.flatMap_append_perm d.nodes _ _).symm

/-- The warnings of validation are the doubts about the document, each with the message for it and
with the place of the node that it is about. -/
theorem perm_warnings : d.warnings.Perm (d.doubts.map Finding.diagnostic) := by
  have screens : ((recurring Screen.id d.screens).map Screen.duplication).filter
      (!·.cause.isError) = [] := by
    simp [Screen.duplication, FindingCause.isError]
  have overlays : ((recurring Overlay.id d.overlays).map Overlay.duplication).filter
      (!·.cause.isError) = [] := by
    simp [Overlay.duplication, FindingCause.isError]
  have shadowers : (d.shadowers.map Component.shadowing).filter (!·.cause.isError) = [] := by
    simp [Component.shadowing, FindingCause.isError]
  have layouts : (d.screens.flatMap fun s =>
      (Scope.ofDocument d).checkLayout s.location s.layout).filter (!·.cause.isError) =
        d.unknownLayouts := by
    rw [List.filter_flatMap, unknownLayouts]
    exact List.flatMap_congr fun s _ => Scope.warningsOf_checkLayout _ s.layout
  refine ((d.perm_findings.filter _).trans ?_).map _
  rw [List.filter_append, List.filter_append, List.filter_append, List.filter_append, screens,
    overlays, shadowers, layouts, List.nil_append, List.nil_append, List.nil_append, doubts,
    List.append_assoc, List.append_assoc, ← List.append_assoc (d.nodes.flatMap d.unknownTypes)]
  exact d.perm_warningsOf_sites.append_left _

/-- A flag may stand on an overlay and an unknown element in the body of a repetition, but both are
looked for on every screen. -/
example : (ofSource 200 ("(wire (screen s :layout l (box (repeat :count 2 (gone :to #m))) " ++
    "(modal :id m :bold (button \"Go\" :to t))))")).value?.map
      (fun d => d.doubts.map Finding.diagnostic) = some
        [⟨"Reference to unknown layout 'l'", ⟨1, 7⟩⟩, ⟨"Unknown element type: 'gone'", ⟨1, 49⟩⟩,
          ⟨"Unknown flag ':bold'", ⟨1, 65⟩⟩, ⟨"Reference to unknown screen 't'", ⟨1, 84⟩⟩] := by
  decide +kernel

end Document
end Wireframe
