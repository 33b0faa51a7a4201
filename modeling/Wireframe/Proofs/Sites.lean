import Wireframe.Proofs.Landmark
import Wireframe.Validation

/-!
# Sites

A site is a node of a document together with what binds names for it: the parameters of the
component in whose body it stands, and the repetitions in whose bodies it stands.  What validation
finds in a tree is what it finds at the sites of the tree, one after the other, so that its other
laws are about single nodes.
-/

namespace Wireframe

/-- The parameter that a value refers to. -/
def PropValue.param? : PropValue → Option String
  | param name => some name
  | _ => none

/-- The parameter that a content refers to. -/
def Content.param? : Content → Option String
  | param name => some name
  | text _ => none

/-- The parameter that a count refers to. -/
def Count.param? : Count → Option String
  | param name => some name
  | times _ => none

namespace Landmark

/-- The parameters that a node itself refers to, as often as it does: an element in its content and
its properties, an overlay in its properties, a repetition in its count. -/
def references : Landmark → List String
  | element e => (e.content.bind Content.param?).toList ++ e.props.entries.filterMap (·.2.param?)
  | overlay o => o.props.entries.filterMap (·.2.param?)
  | repetition r => r.count.param?.toList
  | _ => []

/-- Whether a node is a repetition whose count is a number below one. -/
def isEmptyRepetition : Landmark → Bool
  | repetition ⟨.times n, _, _, _⟩ => n < 1
  | _ => false

end Landmark

namespace Scope

variable {name : String}

/-- The names that parameters and repetitions bind, of which the innermost comes first. -/
def bindAll (params : List String) (around : List Repetition) : List String :=
  around.foldr (fun r names => bind names r.counter) params

/-- A repetition binds the name under which it counts, unless that is empty. -/
theorem mem_bind {names : List String} {counter : Option String} :
    name ∈ bind names counter ↔ name ∈ names ∨ name ≠ "" ∧ counter = some name := by
  cases counter with
  | none => simp [bind]
  | some bound =>
      by_cases empty : bound = ""
      · subst empty
        simp [bind, eq_comm]
      · simp only [bind, empty, if_false, List.mem_cons, Option.some.injEq]
        constructor
        · rintro (rfl | member)
          · exact Or.inr ⟨empty, rfl⟩
          · exact Or.inl member
        · rintro (member | ⟨-, rfl⟩)
          · exact Or.inr member
          · exact Or.inl rfl

end Scope

/-- A node of a document with what binds names for it. -/
structure Site where
  /-- The node. -/
  node : Landmark
  /-- The parameters of the component in whose body the node stands. -/
  params : List String
  /-- The repetitions in whose bodies the node stands, the innermost first. -/
  around : List Repetition

namespace Site

variable {s : Site} {name : String}

/-- Whether a name is that of a parameter, or that under which a repetition around the node counts;
an empty name is none. -/
def Binds (s : Site) (name : String) : Prop :=
  name ∈ s.params ∨ name ≠ "" ∧ ∃ r ∈ s.around, r.counter = some name

instance : Decidable (s.Binds name) :=
  inferInstanceAs (Decidable (_ ∨ _))

/-- The names that are bound at a site. -/
def names (s : Site) : List String :=
  Scope.bindAll s.params s.around

theorem mem_names : name ∈ s.names ↔ s.Binds name := by
  obtain ⟨node, params, around⟩ := s
  induction around with
  | nil => simp [names, Scope.bindAll, Binds]
  | cons r outer ih =>
      calc name ∈ Scope.bind (Scope.bindAll params outer) r.counter
          ↔ name ∈ Scope.bindAll params outer ∨ name ≠ "" ∧ r.counter = some name :=
            Scope.mem_bind
        _ ↔ (name ∈ params ∨ name ≠ "" ∧ ∃ q ∈ outer, q.counter = some name) ∨
              name ≠ "" ∧ r.counter = some name := or_congr_left ih
        _ ↔ name ∈ params ∨
              name ≠ "" ∧ (r.counter = some name ∨ ∃ q ∈ outer, q.counter = some name) := by
            rw [or_assoc, ← and_or_left, or_comm (a := r.counter = _)]
        _ ↔ Binds ⟨node, params, r :: outer⟩ name := by
            simp only [Binds, List.mem_cons, exists_eq_or_imp]

end Site

mutual

/-- The sites of an element and of all nodes inside it. -/
def Element.sites (params : List String) (around : List Repetition) : Element → List Site
  | ⟨type, content, props, children, location, isComponent⟩ =>
    ⟨.element ⟨type, content, props, children, location, isComponent⟩, params, around⟩ ::
      Child.sitesAll params around children

/-- The sites of a repetition and of all nodes inside it: the repetition is around its body, but not
around its own count. -/
def Repetition.sites (params : List String) (around : List Repetition) : Repetition → List Site
  | ⟨count, counter, body, location⟩ =>
    ⟨.repetition ⟨count, counter, body, location⟩, params, around⟩ ::
      body.sites params (⟨count, counter, body, location⟩ :: around)

/-- The sites of a node and of all nodes inside it. -/
def Child.sites (params : List String) (around : List Repetition) : Child → List Site
  | .element e => e.sites params around
  | .repetition r => r.sites params around

/-- The sites of nodes and of all nodes inside them. -/
def Child.sitesAll (params : List String) (around : List Repetition) : List Child → List Site
  | [] => []
  | child :: rest => child.sites params around ++ Child.sitesAll params around rest

end

mutual

theorem Element.map_node_sites (params : List String) (around : List Repetition) :
    ∀ e : Element, (e.sites params around).map Site.node = e.landmarks
  | ⟨type, content, props, children, location, isComponent⟩ => by
      rw [Element.sites, Element.landmarks, List.map_cons,
        Child.map_node_sitesAll params around children]

theorem Repetition.map_node_sites (params : List String) (around : List Repetition) :
    ∀ r : Repetition, (r.sites params around).map Site.node = r.landmarks
  | ⟨count, counter, body, location⟩ => by
      rw [Repetition.sites, Repetition.landmarks, List.map_cons,
        Element.map_node_sites params _ body]

theorem Child.map_node_sites (params : List String) (around : List Repetition) :
    ∀ c : Child, (c.sites params around).map Site.node = c.landmarks
  | .element e => by
      rw [Child.sites, Child.landmarks, Element.map_node_sites params around e]
  | .repetition r => by
      rw [Child.sites, Child.landmarks, Repetition.map_node_sites params around r]

theorem Child.map_node_sitesAll (params : List String) (around : List Repetition) :
    ∀ cs : List Child, (Child.sitesAll params around cs).map Site.node = Child.landmarksAll cs
  | [] => rfl
  | child :: rest => by
      rw [Child.sitesAll, Child.landmarksAll, List.map_append,
        Child.map_node_sites params around child, Child.map_node_sitesAll params around rest]

end

/-- The sites in the body of a component, where its parameters are bound. -/
def Component.sites (c : Component) : List Site :=
  c.body.sites c.params []

/-- The sites in the body of a layout, which has no parameters. -/
def Layout.sites (l : Layout) : List Site :=
  l.body.sites [] []

/-- The sites of an overlay and of all nodes inside it. -/
def Overlay.sites (o : Overlay) : List Site :=
  ⟨.overlay o, [], []⟩ :: Child.sitesAll [] [] o.children

/-- The sites in the root and in the overlays of a screen. -/
def Screen.sites (s : Screen) : List Site :=
  s.root.sites [] [] ++ s.overlays.flatMap Overlay.sites

namespace Document

/-- The sites in components and in screens. -/
def sites (d : Document) : List Site :=
  d.components.flatMap Component.sites ++ d.screens.flatMap Screen.sites

/-- The sites in layouts. -/
def layoutSites (d : Document) : List Site :=
  d.layouts.flatMap Layout.sites

/-- Every node in a component or a screen has one site. -/
theorem map_node_sites (d : Document) : d.sites.map Site.node =
    d.components.flatMap (·.body.landmarks) ++
      d.screens.flatMap fun s => s.root.landmarks ++ s.overlays.flatMap Overlay.landmarks := by
  have overlay (o : Overlay) : o.sites.map Site.node = o.landmarks := by
    rw [Overlay.sites, List.map_cons, Child.map_node_sitesAll, Overlay.landmarks]
  simp only [sites, Component.sites, Screen.sites, List.map_append, List.map_flatMap,
    Element.map_node_sites, overlay]

theorem map_node_layoutSites (d : Document) :
    d.layoutSites.map Site.node = d.layouts.flatMap (·.body.landmarks) := by
  simp only [layoutSites, Layout.sites, List.map_flatMap, Element.map_node_sites]

end Document

namespace Scope

variable (scope : Scope)

/-- The findings for a node, the nodes inside it apart. -/
def checkSite (s : Site) : List Finding :=
  match s.node with
  | .element e => scope.checkNode s.names e.type e.content e.props e.location
  | .overlay o => checkProps s.names o.location o.props
  | .repetition r => checkCount s.names r.location r.count
  | _ => []

mutual

theorem checkElement_eq (params : List String) (around : List Repetition) :
    ∀ e : Element, scope.checkElement (bindAll params around) e =
      (e.sites params around).flatMap scope.checkSite
  | ⟨type, content, props, children, location, isComponent⟩ => by
      rw [checkElement, Element.sites, List.flatMap_cons, checkChildren_eq params around children]
      rfl

theorem checkRepetition_eq (params : List String) (around : List Repetition) :
    ∀ r : Repetition, scope.checkRepetition (bindAll params around) r =
      (r.sites params around).flatMap scope.checkSite
  | ⟨count, counter, body, location⟩ => by
      rw [checkRepetition, Repetition.sites, List.flatMap_cons, ← checkElement_eq params _ body]
      rfl

theorem checkChild_eq (params : List String) (around : List Repetition) :
    ∀ c : Child, scope.checkChild (bindAll params around) c =
      (c.sites params around).flatMap scope.checkSite
  | .element e => by rw [checkChild, Child.sites, checkElement_eq params around e]
  | .repetition r => by rw [checkChild, Child.sites, checkRepetition_eq params around r]

/-- What is found in trees is what is found at their sites. -/
theorem checkChildren_eq (params : List String) (around : List Repetition) :
    ∀ cs : List Child, scope.checkChildren (bindAll params around) cs =
      (Child.sitesAll params around cs).flatMap scope.checkSite
  | [] => rfl
  | child :: rest => by
      rw [checkChildren, Child.sitesAll, List.flatMap_append, checkChild_eq params around child,
        checkChildren_eq params around rest]

end

theorem checkComponent_eq (c : Component) : scope.checkComponent c =
    (if Schema.isBuiltin c.name then [⟨.shadowing c.name, c.location⟩] else []) ++
      c.sites.flatMap scope.checkSite := by
  rw [checkComponent, Component.sites, ← checkElement_eq]
  rfl

theorem checkOverlay_eq (o : Overlay) : scope.checkOverlay o = o.sites.flatMap scope.checkSite := by
  rw [checkOverlay, Overlay.sites, List.flatMap_cons, ← checkChildren_eq]
  rfl

/-- What is found in a screen, apart from its layout, is what is found at its sites. -/
theorem checkScreen_eq (s : Screen) : scope.checkScreen s =
    scope.checkLayout s.location s.layout ++ s.sites.flatMap scope.checkSite := by
  have overlays : s.overlays.flatMap scope.checkOverlay =
      (s.overlays.flatMap Overlay.sites).flatMap scope.checkSite := by
    rw [List.flatMap_assoc]
    exact List.flatMap_congr fun o _ => scope.checkOverlay_eq o
  rw [checkScreen, Screen.sites, List.flatMap_append, ← checkElement_eq, overlays,
    List.append_assoc]
  rfl

end Scope
end Wireframe
