import Wireframe.Proofs.Inclusions
import Wireframe.Proofs.Violations

/-!
# Resolved documents

A site is resolved if all is there that its node refers to: parameters, elements and components,
screens and overlays.  Where validation finds nothing, all sites of components and of screens are
resolved.  It does not enter layouts, so that what stands in their bodies changes nothing of what is
found, and a document that is found clean may have a layout with references to nothing.
-/

namespace Wireframe

/-- Whether all is there that a node of a document refers to. -/
structure Site.Resolved (d : Document) (s : Site) : Prop where
  /-- Something binds every parameter. -/
  params : ∀ name ∈ s.node.references, s.Binds name
  /-- The type of an element is built in, or it is that of a component. -/
  types : ∀ e, s.node = .element e → Schema.isBuiltin e.type ∨
    e.type ∈ d.components.map Component.name ∨ e.type = Schema.repeatContainer
  /-- An element leads to a screen of the document. -/
  screens : ∀ e id, s.node = .element e → e.props.find? "to" = some (.screen id) →
    id ∈ d.screens.map Screen.id
  /-- An element leads to an overlay of the document. -/
  overlays : ∀ e id, s.node = .element e → e.props.find? "to" = some (.overlay id) →
    id ∈ d.overlays.map Overlay.id

/-- Whether all is there that the components and the screens of a document refer to. -/
structure Document.Resolved (d : Document) : Prop where
  /-- The sites of components and screens are resolved. -/
  sites : ∀ s ∈ d.sites, s.Resolved d
  /-- A screen has a layout of the document, if any. -/
  layouts : ∀ s ∈ d.screens, ∀ name, s.layout = some name → name ≠ "" →
    name ∈ d.layouts.map Layout.name

namespace Scope

private theorem binds_of_checkSite_eq_nil {scope : Scope} {s : Site} {name : String}
    (nothing : scope.checkSite s = []) (referred : name ∈ s.node.references) : s.Binds name := by
  have errors := scope.filter_isError_checkSite s
  rw [nothing, List.filter_nil, eq_comm, List.append_eq_nil_iff] at errors
  have unbound := List.filter_eq_nil_iff.mp (List.map_eq_nil_iff.mp errors.1)
  simpa using unbound name referred

private theorem knowsElement_ofDocument {d : Document} {type : String}
    (known : (ofDocument d).knowsElement type) : Schema.isBuiltin type ∨
      type ∈ d.components.map Component.name ∨ type = Schema.repeatContainer := by
  simpa [knowsElement, ofDocument, or_assoc] using known

private theorem resolved_element {d : Document} {e : Element} {params : List String}
    {around : List Repetition}
    (nothing : (ofDocument d).checkSite ⟨.element e, params, around⟩ = []) :
    Site.Resolved d ⟨.element e, params, around⟩ := by
  have parts := nothing
  simp only [checkSite, checkNode, List.append_eq_nil_iff] at parts
  obtain ⟨⟨⟨type, -⟩, -⟩, target⟩ := parts
  refine ⟨fun _ => binds_of_checkSite_eq_nil nothing, ?_, ?_, ?_⟩
  · rintro _ ⟨⟩
    apply knowsElement_ofDocument
    by_contra unknown
    simp [unknown] at type
  · rintro _ id ⟨⟩ found
    by_contra unknown
    simp [found, checkTarget, ofDocument, unknown] at target
  · rintro _ id ⟨⟩ found
    by_contra unknown
    simp [found, checkTarget, ofDocument, unknown] at target

/-- A site where nothing is found is resolved. -/
theorem resolved_of_checkSite_eq_nil {d : Document} {s : Site}
    (nothing : (ofDocument d).checkSite s = []) : s.Resolved d := by
  obtain ⟨node, params, around⟩ := s
  cases node with
  | element e => exact resolved_element nothing
  | _ => exact ⟨fun _ => binds_of_checkSite_eq_nil nothing, nofun, nofun, nofun⟩

end Scope

namespace Document

variable {d : Document}

private theorem findings_eq_nil (noErrors : d.errors = []) (noWarnings : d.warnings = []) :
    d.findings = [] := by
  have errors := List.filter_eq_nil_iff.mp (List.map_eq_nil_iff.mp noErrors)
  have warnings := List.filter_eq_nil_iff.mp (List.map_eq_nil_iff.mp noWarnings)
  refine List.eq_nil_iff_forall_not_mem.mpr fun f found => warnings f found ?_
  simpa using errors f found

/-- Where validation finds neither errors nor warnings, all is there that the components and the
screens of a document refer to. -/
theorem resolved_of_clean (noErrors : d.errors = []) (noWarnings : d.warnings = []) :
    d.Resolved := by
  have nothing := d.perm_findings
  rw [findings_eq_nil noErrors noWarnings, List.nil_perm, List.append_eq_nil_iff,
    List.append_eq_nil_iff] at nothing
  obtain ⟨⟨-, layouts⟩, sites⟩ := nothing
  constructor
  · intro s member
    exact Scope.resolved_of_checkSite_eq_nil (List.flatMap_eq_nil_iff.mp sites s member)
  · intro s member name named nonempty
    have known := List.flatMap_eq_nil_iff.mp layouts s member
    by_contra unknown
    simp [named, Scope.checkLayout, nonempty, Scope.ofDocument, unknown] at known

/-- A document whose component, repetition and overlay bind and refer to names. -/
def resolvedSource : String :=
  "(wire (layout l (box (slot))) (define rows (n) (box (repeat :count $n :as i (text $i)))) " ++
    "(screen home :layout l (box (rows :n all) (button \"Go\" :to #m)) " ++
    "(modal :id m (button \"Home\" :to home))))"

theorem resolved_of_clean_source : ∃ d, ofSource 200 resolvedSource = pure d ∧
    d.errors = [] ∧ d.warnings = [] ∧ d.sites.length = 8 ∧ d.Resolved := by
  obtain ⟨errors, warnings, sites⟩ :
      (ofSource 200 resolvedSource).clean?.map errors = some [] ∧
        (ofSource 200 resolvedSource).clean?.map warnings = some [] ∧
        (ofSource 200 resolvedSource).clean?.map (·.sites.length) = some 8 := by
    decide +kernel
  obtain ⟨d, clean, noErrors⟩ := Option.map_eq_some_iff.mp errors
  rw [clean] at warnings sites
  have noWarnings := Option.some.inj warnings
  exact ⟨d, Attempt.clean?_eq_some_iff.mp clean, noErrors, noWarnings, Option.some.inj sites,
    resolved_of_clean noErrors noWarnings⟩

/-- What stands in layouts changes nothing of what is found, as long as their names are the same. -/
theorem findings_withLayouts {ls : List Layout}
    (same : ls.map Layout.name = d.layouts.map Layout.name) :
    { d with layouts := ls }.findings = d.findings := by
  simp only [findings, Scope.ofDocument, overlays, same]

/-- A document in whose layout nothing binds the parameter. -/
def unboundSource : String :=
  "(wire (layout l (text $x)) (screen home :layout l (box)))"

/-- Validation finds nothing although nothing binds a parameter in a layout. -/
theorem unresolved_layout : ∃ d, ofSource 200 unboundSource = pure d ∧
    d.errors = [] ∧ d.warnings = [] ∧ ∃ s ∈ d.layoutSites, ¬ s.Resolved d := by
  obtain ⟨errors, warnings, unbound⟩ :
      (ofSource 200 unboundSource).clean?.map errors = some [] ∧
        (ofSource 200 unboundSource).clean?.map warnings = some [] ∧
        (ofSource 200 unboundSource).clean?.map (fun d => d.layoutSites.any fun s =>
          s.node.references.any (¬ s.Binds ·)) = some true := by
    decide +kernel
  obtain ⟨d, clean, noErrors⟩ := Option.map_eq_some_iff.mp errors
  rw [clean] at warnings unbound
  refine ⟨d, Attempt.clean?_eq_some_iff.mp clean, noErrors, Option.some.inj warnings, ?_⟩
  obtain ⟨s, member, free⟩ := List.any_eq_true.mp (Option.some.inj unbound)
  obtain ⟨name, referred, unbound⟩ := List.any_eq_true.mp free
  exact ⟨s, member, fun resolved => of_decide_eq_true unbound (resolved.params name referred)⟩

end Document
end Wireframe
