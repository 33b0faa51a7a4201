import Wireframe.Proofs.Inclusions
import Mathlib.Data.List.Nodup

/-!
# Definitions that are replaced

Merging a document keeps the last definition of every name.  The names that it defines stay the
same, and so does what validation finds in every node that is kept.  All that it does not find any
more is what stands inside definitions that later ones replace.
-/

namespace Wireframe

section Naming

variable {α : Type} {name : α → String} {vs : List α} {v : α}

/-- The values that a later value of their name replaces. -/
def overridden (name : α → String) : List α → List α
  | [] => []
  | v :: rest =>
    if name v ∈ rest.map name then v :: overridden name rest else overridden name rest

/-- The values that no later value of their name replaces. -/
private def standing (name : α → String) : List α → List α
  | [] => []
  | v :: rest => if name v ∈ rest.map name then standing name rest else v :: standing name rest

private theorem lastOf?_cons {wanted : String} :
    lastOf? name (v :: vs) wanted =
      (lastOf? name vs wanted).or (if name v = wanted then some v else none) := by
  rw [← List.singleton_append, lastOf?_append]
  by_cases same : name v = wanted <;> simp [lastOf?, same]

private theorem mem_standing : v ∈ standing name vs ↔ lastOf? name vs (name v) = some v := by
  induction vs with
  | nil => simp [standing, lastOf?]
  | cons u rest ih =>
      have some : name u ∈ rest.map name ↔ ∃ w, lastOf? name rest (name u) = some w := by
        rw [← isSome_lastOf?, Option.isSome_iff_exists]
      rw [lastOf?_cons, standing]
      by_cases later : name u ∈ rest.map name
      · obtain ⟨w, found⟩ := some.mp later
        rw [if_pos later, ih]
        by_cases same : name u = name v
        · simp [← same, found]
        · simp [same]
      · have none : lastOf? name rest (name u) = none := by
          rw [← Option.not_isSome_iff_eq_none, isSome_lastOf?]
          exact later
        rw [if_neg later, List.mem_cons, ih]
        by_cases same : name u = name v
        · rw [← same, none, if_pos rfl, Option.none_or, Option.some.injEq]
          simp [eq_comm]
        · have differs : v ≠ u := fun equal => same (equal ▸ rfl)
          simp [same, differs]

private theorem nodup_standing : (standing name vs).Nodup := by
  induction vs with
  | nil => exact List.nodup_nil
  | cons u rest ih =>
      rw [standing]
      split
      · exact ih
      · rename_i last
        refine List.nodup_cons.mpr ⟨fun member => last ?_, ih⟩
        rw [mem_standing] at member
        rw [← isSome_lastOf?, member]
        rfl

private theorem perm_standing : vs.Perm (standing name vs ++ overridden name vs) := by
  induction vs with
  | nil => exact .nil
  | cons u rest ih =>
      rw [standing, overridden]
      split
      · exact (ih.cons u).trans List.perm_middle.symm
      · exact ih.cons u

theorem nodup_lastByName : (lastByName name vs).Nodup := by
  refine List.Nodup.of_map name ?_
  rw [map_name_lastByName]
  exact nodup_eraseDups _

/-- Merging keeps all values but those that are replaced. -/
theorem perm_lastByName : vs.Perm (lastByName name vs ++ overridden name vs) := by
  refine perm_standing.trans (List.Perm.append_right _ ?_)
  refine (List.perm_ext_iff_of_nodup nodup_standing nodup_lastByName).mpr fun v => ?_
  rw [mem_standing, mem_lastByName]

/-- Merging leaves values alone that have names of their own. -/
theorem lastByName_of_nodup (distinct : (vs.map name).Nodup) : lastByName name vs = vs := by
  have entries : ((Table.empty.entries ++ vs.map fun v => (name v, v)).map Prod.fst).Nodup := by
    rw [Table.entries_empty, List.nil_append, List.map_map]
    exact distinct
  rw [← Table.values_ofList_map, Table.values, Table.ofList, Table.entries_insertAll entries,
    Table.entries_empty, List.nil_append, List.map_map]
  exact List.map_id _

end Naming

namespace Scope

/-- Whether two scopes know the same names. -/
structure SameNames (s t : Scope) : Prop where
  screens : ∀ id, id ∈ s.screens ↔ id ∈ t.screens
  overlays : ∀ id, id ∈ s.overlays ↔ id ∈ t.overlays
  components : ∀ name, name ∈ s.components ↔ name ∈ t.components
  layouts : ∀ name, name ∈ s.layouts ↔ name ∈ t.layouts

variable {s t : Scope}

private theorem contains_congr {xs ys : List String} (same : ∀ x, x ∈ xs ↔ x ∈ ys) (x : String) :
    xs.contains x = ys.contains x := by
  rw [Bool.eq_iff_iff, List.contains_iff_mem, List.contains_iff_mem, same]

private theorem checkTarget_congr (same : s.SameNames t) (location : Option Location) :
    s.checkTarget location = t.checkTarget location := by
  funext target
  simp only [checkTarget, contains_congr same.screens, contains_congr same.overlays]

private theorem checkNode_congr (same : s.SameNames t) : s.checkNode = t.checkNode := by
  have elements : s.knowsElement = t.knowsElement := by
    funext name
    rw [knowsElement, knowsElement, contains_congr same.components]
  funext params type content props location
  rw [checkNode, checkNode, elements, checkTarget_congr same]

mutual

theorem checkElement_congr (same : s.SameNames t) (params : List String) :
    ∀ e : Element, s.checkElement params e = t.checkElement params e
  | ⟨type, content, props, children, location, isComponent⟩ => by
      rw [checkElement, checkElement, checkNode_congr same,
        checkChildren_congr same params children]

theorem checkRepetition_congr (same : s.SameNames t) (params : List String) :
    ∀ r : Repetition, s.checkRepetition params r = t.checkRepetition params r
  | ⟨count, counter, body, location⟩ => by
      rw [checkRepetition, checkRepetition, checkElement_congr same (bind params counter) body]

theorem checkChild_congr (same : s.SameNames t) (params : List String) :
    ∀ c : Child, s.checkChild params c = t.checkChild params c
  | .element e => by rw [checkChild, checkChild, checkElement_congr same params e]
  | .repetition r => by rw [checkChild, checkChild, checkRepetition_congr same params r]

theorem checkChildren_congr (same : s.SameNames t) (params : List String) :
    ∀ cs : List Child, s.checkChildren params cs = t.checkChildren params cs
  | [] => rfl
  | child :: rest => by
      rw [checkChildren, checkChildren, checkChild_congr same params child,
        checkChildren_congr same params rest]

end

theorem checkComponent_congr (same : s.SameNames t) : s.checkComponent = t.checkComponent := by
  funext c
  rw [checkComponent, checkComponent, checkElement_congr same]

theorem checkScreen_congr (same : s.SameNames t) : s.checkScreen = t.checkScreen := by
  have overlays : s.checkOverlay = t.checkOverlay := by
    funext o
    rw [checkOverlay, checkOverlay, checkChildren_congr same]
  have layouts : s.checkLayout = t.checkLayout := by
    funext location name
    cases name with
    | none => rfl
    | some name => simp only [checkLayout, contains_congr same.layouts]
  funext screen
  rw [checkScreen, checkScreen, overlays, layouts, checkElement_congr same]

end Scope

namespace Finding

/-- Those of some findings that make a document unusable. -/
def errors (found : List Finding) : List Diagnostic :=
  (found.filter (·.cause.isError)).map diagnostic

/-- Those of some findings that may be meant. -/
def warnings (found : List Finding) : List Diagnostic :=
  (found.filter (!·.cause.isError)).map diagnostic

end Finding

namespace Document

variable (d : Document)

/-- What stands against components that later ones replace. -/
def overriddenFindings : List Finding :=
  (overridden Component.name d.components).flatMap (Scope.ofDocument d).checkComponent

theorem sameNames_merging :
    (Scope.ofDocument (d.merging d.components d.layouts)).SameNames (.ofDocument d) where
  screens _ := .rfl
  overlays _ := .rfl
  components name := by
    simp only [Scope.ofDocument, merging, map_name_lastByName, List.mem_eraseDups]
  layouts name := by
    simp only [Scope.ofDocument, merging, map_name_lastByName, List.mem_eraseDups]

theorem findings_merging : (d.merging d.components d.layouts).findings =
    duplicates [] [] d.screens ++
      (lastByName Component.name d.components).flatMap (Scope.ofDocument d).checkComponent ++
        d.screens.flatMap (Scope.ofDocument d).checkScreen := by
  rw [findings, Scope.checkComponent_congr d.sameNames_merging,
    Scope.checkScreen_congr d.sameNames_merging]
  rfl

/-- Merging a document hides what stands against components that are replaced, and no more. -/
theorem perm_findings_merging :
    d.findings.Perm ((d.merging d.components d.layouts).findings ++ d.overriddenFindings) := by
  have kept : (d.components.flatMap (Scope.ofDocument d).checkComponent).Perm
      ((lastByName Component.name d.components).flatMap (Scope.ofDocument d).checkComponent ++
        d.overriddenFindings) := by
    rw [overriddenFindings, ← List.flatMap_append]
    exact perm_lastByName.flatMap_right _
  rw [findings_merging, findings]
  refine ((kept.append_left _).append_right _).trans ?_
  simp only [List.append_assoc]
  exact (List.perm_append_comm.append_left _).append_left _

theorem perm_errors_merging : d.errors.Perm
    ((d.merging d.components d.layouts).errors ++ Finding.errors d.overriddenFindings) := by
  rw [errors, errors, Finding.errors, ← List.map_append, ← List.filter_append]
  exact (d.perm_findings_merging.filter _).map _

theorem perm_warnings_merging : d.warnings.Perm
    ((d.merging d.components d.layouts).warnings ++ Finding.warnings d.overriddenFindings) := by
  rw [warnings, warnings, Finding.warnings, ← List.map_append, ← List.filter_append]
  exact (d.perm_findings_merging.filter _).map _

/-- Where no component is defined twice merging leaves all findings in their order. -/
theorem findings_merging_of_nodup {d : Document}
    (distinct : (d.components.map Component.name).Nodup) :
    (d.merging d.components d.layouts).findings = d.findings := by
  rw [findings_merging, lastByName_of_nodup distinct, findings]

end Document
end Wireframe
