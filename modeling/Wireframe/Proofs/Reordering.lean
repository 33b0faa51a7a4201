import Wireframe.Proofs.Overriding
import Wireframe.Proofs.Recurring

/-!
# The order of definitions

Validation knows all names of a document before it enters any of its definitions.  In whatever order
components, layouts and screens stand, the same is found in each of them; and although it depends on
the order which of two screens comes second, it does not depend on it how often an id recurs.
-/

namespace Wireframe
namespace Document

/-- Whether two documents have the same components, layouts and screens, in whatever order. -/
structure Reordered (d e : Document) : Prop where
  components : d.components.Perm e.components
  layouts : d.layouts.Perm e.layouts
  screens : d.screens.Perm e.screens

variable {d e : Document}

namespace Reordered

theorem overlays (same : d.Reordered e) : d.overlays.Perm e.overlays :=
  same.screens.flatMap_right _

theorem sameNames (same : d.Reordered e) :
    (Scope.ofDocument d).SameNames (.ofDocument e) where
  screens _ := (same.screens.map _).mem_iff
  overlays _ := (same.overlays.map _).mem_iff
  components _ := (same.components.map _).mem_iff
  layouts _ := (same.layouts.map _).mem_iff

end Reordered

/-- What is found inside the components and the screens of a document. -/
private def insideFindings (d : Document) : List Finding :=
  d.components.flatMap (Scope.ofDocument d).checkComponent ++
    d.screens.flatMap (Scope.ofDocument d).checkScreen

private theorem findings_eq (d : Document) :
    d.findings = duplicates [] [] d.screens ++ d.insideFindings :=
  List.append_assoc ..

private theorem perm_insideFindings (same : d.Reordered e) :
    d.insideFindings.Perm e.insideFindings := by
  rw [insideFindings, insideFindings, Scope.checkComponent_congr same.sameNames,
    Scope.checkScreen_congr same.sameNames]
  exact (same.components.flatMap_right _).append (same.screens.flatMap_right _)

private theorem isError_of_mem_duplicates {ss : List Screen} {f : Finding}
    (found : f ∈ duplicates [] [] ss) : f.cause.isError := by
  rw [(perm_duplicates ss).mem_iff, List.mem_append, List.mem_map, List.mem_map] at found
  rcases found with ⟨s, -, rfl⟩ | ⟨o, -, rfl⟩
  · rfl
  · rfl

private theorem perm_messages_duplicates (same : d.Reordered e) :
    ((duplicates [] [] d.screens).map (·.cause.message)).Perm
      ((duplicates [] [] e.screens).map (·.cause.message)) := by
  have messages (ss : List Screen) : ((duplicates [] [] ss).map (·.cause.message)).Perm
      (((recurring Screen.id ss).map Screen.id).map
          (fun id => (FindingCause.duplicateScreen id).message) ++
        ((recurring Overlay.id (ss.flatMap Screen.overlays)).map Overlay.id).map
          (fun id => (FindingCause.duplicateOverlay id).message)) := by
    refine ((perm_duplicates ss).map _).trans (.of_eq ?_)
    rw [List.map_append, List.map_map, List.map_map, List.map_map, List.map_map]
    rfl
  refine (messages d.screens).trans (.trans ?_ (messages e.screens).symm)
  exact ((perm_recurring same.screens).map _).append ((perm_recurring same.overlays).map _)

/-- In whatever order components, layouts and screens stand, validation gives the same warnings at
the same places, the same messages of errors, and the same verdict. -/
theorem perm_of_reordered (same : d.Reordered e) : d.warnings.Perm e.warnings ∧
    (d.errors.map Diagnostic.message).Perm (e.errors.map Diagnostic.message) ∧
    d.isValid = e.isValid := by
  have messages (d : Document) : d.errors.map Diagnostic.message =
      (duplicates [] [] d.screens).map (·.cause.message) ++
        (d.insideFindings.filter (·.cause.isError)).map (·.cause.message) := by
    rw [errors, findings_eq, List.filter_append,
      List.filter_eq_self.mpr fun _ => isError_of_mem_duplicates, List.map_map, List.map_append]
    rfl
  have warnings (d : Document) : d.warnings =
      (d.insideFindings.filter (!·.cause.isError)).map Finding.diagnostic := by
    have none : (duplicates [] [] d.screens).filter (!·.cause.isError) = [] :=
      List.filter_eq_nil_iff.mpr fun f found => by simp [isError_of_mem_duplicates found]
    rw [Document.warnings, findings_eq, List.filter_append, none, List.nil_append]
  have errors : (d.errors.map Diagnostic.message).Perm (e.errors.map Diagnostic.message) := by
    rw [messages, messages]
    exact (perm_messages_duplicates same).append (((perm_insideFindings same).filter _).map _)
  refine ⟨?_, errors, ?_⟩
  · rw [warnings, warnings]
    exact ((perm_insideFindings same).filter _).map _
  · rw [isValid, isValid, ← List.isEmpty_map, errors.isEmpty_eq, List.isEmpty_map]

/-- A document whose definitions stand in the reverse order. -/
def reversed (d : Document) : Document :=
  { d with
    components := d.components.reverse
    layouts := d.layouts.reverse
    screens := d.screens.reverse }

theorem reordered_reversed (d : Document) : d.Reordered d.reversed :=
  ⟨(List.reverse_perm _).symm, (List.reverse_perm _).symm, (List.reverse_perm _).symm⟩

/-- A document with two screens of one id, one of which leads to no screen. -/
def recurringSource : String :=
  "(wire (define c () (text $x)) (screen home (c)) (screen home (box :to gone)))"

/-- The second screen of an id is another one, but the messages are the same. -/
theorem perm_of_reordered_reversed : ∃ d, ofSource 200 recurringSource = pure d ∧
    d.errors = [⟨"Duplicate screen ID: 'home'", ⟨1, 49⟩⟩,
      ⟨"Unknown parameter reference '$x'", ⟨1, 20⟩⟩] ∧
    d.reversed.errors = [⟨"Duplicate screen ID: 'home'", ⟨1, 31⟩⟩,
      ⟨"Unknown parameter reference '$x'", ⟨1, 20⟩⟩] ∧
    d.Reordered d.reversed ∧ d.warnings.Perm d.reversed.warnings ∧
    (d.errors.map Diagnostic.message).Perm (d.reversed.errors.map Diagnostic.message) ∧
    d.isValid = d.reversed.isValid := by
  obtain ⟨forwards, backwards⟩ :
      (ofSource 200 recurringSource).clean?.map errors =
          some [⟨"Duplicate screen ID: 'home'", ⟨1, 49⟩⟩,
            ⟨"Unknown parameter reference '$x'", ⟨1, 20⟩⟩] ∧
        (ofSource 200 recurringSource).clean?.map (·.reversed.errors) =
          some [⟨"Duplicate screen ID: 'home'", ⟨1, 31⟩⟩,
            ⟨"Unknown parameter reference '$x'", ⟨1, 20⟩⟩] := by
    decide +kernel
  obtain ⟨d, clean, errors⟩ := Option.map_eq_some_iff.mp forwards
  rw [clean] at backwards
  exact ⟨d, Attempt.clean?_eq_some_iff.mp clean, errors, Option.some.inj backwards,
    d.reordered_reversed, perm_of_reordered d.reordered_reversed⟩

end Document
end Wireframe
