import Wireframe.Validation
import Mathlib.Data.List.Count
import Mathlib.Data.List.Perm.Basic

/-!
# Ids that recur

Validation walks over the screens and keeps the ids that it has met.  What it reports are the values
whose id an earlier value has, whatever stands between the two, and how often that happens to an id
does not depend on the order of the values.
-/

namespace Wireframe

section Naming

variable {α : Type} {name : α → String}

/-- The values whose name an earlier value has, in order. -/
def recurring (name : α → String) (vs : List α) : List α :=
  (vs.zipIdx.filter fun v => name v.1 ∈ (vs.take v.2).map name).map Prod.fst

/-- Those of some values whose name an earlier value has, counting those of a front as earlier. -/
private def recurringAfter (name : α → String) (front vs : List α) : List α :=
  ((vs.zipIdx front.length).filter fun v => name v.1 ∈ ((front ++ vs).take v.2).map name).map
    Prod.fst

private theorem recurringAfter_nil_left (vs : List α) :
    recurringAfter name [] vs = recurring name vs := rfl

private theorem recurringAfter_nil (front : List α) : recurringAfter name front [] = [] := rfl

private theorem recurringAfter_cons (front : List α) (v : α) (rest : List α) :
    recurringAfter name front (v :: rest) =
      (if name v ∈ front.map name then [v] else []) ++ recurringAfter name (front ++ [v]) rest := by
  have shifted : front ++ v :: rest = front ++ [v] ++ rest := by simp
  have before : (front ++ v :: rest).take front.length = front := List.take_left
  have length : (front ++ [v]).length = front.length + 1 := by simp
  rw [recurringAfter, recurringAfter, List.zipIdx_cons, List.filter_cons, before, shifted, length]
  split <;> simp_all

private theorem recurringAfter_append (front vs ws : List α) :
    recurringAfter name front (vs ++ ws) =
      recurringAfter name front vs ++ recurringAfter name (front ++ vs) ws := by
  induction vs generalizing front with
  | nil => simp [recurringAfter_nil]
  | cons v rest ih =>
      rw [List.cons_append, recurringAfter_cons, recurringAfter_cons, ih, List.append_assoc,
        List.append_assoc, List.singleton_append]

private theorem count_recurringAfter (front vs : List α) (wanted : String) :
    ((recurringAfter name front vs).map name).count wanted =
      if wanted ∈ front.map name then (vs.map name).count wanted
      else (vs.map name).count wanted - 1 := by
  induction vs generalizing front with
  | nil => simp [recurringAfter_nil]
  | cons v rest ih =>
      have next : wanted ∈ (front ++ [v]).map name ↔ wanted ∈ front.map name ∨ name v = wanted := by
        simp [eq_comm]
      rw [recurringAfter_cons, List.map_append, List.count_append, ih, List.map_cons]
      simp only [next]
      by_cases same : name v = wanted
      · subst same
        by_cases known : name v ∈ front.map name
        · simp [known, Nat.add_comm]
        · simp [known]
      · by_cases known : name v ∈ front.map name
        · simp [known, same]
        · simp [known, same]

/-- A name recurs as often as it comes after its first value. -/
theorem count_recurring (vs : List α) (wanted : String) :
    ((recurring name vs).map name).count wanted = (vs.map name).count wanted - 1 := by
  rw [← recurringAfter_nil_left, count_recurringAfter]
  exact if_neg List.not_mem_nil

example : recurring id ["a", "b", "a", "a"] = ["a", "a"] := by decide

/-- In whatever order values come, the same names recur. -/
theorem perm_recurring {vs ws : List α} (perm : vs.Perm ws) :
    ((recurring name vs).map name).Perm ((recurring name ws).map name) := by
  rw [List.perm_iff_count]
  intro wanted
  rw [count_recurring, count_recurring, (perm.map name).count_eq]

end Naming

namespace Screen

/-- What stands against a screen whose id an earlier one has. -/
def duplication (s : Screen) : Finding :=
  ⟨.duplicateScreen s.id, s.location⟩

end Screen

namespace Overlay

/-- What stands against an overlay whose id an earlier one has. -/
def duplication (o : Overlay) : Finding :=
  ⟨.duplicateOverlay o.id, o.location⟩

end Overlay

namespace Document

/-- Ids that were seen are those of the values in front. -/
private def Saw {α : Type} (seen : List String) (name : α → String) (front : List α) : Prop :=
  ∀ id, id ∈ seen ↔ id ∈ front.map name

private theorem duplicateOverlays_eq {seen : List String} {front : List Overlay}
    (saw : Saw seen Overlay.id front) (os : List Overlay) :
    duplicateOverlays seen os = (recurringAfter Overlay.id front os).map Overlay.duplication := by
  induction os generalizing seen front with
  | nil => rfl
  | cons o rest ih =>
      have next : Saw (o.id :: seen) Overlay.id (front ++ [o]) := by
        intro id
        simp [saw id, or_comm]
      rw [duplicateOverlays, recurringAfter_cons, List.map_append, ih next]
      simp only [List.contains_iff_mem, saw o.id]
      split <;> rfl

private theorem perm_duplicatesAfter {seenScreens seenOverlays : List String}
    (screens : List Screen) (overlays : List Overlay) (ss : List Screen)
    (sawScreens : Saw seenScreens Screen.id screens)
    (sawOverlays : Saw seenOverlays Overlay.id overlays) :
    (duplicates seenScreens seenOverlays ss).Perm
      ((recurringAfter Screen.id screens ss).map Screen.duplication ++
        (recurringAfter Overlay.id overlays (ss.flatMap Screen.overlays)).map
          Overlay.duplication) := by
  induction ss generalizing seenScreens seenOverlays screens overlays with
  | nil => exact .nil
  | cons s rest ih =>
      have nextScreens : Saw (s.id :: seenScreens) Screen.id (screens ++ [s]) := by
        intro id
        simp [sawScreens id, or_comm]
      have nextOverlays : Saw ((s.overlays.map Overlay.id).reverse ++ seenOverlays) Overlay.id
          (overlays ++ s.overlays) := by
        intro id
        rw [List.mem_append, List.mem_reverse, sawOverlays id, List.map_append, List.mem_append,
          or_comm]
      have here : (if seenScreens.contains s.id then [s.duplication] else []) =
          (if s.id ∈ screens.map Screen.id then [s] else []).map Screen.duplication := by
        simp only [List.contains_iff_mem, sawScreens s.id]
        split <;> rfl
      rw [List.flatMap_cons, recurringAfter_cons, recurringAfter_append, List.map_append,
        List.map_append, ← here, ← duplicateOverlays_eq sawOverlays s.overlays]
      refine ((ih _ _ nextScreens nextOverlays).append_left _).trans ?_
      simp only [List.append_assoc]
      refine List.Perm.append_left _ ?_
      rw [← List.append_assoc, ← List.append_assoc]
      exact List.perm_append_comm.append_right _

/-- What is found before any tree is entered are the screens and the overlays whose ids recur. -/
theorem perm_duplicates (ss : List Screen) :
    (duplicates [] [] ss).Perm ((recurring Screen.id ss).map Screen.duplication ++
      (recurring Overlay.id (ss.flatMap Screen.overlays)).map Overlay.duplication) :=
  perm_duplicatesAfter [] [] ss (fun _ => Iff.rfl) fun _ => Iff.rfl

end Document
end Wireframe
