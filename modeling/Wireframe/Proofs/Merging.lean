import Wireframe.Document.Basic
import Mathlib.Data.List.Basic

/-!
# Merging by name

Of several definitions of a name the last one counts, at the place where the name first comes.
Merging lists one inside the other, as files merge what they include, comes to the same as merging
them all at once.
-/

namespace Wireframe

section Repetitions

variable {α : Type} [BEq α] [LawfulBEq α]

theorem eraseDups_filter (p : α → Bool) :
    ∀ xs : List α, (xs.filter p).eraseDups = xs.eraseDups.filter p
  | [] => rfl
  | x :: rest => by
      have inner := eraseDups_filter p (rest.filter fun y => !y == x)
      rw [List.eraseDups_cons]
      by_cases kept : p x = true
      · rw [List.filter_cons_of_pos kept, List.filter_cons_of_pos kept, List.eraseDups_cons,
          List.filter_filter, ← inner, List.filter_filter]
        simp only [Bool.and_comm]
      · rw [List.filter_cons_of_neg kept, List.filter_cons_of_neg kept, ← inner, List.filter_filter]
        congr 1
        refine List.filter_congr fun y _ => ?_
        by_cases same : y = x
        · simp [same, kept]
        · simp [same]
termination_by xs => xs.length
decreasing_by exact Nat.lt_succ_of_le (List.length_filter_le _ _)

theorem eraseDups_append_congr {xs xs' ys ys' : List α} (left : xs.eraseDups = xs'.eraseDups)
    (right : ys.eraseDups = ys'.eraseDups) : (xs ++ ys).eraseDups = (xs' ++ ys').eraseDups := by
  have seen (y : α) : xs.elem y = xs'.elem y := by
    rw [Bool.eq_iff_iff, List.elem_iff, List.elem_iff, ← List.mem_eraseDups, left,
      List.mem_eraseDups]
  rw [List.eraseDups_append, List.eraseDups_append, left, List.removeAll, List.removeAll,
    eraseDups_filter, eraseDups_filter, right]
  simp only [seen]

theorem nodup_eraseDups : ∀ xs : List α, xs.eraseDups.Nodup
  | [] => List.nodup_nil
  | x :: rest => by
      rw [List.eraseDups_cons, List.nodup_cons]
      exact ⟨by simp, nodup_eraseDups (rest.filter fun y => !y == x)⟩
termination_by xs => xs.length
decreasing_by exact Nat.lt_succ_of_le (List.length_filter_le _ _)

theorem eraseDups_of_nodup {xs : List α} (distinct : xs.Nodup) : xs.eraseDups = xs := by
  induction xs with
  | nil => rfl
  | cons x rest ih =>
      rw [List.nodup_cons] at distinct
      have others : (rest.filter fun y => !y == x) = rest :=
        List.filter_eq_self.mpr fun y member => by
          have differs : y ≠ x := fun same => distinct.1 (same ▸ member)
          simp [differs]
      rw [List.eraseDups_cons, others, ih distinct.2]

end Repetitions

section Naming

variable {α : Type} {name : α → String} {wanted : String} {us us' vs vs' : List α} {v : α}

/-- The last value of a name. -/
def lastOf? (name : α → String) (values : List α) (wanted : String) : Option α :=
  values.reverse.find? (name · == wanted)

/-- Each name where it first comes, with the value that comes last. -/
def lastByName (name : α → String) (values : List α) : List α :=
  (values.map name).eraseDups.filterMap (lastOf? name values)

theorem lastOf?_append :
    lastOf? name (us ++ vs) wanted = (lastOf? name vs wanted).or (lastOf? name us wanted) := by
  rw [lastOf?, List.reverse_append, List.find?_append]
  rfl

theorem name_of_lastOf? (found : lastOf? name vs wanted = some v) : name v = wanted := by
  simpa using List.find?_some found

theorem mem_of_lastOf? (found : lastOf? name vs wanted = some v) : v ∈ vs :=
  List.mem_reverse.mp (List.mem_of_find?_eq_some found)

theorem isSome_lastOf? : (lastOf? name vs wanted).isSome ↔ wanted ∈ vs.map name := by
  simp [lastOf?]

theorem mem_lastByName : v ∈ lastByName name vs ↔ lastOf? name vs (name v) = some v := by
  rw [lastByName, List.mem_filterMap]
  constructor
  · rintro ⟨n, -, found⟩
    rw [name_of_lastOf? found]
    exact found
  · intro found
    refine ⟨name v, ?_, found⟩
    rw [List.mem_eraseDups]
    exact List.mem_map_of_mem (mem_of_lastOf? found)

theorem map_name_lastByName : (lastByName name vs).map name = (vs.map name).eraseDups := by
  rw [lastByName, List.map_filterMap]
  refine (List.filterMap_congr fun n member => ?_).trans List.filterMap_some
  rw [List.mem_eraseDups, ← isSome_lastOf?] at member
  obtain ⟨v, found⟩ := Option.isSome_iff_exists.mp member
  rw [found, Option.map_some, name_of_lastOf? found]

/-- Merging keeps the last value of every name. -/
theorem lastOf?_lastByName :
    lastOf? name (lastByName name vs) wanted = lastOf? name vs wanted := by
  cases found : lastOf? name (lastByName name vs) wanted with
  | some v =>
      have last := mem_lastByName.mp (mem_of_lastOf? found)
      rw [name_of_lastOf? found] at last
      exact last.symm
  | none =>
      have absent : wanted ∉ vs.map name := by
        rw [← List.mem_eraseDups, ← map_name_lastByName, ← isSome_lastOf?, found]
        exact Bool.false_ne_true
      rw [← isSome_lastOf?, Option.not_isSome_iff_eq_none] at absent
      exact absent.symm

/-- Lists merge into the same if they have the same names in the same order, and the same last value
of each. -/
theorem lastByName_eq_iff : lastByName name us = lastByName name vs ↔
    (us.map name).eraseDups = (vs.map name).eraseDups ∧
      ∀ n, lastOf? name us n = lastOf? name vs n := by
  constructor
  · intro same
    refine ⟨?_, fun n => ?_⟩
    · rw [← map_name_lastByName, same, map_name_lastByName]
    · rw [← lastOf?_lastByName, same, lastOf?_lastByName]
  · rintro ⟨names, last⟩
    rw [lastByName, names, funext last, lastByName]

/-- What is merged already may be merged once more. -/
theorem lastByName_lastByName : lastByName name (lastByName name vs) = lastByName name vs := by
  refine lastByName_eq_iff.mpr ⟨?_, fun n => lastOf?_lastByName⟩
  rw [map_name_lastByName]
  exact eraseDups_of_nodup (nodup_eraseDups _)

/-- Whether lists are merged before they are put together or only then makes no difference. -/
theorem lastByName_append_congr (left : lastByName name us = lastByName name us')
    (right : lastByName name vs = lastByName name vs') :
    lastByName name (us ++ vs) = lastByName name (us' ++ vs') := by
  obtain ⟨leftNames, leftLast⟩ := lastByName_eq_iff.mp left
  obtain ⟨rightNames, rightLast⟩ := lastByName_eq_iff.mp right
  refine lastByName_eq_iff.mpr ⟨?_, fun n => ?_⟩
  · rw [List.map_append, List.map_append]
    exact eraseDups_append_congr leftNames rightNames
  · rw [lastOf?_append, lastOf?_append, leftLast, rightLast]

end Naming

namespace Table

variable {α : Type}

theorem keys_insertAll (t : Table α) (entries : List (String × α)) :
    (t.insertAll entries).keys = (t.keys ++ entries.map Prod.fst).eraseDups := by
  induction entries generalizing t with
  | nil =>
      rw [insertAll_nil, List.map_nil, List.append_nil]
      exact (eraseDups_of_nodup t.nodup_keys).symm
  | cons entry rest ih =>
      rw [insertAll_cons, ih, keys_insert, List.map_cons]
      split
      · rename_i known
        rw [List.eraseDups_append, List.eraseDups_append, List.cons_removeAll]
        simp [known]
      · rw [List.append_assoc, List.singleton_append]

theorem values_eq_filterMap (t : Table α) : t.values = t.keys.filterMap t.find? := by
  rw [keys, List.filterMap_map, values, ← List.filterMap_eq_map]
  refine List.filterMap_congr fun entry member => ?_
  exact ((find?_eq_some_iff t entry.1 entry.2).mpr member).symm

variable (name : α → String) (vs : List α)

theorem lookup_map_name (wanted : String) :
    (vs.map fun v => (name v, v)).lookup wanted = vs.find? (name · == wanted) := by
  induction vs with
  | nil => rfl
  | cons v rest ih =>
      rw [List.map_cons, lookup_cons_if, ih, List.find?_cons]
      by_cases same : name v = wanted
      · simp [same]
      · rw [if_neg (Ne.symm same), beq_false_of_ne same]

theorem find?_ofList_map (wanted : String) :
    (ofList (vs.map fun v => (name v, v))).find? wanted = lastOf? name vs wanted := by
  rw [ofList, find?_insertAll, find?_empty, Option.or_none, ← List.map_reverse, lookup_map_name]
  rfl

/-- A table of named values merges them. -/
theorem values_ofList_map :
    (ofList (vs.map fun v => (name v, v))).values = lastByName name vs := by
  have keys : (ofList (vs.map fun v => (name v, v))).keys = (vs.map name).eraseDups := by
    rw [ofList, keys_insertAll, keys_empty, List.nil_append, List.map_map]
    rfl
  rw [values_eq_filterMap, keys, lastByName]
  exact List.filterMap_congr fun n _ => find?_ofList_map name vs n

end Table

namespace Document

theorem component?_eq_lastOf? (d : Document) (name : String) :
    d.component? name = lastOf? Component.name d.components name :=
  Table.find?_ofList_map _ _ name

theorem layout?_eq_lastOf? (d : Document) (name : String) :
    d.layout? name = lastOf? Layout.name d.layouts name :=
  Table.find?_ofList_map _ _ name

end Document
end Wireframe
