/-!
# Tables

A table holds one value per key and remembers the order in which the keys first came.  Giving a
key a new value keeps its place.
-/

namespace Wireframe

/-- Values by key, in the order in which the keys first came. -/
structure Table (α : Type) where
  /-- The keys with their values. -/
  entries : List (String × α)
  /-- No key comes twice. -/
  nodup_keys : (entries.map Prod.fst).Nodup
  deriving DecidableEq

namespace Table

variable {α β : Type}

/-- Give a key a value in a list of entries, at its place or else at the end. -/
def put (key : String) (value : α) : List (String × α) → List (String × α)
  | [] => [(key, value)]
  | (k, v) :: rest => if k = key then (key, value) :: rest else (k, v) :: put key value rest

theorem map_fst_put (key : String) (value : α) (entries : List (String × α)) :
    (put key value entries).map Prod.fst =
      if key ∈ entries.map Prod.fst then entries.map Prod.fst
      else entries.map Prod.fst ++ [key] := by
  induction entries with
  | nil => simp [put]
  | cons entry rest ih =>
    obtain ⟨k, v⟩ := entry
    by_cases same : k = key
    · subst same
      simp [put]
    · simp only [put, if_neg same, List.map_cons, ih, List.mem_cons]
      by_cases later : key ∈ rest.map Prod.fst
      · simp [later]
      · simp [later, Ne.symm same]

/-- The table without entries. -/
def empty : Table α :=
  ⟨[], List.nodup_nil⟩

instance : EmptyCollection (Table α) := ⟨empty⟩

instance : Inhabited (Table α) := ⟨empty⟩

/-- Give a key a value. -/
def insert (t : Table α) (key : String) (value : α) : Table α where
  entries := put key value t.entries
  nodup_keys := by
    rw [map_fst_put]
    split
    · exact t.nodup_keys
    · rename_i absent
      rw [List.nodup_append]
      refine ⟨t.nodup_keys, by simp, ?_⟩
      intro a member b last
      simp only [List.mem_singleton] at last
      subst last
      exact fun same => absent (same ▸ member)

/-- Give keys their values one after the other. -/
def insertAll (t : Table α) (entries : List (String × α)) : Table α :=
  entries.foldl (fun t entry => t.insert entry.1 entry.2) t

/-- The table of a list of entries, of which the last for a key counts. -/
def ofList (entries : List (String × α)) : Table α :=
  empty.insertAll entries

/-- The value of a key. -/
def find? (t : Table α) (key : String) : Option α :=
  t.entries.lookup key

/-- The keys in order. -/
def keys (t : Table α) : List String :=
  t.entries.map Prod.fst

/-- The values in the order of their keys. -/
def values (t : Table α) : List α :=
  t.entries.map Prod.snd

@[simp]
theorem entries_empty : (empty : Table α).entries = [] := rfl

@[simp]
theorem keys_empty : (empty : Table α).keys = [] := rfl

@[simp]
theorem find?_empty (key : String) : (empty : Table α).find? key = none := rfl

theorem keys_insert (t : Table α) (key : String) (value : α) :
    (t.insert key value).keys = if key ∈ t.keys then t.keys else t.keys ++ [key] :=
  map_fst_put key value t.entries

theorem lookup_cons_if (k wanted : String) (v : α) (rest : List (String × α)) :
    ((k, v) :: rest).lookup wanted = if wanted = k then some v else rest.lookup wanted := by
  by_cases same : wanted = k
  · simp [same]
  · have differs : (wanted == k) = false := by simpa using same
    simp only [List.lookup_cons, differs, if_neg same]

theorem lookup_put (key wanted : String) (value : α) (entries : List (String × α)) :
    (put key value entries).lookup wanted =
      if wanted = key then some value else entries.lookup wanted := by
  induction entries with
  | nil => exact lookup_cons_if key wanted value []
  | cons entry rest ih =>
    obtain ⟨k, v⟩ := entry
    by_cases here : k = key
    · subst here
      rw [put, if_pos rfl, lookup_cons_if, lookup_cons_if]
      split <;> rfl
    · rw [put, if_neg here, lookup_cons_if, lookup_cons_if, ih]
      by_cases same : wanted = k
      · subst same
        simp [here]
      · simp [same]

/-- A key that is given a value has it, and every other key keeps its own. -/
theorem find?_insert (t : Table α) (key wanted : String) (value : α) :
    (t.insert key value).find? wanted = if wanted = key then some value else t.find? wanted :=
  lookup_put key wanted value t.entries

@[simp]
theorem insertAll_nil (t : Table α) : t.insertAll [] = t := rfl

@[simp]
theorem insertAll_cons (t : Table α) (entry : String × α) (entries : List (String × α)) :
    t.insertAll (entry :: entries) = (t.insert entry.1 entry.2).insertAll entries := rfl

theorem insertAll_append (t : Table α) (left right : List (String × α)) :
    t.insertAll (left ++ right) = (t.insertAll left).insertAll right := by
  simp [insertAll, List.foldl_append]

theorem put_of_notMem {key : String} (value : α) {entries : List (String × α)}
    (absent : key ∉ entries.map Prod.fst) : put key value entries = entries ++ [(key, value)] := by
  induction entries with
  | nil => rfl
  | cons entry rest ih =>
    obtain ⟨k, v⟩ := entry
    rw [List.map_cons, List.mem_cons, not_or] at absent
    rw [put, if_neg (Ne.symm absent.1), ih absent.2, List.cons_append]

/-- Entries with keys of their own are put behind those of a table. -/
theorem entries_insertAll {t : Table α} {entries : List (String × α)}
    (distinct : ((t.entries ++ entries).map Prod.fst).Nodup) :
    (t.insertAll entries).entries = t.entries ++ entries := by
  induction entries generalizing t with
  | nil => simp
  | cons entry rest ih =>
    have absent : entry.1 ∉ t.entries.map Prod.fst := by
      intro member
      rw [List.map_append, List.nodup_append] at distinct
      exact distinct.2.2 _ member _ List.mem_cons_self rfl
    have put : (t.insert entry.1 entry.2).entries = t.entries ++ [entry] :=
      put_of_notMem entry.2 absent
    rw [List.append_cons, ← put] at distinct
    rw [insertAll_cons, ih distinct, put, List.append_assoc, List.singleton_append]

/-- A table is that of its entries. -/
theorem ofList_entries (t : Table α) : ofList t.entries = t := by
  have same : (ofList t.entries).entries = t.entries := entries_insertAll t.nodup_keys
  cases t
  cases built : ofList _
  simpa [built] using same

/-- Of several values for a key the last one counts. -/
theorem find?_insertAll (t : Table α) (entries : List (String × α)) (wanted : String) :
    (t.insertAll entries).find? wanted =
      (entries.reverse.lookup wanted).or (t.find? wanted) := by
  induction entries generalizing t with
  | nil => rfl
  | cons entry rest ih =>
    obtain ⟨k, v⟩ := entry
    rw [insertAll_cons, ih, find?_insert, List.reverse_cons, List.lookup_append, lookup_cons_if]
    split <;> simp

/-- A table holds exactly the entries that it finds. -/
theorem find?_eq_some_iff (t : Table α) (key : String) (value : α) :
    t.find? key = some value ↔ (key, value) ∈ t.entries := by
  obtain ⟨entries, distinct⟩ := t
  simp only [find?]
  induction entries with
  | nil => simp
  | cons entry rest ih =>
    obtain ⟨k, v⟩ := entry
    rw [List.map_cons, List.nodup_cons] at distinct
    rw [lookup_cons_if, List.mem_cons, Prod.mk.injEq]
    by_cases same : key = k
    · subst same
      have absent : (key, value) ∉ rest := fun later =>
        distinct.1 (List.mem_map.2 ⟨(key, value), later, rfl⟩)
      simp [absent, eq_comm]
    · simp [same, ih distinct.2]

end Table
end Wireframe
