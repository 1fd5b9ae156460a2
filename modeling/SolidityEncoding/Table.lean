/-!
# Tables of named values

A `Table α` holds values under names, in the order in which the names were first entered.  Names
are pairwise different: entering a name again replaces the value and keeps the place.  Variable
stores, typings, programs and the register of declared functions are all tables.

The view of a table is `find?`; `find?_empty` and `find?_insert` say what the operations do to it,
and `names_insert` says what they do to the order.
-/

namespace SolidityEncoding

universe u

/-- Values under pairwise different names, in the order of first entry. -/
structure Table (α : Type u) where
  entries : List (String × α)
  nodup : (entries.map Prod.fst).Nodup

namespace Table

variable {α : Type u}

/-- The first value under `name` in a list of named values. -/
def findIn (name : String) : List (String × α) → Option α
  | [] => none
  | (other, value) :: rest => if other = name then some value else findIn name rest

/-- Enters `value` under `name`: at the place of the name if it has one, else at the end. -/
def insertIn (name : String) (value : α) : List (String × α) → List (String × α)
  | [] => [(name, value)]
  | (other, old) :: rest =>
    if other = name then (name, value) :: rest else (other, old) :: insertIn name value rest

theorem map_fst_insertIn (name : String) (value : α) (entries : List (String × α)) :
    (insertIn name value entries).map Prod.fst =
      if name ∈ entries.map Prod.fst then entries.map Prod.fst
      else entries.map Prod.fst ++ [name] := by
  induction entries with
  | nil => simp [insertIn]
  | cons entry rest ih =>
    obtain ⟨other, old⟩ := entry
    by_cases h : other = name
    · simp [insertIn, h]
    · have h' : ¬ name = other := fun e => h e.symm
      by_cases hm : name ∈ rest.map Prod.fst <;> simp_all [insertIn]

theorem nodup_insertIn (name : String) (value : α) {entries : List (String × α)}
    (h : (entries.map Prod.fst).Nodup) : ((insertIn name value entries).map Prod.fst).Nodup := by
  rw [map_fst_insertIn]
  split
  · exact h
  · rename_i hm
    rw [List.nodup_append]
    refine ⟨h, by simp, ?_⟩
    intro a ha b hb e
    simp only [List.mem_singleton] at hb
    exact hm (by rw [← hb, ← e]; exact ha)

theorem findIn_insertIn (name other : String) (value : α) (entries : List (String × α)) :
    findIn other (insertIn name value entries) =
      if name = other then some value else findIn other entries := by
  induction entries with
  | nil => simp [insertIn, findIn]
  | cons entry rest ih =>
    obtain ⟨first, old⟩ := entry
    by_cases h : first = name
    · by_cases ho : name = other <;> simp_all [insertIn, findIn]
    · by_cases ho : name = other
      · have hf : ¬ first = other := fun e => h (e.trans ho.symm)
        simp_all [insertIn, findIn]
      · simp_all [insertIn, findIn]

theorem insertIn_insertIn (name : String) (value value' : α) (entries : List (String × α)) :
    insertIn name value' (insertIn name value entries) = insertIn name value' entries := by
  induction entries with
  | nil => simp [insertIn]
  | cons entry rest ih =>
    obtain ⟨other, old⟩ := entry
    by_cases h : other = name <;> simp [insertIn, h, ih]

theorem insertIn_of_findIn {name : String} {value : α} {entries : List (String × α)}
    (h : findIn name entries = some value) : insertIn name value entries = entries := by
  induction entries with
  | nil => cases h
  | cons entry rest ih =>
    obtain ⟨other, old⟩ := entry
    by_cases ho : other = name <;> simp_all [insertIn, findIn]

theorem mem_of_findIn {name : String} {value : α} {entries : List (String × α)}
    (h : findIn name entries = some value) : (name, value) ∈ entries := by
  induction entries with
  | nil => cases h
  | cons entry rest ih =>
    obtain ⟨other, old⟩ := entry
    rw [findIn] at h
    split at h
    · next ho =>
      cases h
      rw [ho]
      exact List.mem_cons_self
    · exact List.mem_cons_of_mem _ (ih h)

theorem findIn_of_mem {name : String} {value : α} {entries : List (String × α)}
    (hnodup : (entries.map Prod.fst).Nodup) (h : (name, value) ∈ entries) :
    findIn name entries = some value := by
  induction entries with
  | nil => cases h
  | cons entry rest ih =>
    obtain ⟨other, old⟩ := entry
    rw [List.map_cons, List.nodup_cons] at hnodup
    rcases List.mem_cons.1 h with heq | hmem
    · cases heq
      exact if_pos rfl
    · have hne : other ≠ name := by
        rintro rfl
        exact hnodup.1 (List.mem_map.2 ⟨_, hmem, rfl⟩)
      rw [findIn, if_neg hne, ih hnodup.2 hmem]

theorem insertIn_of_findIn_none {name : String} {entries : List (String × α)}
    (h : findIn name entries = none) (value : α) :
    insertIn name value entries = entries ++ [(name, value)] := by
  induction entries with
  | nil => rfl
  | cons entry rest ih =>
    obtain ⟨other, old⟩ := entry
    rw [findIn] at h
    split at h
    · cases h
    · next ho => rw [insertIn, if_neg ho, ih h, List.cons_append]

/-- No names. -/
def empty : Table α := ⟨[], by simp⟩

instance : Inhabited (Table α) := ⟨empty⟩

/-- The value under a name. -/
def find? (table : Table α) (name : String) : Option α := findIn name table.entries

/-- Whether a name is entered. -/
def contains (table : Table α) (name : String) : Bool := (table.find? name).isSome

/-- Enters a value: at the place of the name if it has one, else at the end. -/
def insert (table : Table α) (name : String) (value : α) : Table α :=
  ⟨insertIn name value table.entries, nodup_insertIn name value table.nodup⟩

/-- Enters a list of named values in order. -/
def insertAll (table : Table α) (entries : List (String × α)) : Table α :=
  entries.foldl (fun t entry => t.insert entry.1 entry.2) table

/-- The table of a list of named values, entered in order. -/
def ofList (entries : List (String × α)) : Table α := empty.insertAll entries

/-- The names, in order of entry. -/
def names (table : Table α) : List String := table.entries.map Prod.fst

/-- The values, in order of their names. -/
def values (table : Table α) : List α := table.entries.map Prod.snd

/-- How many names are entered. -/
def size (table : Table α) : Nat := table.entries.length

@[ext] theorem ext {a b : Table α} (h : a.entries = b.entries) : a = b := by
  cases a; cases b; cases h; rfl

@[simp] theorem find?_empty (name : String) : (empty : Table α).find? name = none := rfl

@[simp] theorem find?_insert (table : Table α) (name other : String) (value : α) :
    (table.insert name value).find? other =
      if name = other then some value else table.find? other :=
  findIn_insertIn name other value table.entries

theorem find?_insert_self (table : Table α) (name : String) (value : α) :
    (table.insert name value).find? name = some value := by
  rw [find?_insert, if_pos rfl]

theorem find?_insert_of_ne (table : Table α) {name other : String} (h : name ≠ other) (value : α) :
    (table.insert name value).find? other = table.find? other := by
  rw [find?_insert, if_neg h]

/-- The later of two values under one name counts. -/
theorem insert_insert (table : Table α) (name : String) (value value' : α) :
    (table.insert name value).insert name value' = table.insert name value' :=
  ext (insertIn_insertIn name value value' table.entries)

theorem insert_of_find? {table : Table α} {name : String} {value : α}
    (h : table.find? name = some value) : table.insert name value = table :=
  ext (insertIn_of_findIn h)

theorem names_insert (table : Table α) (name : String) (value : α) :
    (table.insert name value).names =
      if name ∈ table.names then table.names else table.names ++ [name] :=
  map_fst_insertIn name value table.entries

theorem find?_eq_some_iff {table : Table α} {name : String} {value : α} :
    table.find? name = some value ↔ (name, value) ∈ table.entries :=
  ⟨mem_of_findIn, findIn_of_mem table.nodup⟩

/-- A value under a new name comes last. -/
theorem entries_insert_of_not_contains {table : Table α} {name : String}
    (h : ¬ table.contains name = true) (value : α) :
    (table.insert name value).entries = table.entries ++ [(name, value)] := by
  rw [contains, Bool.not_eq_true, Option.isSome_eq_false_iff, Option.isNone_iff_eq_none] at h
  exact insertIn_of_findIn_none h value

/-- The only value under a name. -/
theorem filter_entries_of_find? {table : Table α} {name : String} {value : α}
    (h : table.find? name = some value) :
    table.entries.filter (·.1 = name) = [(name, value)] := by
  obtain ⟨entries, hnodup⟩ := table
  change findIn name entries = some value at h
  change entries.filter (·.1 = name) = _
  induction entries with
  | nil => cases h
  | cons entry rest ih =>
    obtain ⟨other, old⟩ := entry
    rw [List.map_cons, List.nodup_cons] at hnodup
    rw [findIn] at h
    split at h
    · next ho =>
      subst ho
      cases h
      have hrest : rest.filter (·.1 = other) = [] := by
        rw [List.filter_eq_nil_iff]
        rintro entry hmem heq
        exact hnodup.1 (List.mem_map.2 ⟨entry, hmem, of_decide_eq_true heq⟩)
      rw [List.filter_cons_of_pos (by simp), hrest]
    · next ho => rw [List.filter_cons_of_neg (by simp [ho]), ih hnodup.2 h]

instance [DecidableEq α] : DecidableEq (Table α) := fun a b =>
  decidable_of_iff (a.entries = b.entries) ⟨ext, fun h => by rw [h]⟩

end Table

end SolidityEncoding
