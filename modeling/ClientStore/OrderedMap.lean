/-!
# Ordered maps

A finite map that remembers in which order its keys came. Setting a key again keeps its position
and replaces its value, so the entries are in the order of the first occurrences and the values
are the last ones.

## Main definitions

* `OrderedMap` — a list of entries no two of which have the same key.
* `OrderedMap.get?`, `OrderedMap.insert`, `OrderedMap.erase`, `OrderedMap.ofList`.
-/

namespace ClientStore

universe u v

/-- A finite map with its entries in order. -/
structure OrderedMap (α : Type u) (β : Type v) where
  /-- The entries, each key once. -/
  entries : List (α × β)
  distinct : (entries.map Prod.fst).Nodup

namespace OrderedMap

variable {α : Type u} {β : Type v}

/-- The map without entries. -/
def empty : OrderedMap α β := ⟨[], by simp⟩

instance : Inhabited (OrderedMap α β) := ⟨empty⟩

/-- The keys in order. -/
def keys (m : OrderedMap α β) : List α := m.entries.map Prod.fst

variable [DecidableEq α]

/-- The value of a key, if it has one. -/
def get? (m : OrderedMap α β) (k : α) : Option β := m.entries.lookup k

/-- Entries with the value of `k` replaced, or with a new last entry if `k` has none. -/
def setEntry (k : α) (v : β) : List (α × β) → List (α × β)
  | [] => [(k, v)]
  | e :: rest => if e.1 = k then (k, v) :: rest else e :: setEntry k v rest

theorem map_fst_setEntry (k : α) (v : β) (es : List (α × β)) :
    (setEntry k v es).map Prod.fst =
      if k ∈ es.map Prod.fst then es.map Prod.fst else es.map Prod.fst ++ [k] := by
  induction es with
  | nil => simp [setEntry]
  | cons e rest ih =>
    by_cases h : e.1 = k
    · simp [setEntry, h]
    · have hk : k ≠ e.1 := fun h' => h h'.symm
      rw [setEntry, if_neg h, List.map_cons, ih, List.map_cons]
      by_cases hm : k ∈ rest.map Prod.fst <;> simp [hm, hk]

/-- The map with the value of `k` set. -/
def insert (m : OrderedMap α β) (k : α) (v : β) : OrderedMap α β where
  entries := setEntry k v m.entries
  distinct := by
    rw [map_fst_setEntry]
    split
    · exact m.distinct
    · rename_i h
      exact List.nodup_append.2 ⟨m.distinct, by simp, by
        intro a ha b hb
        rintro rfl
        exact h (List.mem_singleton.1 hb ▸ ha)⟩

/-- The map without `k`. -/
def erase (m : OrderedMap α β) (k : α) : OrderedMap α β where
  entries := m.entries.filter fun e => e.1 ≠ k
  distinct := m.distinct.sublist (List.filter_sublist.map _)

/-- The map of some entries, the later ones replacing the values of the earlier ones. -/
def ofList (es : List (α × β)) : OrderedMap α β := es.foldl (fun m e => m.insert e.1 e.2) empty

theorem lookup_cons_eq_ite (e : α × β) (k : α) (es : List (α × β)) :
    (e :: es).lookup k = if k = e.1 then some e.2 else es.lookup k := by
  obtain ⟨a, b⟩ := e
  by_cases h : k = a
  · simp [h]
  · have h' : (k == a) = false := by simp [h]
    simp [List.lookup_cons, h, h']

theorem lookup_setEntry (k k' : α) (v : β) (es : List (α × β)) :
    (setEntry k v es).lookup k' = if k' = k then some v else es.lookup k' := by
  induction es with
  | nil => rw [setEntry, lookup_cons_eq_ite]
  | cons e rest ih =>
    rw [setEntry]
    by_cases h : e.1 = k
    · rw [if_pos h, lookup_cons_eq_ite, lookup_cons_eq_ite, h]
      by_cases h' : k' = k <;> simp [h']
    · rw [if_neg h, lookup_cons_eq_ite, lookup_cons_eq_ite, ih]
      by_cases h' : k' = e.1
      · subst h'
        simp [h]
      · simp [h']

/-- Setting a key changes the value of that key alone. -/
theorem get?_insert (m : OrderedMap α β) (k k' : α) (v : β) :
    (m.insert k v).get? k' = if k' = k then some v else m.get? k' :=
  lookup_setEntry k k' v m.entries

theorem lookup_filter_ne (k k' : α) (es : List (α × β)) :
    (es.filter fun e => e.1 ≠ k).lookup k' = if k' = k then none else es.lookup k' := by
  induction es with
  | nil => simp
  | cons e rest ih =>
    by_cases h : e.1 = k
    · rw [List.filter_cons_of_neg (by simp [h]), ih, lookup_cons_eq_ite, h]
      by_cases h' : k' = k <;> simp [h']
    · rw [List.filter_cons_of_pos (by simp [h]), lookup_cons_eq_ite, lookup_cons_eq_ite, ih]
      by_cases h' : k' = e.1
      · subst h'
        simp [h]
      · simp [h']

/-- Erasing a key changes the value of that key alone. -/
theorem get?_erase (m : OrderedMap α β) (k k' : α) :
    (m.erase k).get? k' = if k' = k then none else m.get? k' :=
  lookup_filter_ne k k' m.entries

end OrderedMap

end ClientStore
