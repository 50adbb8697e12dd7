import ClientStore.OrderedMap
import Mathlib.Data.List.Induction

/-!
# Ordered maps from entries

Setting the entries of a list one after the other gives a map that is known without its history: the
keys are in the order in which they first occur in the list, and each has the value that comes last.

## Main definitions

* `OrderedMap.firstKeys`, `OrderedMap.lastValue` — what is known of the map.

## Main results

* `OrderedMap.keys_ofList`, `OrderedMap.get?_ofList` — the map of some entries.
* `OrderedMap.get?_eq_some_iff` — looking up finds the entries.
* `OrderedMap.ofList_entries` — the map of the entries of a map is that map.
-/

namespace ClientStore

deriving instance DecidableEq for OrderedMap

namespace OrderedMap

universe u v

variable {α : Type u} {β γ : Type v}

theorem ext {m n : OrderedMap α β} (h : m.entries = n.entries) : m = n := by
  cases m
  cases n
  cases h
  rfl

variable [DecidableEq α]

theorem ofList_concat (es : List (α × β)) (e : α × β) :
    ofList (es ++ [e]) = (ofList es).insert e.1 e.2 := by
  rw [ofList, List.foldl_append]
  rfl

theorem entries_insert (m : OrderedMap α β) (k : α) (v : β) :
    (m.insert k v).entries = setEntry k v m.entries := rfl

theorem keys_insert (m : OrderedMap α β) (k : α) (v : β) :
    (m.insert k v).keys = if k ∈ m.keys then m.keys else m.keys ++ [k] :=
  map_fst_setEntry k v m.entries

theorem setEntry_of_not_mem {k : α} {es : List (α × β)} (h : k ∉ es.map Prod.fst) (v : β) :
    setEntry k v es = es ++ [(k, v)] := by
  induction es with
  | nil => rfl
  | cons e es ih =>
    rw [List.map_cons, List.mem_cons, not_or] at h
    rw [setEntry, if_neg fun he => h.1 he.symm, ih h.2]
    rfl

theorem lookup_eq_some_iff {es : List (α × β)} (h : (es.map Prod.fst).Nodup) (k : α) (v : β) :
    es.lookup k = some v ↔ (k, v) ∈ es := by
  induction es with
  | nil => simp
  | cons e es ih =>
    rw [List.map_cons, List.nodup_cons] at h
    rw [lookup_cons_eq_ite, List.mem_cons, ← ih h.2]
    split
    · next hk =>
      subst hk
      have hno : es.lookup e.1 ≠ some v := by
        rw [ne_eq, ih h.2]
        exact fun hm => h.1 (List.mem_map.2 ⟨_, hm, rfl⟩)
      rw [or_iff_left hno, Option.some_inj, Prod.ext_iff]
      simp [eq_comm]
    · next hk =>
      refine (or_iff_right ?_).symm
      rintro rfl
      exact hk rfl

/-- What is looked up is what is in the list. -/
theorem get?_eq_some_iff (m : OrderedMap α β) (k : α) (v : β) :
    m.get? k = some v ↔ (k, v) ∈ m.entries :=
  lookup_eq_some_iff m.distinct k v

/-! ### The map of some entries -/

/-- The keys of some entries, each where it first comes. -/
def firstKeys (es : List (α × β)) : List α := (es.map Prod.fst).eraseDups

/-- The last value that a key has among some entries. -/
def lastValue (es : List (α × β)) (k : α) : Option β := es.reverse.lookup k

/-- The keys are in the order in which they first occur. -/
theorem keys_ofList (es : List (α × β)) : (ofList es).keys = firstKeys es := by
  induction es using List.reverseRecOn with
  | nil => rfl
  | append_singleton es e ih =>
    rw [ofList_concat, keys_insert, ih, firstKeys, firstKeys, List.map_append,
      List.eraseDups_append, List.map_singleton]
    by_cases h : e.1 ∈ es.map Prod.fst
    · rw [if_pos (List.mem_eraseDups.2 h)]
      simp [List.removeAll, h]
    · rw [if_neg (mt List.mem_eraseDups.1 h)]
      simp [List.removeAll, h, List.eraseDups_cons]

/-- Every key has the value that it was given last. -/
theorem get?_ofList (es : List (α × β)) (k : α) : (ofList es).get? k = lastValue es k := by
  induction es using List.reverseRecOn with
  | nil => rfl
  | append_singleton es e ih =>
    rw [ofList_concat, get?_insert, ih, lastValue, lastValue, List.reverse_append,
      List.reverse_singleton, List.singleton_append, lookup_cons_eq_ite]

/-- The last value is one of the values. -/
theorem mem_of_lastValue {es : List (α × β)} {k : α} {v : β} (h : lastValue es k = some v) :
    (k, v) ∈ es := by
  obtain ⟨front, back, he, -⟩ := List.lookup_eq_some_iff.1 h
  rw [← List.mem_reverse, he]
  simp

/-- The map has no other entries than it was given. -/
theorem mem_of_mem_entries_ofList {es : List (α × β)} {e : α × β} (h : e ∈ (ofList es).entries) :
    e ∈ es :=
  mem_of_lastValue ((get?_ofList es e.1).symm.trans ((get?_eq_some_iff _ e.1 e.2).2 h))

/-- Entries with different keys are the entries of their map. -/
theorem entries_ofList {es : List (α × β)} (h : (es.map Prod.fst).Nodup) :
    (ofList es).entries = es := by
  induction es using List.reverseRecOn with
  | nil => rfl
  | append_singleton es e ih =>
    rw [List.map_append, List.nodup_append] at h
    have hm : e.1 ∉ es.map Prod.fst := fun hm => h.2.2 e.1 hm e.1 (by simp) rfl
    rw [ofList_concat, entries_insert, ih h.1, setEntry_of_not_mem hm]

/-- A map is made up of its entries. -/
theorem ofList_entries (m : OrderedMap α β) : ofList m.entries = m :=
  ext (entries_ofList m.distinct)

/-- Every key has a last value. -/
theorem exists_lastValue {es : List (α × β)} {k : α} (h : k ∈ firstKeys es) :
    ∃ v, lastValue es k = some v := by
  rw [← keys_ofList] at h
  obtain ⟨⟨_, v⟩, he, rfl⟩ := List.mem_map.1 h
  refine ⟨v, ?_⟩
  rw [← get?_ofList]
  exact (get?_eq_some_iff _ _ _).2 he

theorem firstKeys_map (f : β → γ) (es : List (α × β)) :
    firstKeys (es.map fun e => (e.1, f e.2)) = firstKeys es := by
  rw [firstKeys, List.map_map]
  rfl

/-- What comes later has the last word. -/
theorem lastValue_append (es fs : List (α × β)) (k : α) :
    lastValue (es ++ fs) k = (lastValue fs k).or (lastValue es k) := by
  rw [lastValue, List.reverse_append, List.lookup_append]
  rfl

theorem lastValue_map (f : β → γ) (es : List (α × β)) (k : α) :
    lastValue (es.map fun e => (e.1, f e.2)) k = (lastValue es k).map f := by
  rw [lastValue, lastValue, ← List.map_reverse]
  generalize es.reverse = es
  induction es with
  | nil => rfl
  | cons e es ih =>
    rw [List.map_cons, lookup_cons_eq_ite, lookup_cons_eq_ite, ih]
    split
    · rfl
    · rfl

end OrderedMap

end ClientStore
