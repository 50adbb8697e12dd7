import ClientStore.Proofs.Session.Store
import Mathlib.Data.List.Induction

/-!
# Operations on sessions, one after the other

Any number of operations on the sessions under a fresh root end well, and what there is to see
afterwards is said without the map: a name has the settings of its last save, unless it was deleted
after that.

The map of the last saves is what the steps of the operations make of the empty map; this is an
induction on the last operation. That the files represent it is one on the first.

## Main definitions

* `SessionStore.Operation`, `SessionStore.run` — operations one after the other.
* `SessionStore.lastSave` — what remains of them.
* `SessionStore.Shows` — what there is to see of a map.

## Main results

* `SessionStore.run_of_represents` — the operations make one represented map of another.
* `SessionStore.refines_map` — after any operations, the sessions are those that were saved last.
-/

namespace ClientStore.SessionStore

open FileTree

/-! ### Operations -/

/-- What can be done with the sessions. -/
inductive Operation where
  | save (name : ProfileName) (entries : List (Text × SettingValue))
  | delete (name : ProfileName)
  | openForRead (name : ProfileName)
  | list

namespace Operation

/-- The names in the operation are usable, and what is to be saved can be. -/
def IsAdmissible (l : Layout) : Operation → Prop
  | save name entries => (∃ raw, name.IsUsable l raw) ∧ ∀ e ∈ entries, IsSavable e
  | delete name | openForRead name => ∃ raw, name.IsUsable l raw
  | list => True

/-- Whether the operation saves or deletes the profile with these bytes. -/
def changes (raw : Bytes) : Operation → Bool
  | save name _ | delete name => name.raw? = some raw
  | openForRead _ | list => false

/-- What the operation leaves of a profile that it changes. -/
def left : Operation → Option (List (Text × Text))
  | save _ entries => some (texts entries)
  | _ => none

/-- What the operation does to the map. -/
def step (m : ProfileMap) (op : Operation) : ProfileMap :=
  fun raw => if op.changes raw then op.left else m raw

variable {name : ProfileName} {raw : Bytes}

theorem step_save (h : name.raw? = some raw) (m : ProfileMap)
    (entries : List (Text × SettingValue)) :
    step m (save name entries) = m.set raw (some (texts entries)) := by
  funext other
  simp [step, changes, left, ProfileMap.set, h, eq_comm]

theorem step_delete (h : name.raw? = some raw) (m : ProfileMap) :
    step m (delete name) = m.set raw none := by
  funext other
  simp [step, changes, left, ProfileMap.set, h, eq_comm]

end Operation

/-- Does one thing. What is read or listed is not kept. -/
def perform (s : SessionStore) : Operation → StoreM Unit
  | .save name entries => s.save name entries
  | .delete name => s.delete name
  | .openForRead name => do
    let _ ← s.openForRead name
  | .list => do
    let _ ← s.list

/-- Does one thing after the other. -/
def run (s : SessionStore) : List Operation → StoreM Unit
  | [] => return
  | op :: ops => do
    s.perform op
    s.run ops

variable {s : SessionStore} {l : Layout} {w w' : World} {m : ProfileMap} {raw : Bytes}

/-- **Every operation is a step of the map.** -/
theorem perform_of_represents {op : Operation} (h : Represents s.layout m w)
    (ho : op.IsAdmissible s.layout) :
    ∃ w', s.perform op w = .ok () w' ∧ Represents s.layout (op.step m) w' := by
  cases op with
  | save name entries =>
    obtain ⟨⟨raw, hn⟩, he⟩ := ho
    rw [Operation.step_save hn.raw_eq]
    exact save_of_represents h hn he
  | delete name =>
    obtain ⟨raw, hn⟩ := ho
    rw [Operation.step_delete hn.raw_eq]
    exact delete_of_represents h hn
  | openForRead name =>
    obtain ⟨raw, hn⟩ := ho
    obtain ⟨w', hr, h'⟩ := openForRead_of_represents h hn
    exact ⟨w', StoreM.bind_of_ok hr _, h'⟩
  | list =>
    obtain ⟨names, hl, -⟩ := list_of_represents h
    exact ⟨w, StoreM.bind_of_ok hl _, h⟩

theorem run_of_represents {ops : List Operation} (h : Represents s.layout m w)
    (ho : ∀ op ∈ ops, op.IsAdmissible s.layout) :
    ∃ w', s.run ops w = .ok () w' ∧ Represents s.layout (ops.foldl Operation.step m) w' := by
  induction ops generalizing m w with
  | nil => exact ⟨w, rfl, h⟩
  | cons op ops ih =>
    obtain ⟨w₁, h₁, hm₁⟩ := perform_of_represents h (ho op List.mem_cons_self)
    obtain ⟨w₂, h₂, hm₂⟩ := ih hm₁ fun op' h' => ho op' (List.mem_cons_of_mem _ h')
    exact ⟨w₂, (StoreM.bind_of_ok h₁ _).trans h₂, hm₂⟩

/-! ### What remains of the operations -/

/-- The settings that were saved last under the name with these bytes, unless the name was deleted
after that. -/
def lastSave (ops : List Operation) : ProfileMap := fun raw =>
  (ops.reverse.find? (·.changes raw)).bind Operation.left

theorem lastSave_concat (ops : List Operation) (op : Operation) :
    lastSave (ops ++ [op]) = op.step (lastSave ops) := by
  funext raw
  rw [lastSave, List.reverse_append, List.reverse_singleton, List.singleton_append,
    List.find?_cons, Operation.step]
  cases op.changes raw with
  | true => rfl
  | false => rfl

/-- The steps of the operations, one after the other, come to the last saves. -/
theorem foldl_step (ops : List Operation) : ops.foldl Operation.step .empty = lastSave ops := by
  induction ops using List.reverseRecOn with
  | nil => rfl
  | append_singleton ops op ih =>
    rw [List.foldl_append, ih, lastSave_concat]
    rfl

theorem find?_reverse_eq_none {ops : List Operation} (h : ∀ op ∈ ops, op.changes raw = false) :
    ops.reverse.find? (·.changes raw) = none := by
  refine List.find?_eq_none.2 ?_
  intro op hm
  simp [h op (List.mem_reverse.1 hm)]

/-- The last operation that changes a profile says what is left of it. -/
theorem lastSave_of_last {before after : List Operation} {op : Operation}
    (hc : op.changes raw = true) (ha : ∀ op' ∈ after, op'.changes raw = false) :
    lastSave (before ++ op :: after) raw = op.left := by
  rw [lastSave, List.reverse_append, List.reverse_cons, List.append_assoc, List.find?_append,
    find?_reverse_eq_none ha, Option.none_or, List.singleton_append, List.find?_cons, hc]
  rfl

theorem lastSave_of_unchanged {ops : List Operation} (h : ∀ op ∈ ops, op.changes raw = false) :
    lastSave ops raw = none := by
  rw [lastSave, find?_reverse_eq_none h]
  rfl

/-- Some operations do not change a profile, or one of them is the last that does. -/
theorem unchanged_or_exists_last (ops : List Operation) (raw : Bytes) :
    (∀ op ∈ ops, op.changes raw = false) ∨
      ∃ before op after, ops = before ++ op :: after ∧ op.changes raw = true ∧
        ∀ op' ∈ after, op'.changes raw = false := by
  induction ops with
  | nil => exact .inl (by simp)
  | cons op ops ih =>
    rcases ih with hno | ⟨before, last, after, rfl, hc, ha⟩
    · cases hc : op.changes raw with
      | true => exact .inr ⟨[], op, ops, rfl, hc, hno⟩
      | false =>
        left
        intro op' h'
        rcases List.mem_cons.1 h' with rfl | h'
        · exact hc
        · exact hno op' h'
    · exact .inr ⟨op :: before, last, after, rfl, hc, ha⟩

/-- **Nothing is left of a name that was never saved, or that was deleted after its last save.** -/
theorem lastSave_eq_none_iff (ops : List Operation) (raw : Bytes) :
    lastSave ops raw = none ↔
      (∀ name entries, .save name entries ∈ ops → name.raw? ≠ some raw) ∨
      ∃ before name after, ops = before ++ .delete name :: after ∧ name.raw? = some raw ∧
        ∀ op ∈ after, op.changes raw = false := by
  constructor
  · intro h
    rcases unchanged_or_exists_last ops raw with hno | ⟨before, op, after, rfl, hc, ha⟩
    · left
      intro name entries hm hr
      have hn : decide (name.raw? = some raw) = false := hno _ hm
      exact of_decide_eq_false hn hr
    · rw [lastSave_of_last hc ha] at h
      cases op with
      | save name entries => contradiction
      | delete name => exact .inr ⟨before, name, after, rfl, of_decide_eq_true hc, ha⟩
      | openForRead name => contradiction
      | list => contradiction
  · rintro (hno | ⟨before, name, after, rfl, hr, ha⟩)
    · rcases unchanged_or_exists_last ops raw with hn | ⟨before, op, after, rfl, hc, ha⟩
      · exact lastSave_of_unchanged hn
      · rw [lastSave_of_last hc ha]
        cases op with
        | save name entries => exact absurd (of_decide_eq_true hc) (hno name entries (by simp))
        | delete name => rfl
        | openForRead name => rfl
        | list => rfl
    · exact lastSave_of_last (decide_eq_true hr) ha

/-! ### What there is to see -/

/-- What there is to see of a map: the records of its profiles, and their names. -/
structure Shows (s : SessionStore) (m : ProfileMap) (w : World) : Prop where
  read : ∀ name raw, name.IsUsable s.layout raw → ∃ record w',
    s.openForRead name w = .ok record w' ∧ (record = none ↔ m raw = none) ∧
    ∀ es, m raw = some es → ∃ settings, record = some settings ∧
      settings.keys = OrderedMap.firstKeys es ∧
      ∀ key, settings.get? key = (OrderedMap.lastValue es key).map Settings.readBack
  list : ∃ names w', s.list w = .ok names w' ∧ names.Nodup ∧
    ∀ t, t ∈ names ↔ ∃ raw, (m raw).isSome ∧ t = Utf8.decode raw

/-- There is the same to see of one profile in both worlds. -/
structure ShowsSame (s : SessionStore) (raw : Bytes) (w w' : World) : Prop where
  read : ∀ name, name.IsUsable s.layout raw → ∀ record,
    (∃ v, s.openForRead name w = .ok record v) ↔ ∃ v, s.openForRead name w' = .ok record v
  list : (∃ names v, s.list w = .ok names v ∧ Utf8.decode raw ∈ names) ↔
    ∃ names v, s.list w' = .ok names v ∧ Utf8.decode raw ∈ names

theorem shows_of_represents (h : Represents s.layout m w) : s.Shows m w := by
  constructor
  · intro name raw hn
    obtain ⟨w', hr, -⟩ := openForRead_of_represents h hn
    refine ⟨_, w', hr, Option.map_eq_none_iff, fun es hes => ?_⟩
    refine ⟨recordOf es, ?_, keys_recordOf es, get?_recordOf es⟩
    rw [hes]
    rfl
  · obtain ⟨names, hl, hnodup, hmem⟩ := list_of_represents h
    exact ⟨names, w, hl, hnodup, hmem⟩

theorem exists_openForRead_iff {name : ProfileName} (h : Represents s.layout m w)
    (hn : name.IsUsable s.layout raw) (record : SessionRecord) :
    (∃ v, s.openForRead name w = .ok record v) ↔ record = (m raw).map recordOf := by
  obtain ⟨w', hr, -⟩ := openForRead_of_represents h hn
  rw [hr]
  constructor
  · rintro ⟨v, hv⟩
    injection hv with he
    exact he.symm
  · rintro rfl
    exact ⟨w', rfl⟩

theorem exists_list_iff (h : Represents s.layout m w) (raw : Bytes) :
    (∃ names v, s.list w = .ok names v ∧ Utf8.decode raw ∈ names) ↔ (m raw).isSome := by
  obtain ⟨names, hl, -, hmem⟩ := list_of_represents h
  rw [hl]
  constructor
  · rintro ⟨names', v, hv, ht⟩
    injection hv with he
    rw [← he, hmem] at ht
    obtain ⟨raw', hm, hraw⟩ := ht
    rwa [Utf8.decode_injective hraw]
  · intro hm
    exact ⟨names, w, rfl, (hmem _).2 ⟨raw, hm, rfl⟩⟩

/-- Where two maps agree on a name, there is the same to see of it. -/
theorem showsSame_of_represents {m' : ProfileMap} (h : Represents s.layout m w)
    (h' : Represents s.layout m' w') (he : m raw = m' raw) : s.ShowsSame raw w w' := by
  constructor
  · intro name hn record
    rw [exists_openForRead_iff h hn, exists_openForRead_iff h' hn, he]
  · rw [exists_list_iff h, exists_list_iff h', he]

/-- **The sessions under a fresh root are a map.** Any operations end well. After them every name
has the settings of its last save, with their keys in the order of their first occurrence and with
their last values, or it has no record; the listing has every name that has a record, and has it
once. One operation more changes nothing that there is to see of the other names. -/
theorem refines_map {ops : List Operation} (hf : s.layout.IsFresh w)
    (ho : ∀ op ∈ ops, op.IsAdmissible s.layout) :
    ∃ w', s.run ops w = .ok () w' ∧ s.Shows (lastSave ops) w' ∧
      ∀ op : Operation, op.IsAdmissible s.layout → ∃ w'', s.perform op w' = .ok () w'' ∧
        ∀ raw, op.changes raw = false → s.ShowsSame raw w' w'' := by
  have hstart : Represents s.layout .empty w := .inr ⟨rfl, hf⟩
  obtain ⟨w', hrun, hm⟩ := run_of_represents hstart ho
  rw [foldl_step] at hm
  refine ⟨w', hrun, shows_of_represents hm, fun op hop => ?_⟩
  obtain ⟨w'', hperform, hm'⟩ := perform_of_represents hm hop
  refine ⟨w'', hperform, fun raw hc => showsSame_of_represents hm hm' ?_⟩
  rw [Operation.step, if_neg (by simp [hc])]

/-- A profile is saved in which a key comes twice, and another one is deleted. -/
def sampleOperations : List Operation :=
  [.save (.text "a") [("k", .text "1"), ("k", .text "2")], .save .default [], .delete .default]

theorem isUsable_default : ProfileName.IsUsable .sample .default
    ("Default Settings".toList.map fun c => .ofNat c.toNat) where
  raw_eq := by decide
  length_le := by decide
  not_special := by decide
  short := ⟨_, rfl, by decide⟩

/-- The last value of the key is read. -/
theorem refines_map_sample :
    ∃ w' v record, sample.run sampleOperations .bare = .ok () w' ∧
      sample.openForRead (.text "a") w' = .ok (some record) v ∧
      record.get? "k" = some ("2" : Text) := by
  have ho : ∀ op ∈ sampleOperations, op.IsAdmissible sample.layout := by
    simp only [sampleOperations, List.forall_mem_cons]
    have hone : IsSavable ("k", .text "1") :=
      ⟨_, rfl, by decide, by decide, by decide, by decide, by decide⟩
    have htwo : IsSavable ("k", .text "2") :=
      ⟨_, rfl, by decide, by decide, by decide, by decide, by decide⟩
    have ha : ∀ e ∈ [(("k" : Text), SettingValue.text "1"), ("k", .text "2")], IsSavable e := by
      simp only [List.forall_mem_cons]
      exact ⟨hone, htwo, by simp⟩
    refine ⟨⟨⟨_, isUsable_text⟩, ha⟩, ⟨⟨_, isUsable_default⟩, ?_⟩, ⟨_, isUsable_default⟩, ?_⟩
    · simp
    · simp
  obtain ⟨w', hrun, hshows, -⟩ := refines_map Layout.isFresh_sample ho
  obtain ⟨record, v, hr, -, hsome⟩ := hshows.read _ _ isUsable_text
  obtain ⟨settings, rfl, -, hget⟩ := hsome [("k", "1"), ("k", "2")] rfl
  refine ⟨w', v, settings, hrun, hr, (hget "k").trans ?_⟩
  decide

end ClientStore.SessionStore
