import ClientStore.Proofs.Layout
import ClientStore.Proofs.Session.Cursor
import ClientStore.Proofs.Session.Writer
import ClientStore.Session.Store

/-!
# Sessions as a map

The sessions under a fresh root are a finite map from names to settings, where a name is known by
its bytes. The map is the abstract state, and a world represents it in one of two ways: either there
is a sessions directory, in which every profile that the map has is a file with its settings, and in
which there is nothing else; or the root is still fresh and the map is empty.

Every operation ends well and is a step from one represented map to another. Reading and listing
give what the map has.

## Main definitions

* `Layout.Lists` — an entry of the sessions directory shows as a profile.
* `ProfileMap` — the abstract state.
* `SessionStore.Represents` — the world represents a map.

## Main results

* `SessionStore.save_of_represents`, `SessionStore.delete_of_represents` — the steps that change the
  map.
* `SessionStore.exists_list_forall₂`, `SessionStore.exists_list_eq` — what is listed in any world.
* `SessionStore.openForRead_of_represents`, `SessionStore.list_of_represents` — what is read and
  what is listed.
-/

namespace ClientStore

open FileTree

/-- The entry of the sessions directory with some name shows as a profile: it is a regular file, or
a link that leads to one. -/
def Layout.Lists (l : Layout) (w : World) (b : Bytes) : Prop :=
  ∃ path d node, l.sessions.bytes = .ok path ∧ w.tree.openDirectory w.here path = .ok d ∧
    w.tree.node? ⟨d, b⟩ = some node ∧ Cursor.isRegular w path (b, node) = true

theorem Layout.Lists.hasDirectoryAt {l : Layout} {w : World} {b : Bytes} (h : l.Lists w b) :
    ∃ d, w.Finds .denoted l.sessions (.directory d) ∧ ∃ node, w.tree.node? ⟨d, b⟩ = some node := by
  obtain ⟨path, d, node, hb, hd, hn, -⟩ := h
  exact ⟨d, ⟨path, hb, openDirectory_eq_ok_iff.1 hd⟩, node, hn⟩

/-- The settings of profiles, which are known by their bytes. -/
abbrev ProfileMap := Bytes → Option (List (Text × Text))

namespace ProfileMap

/-- The map without profiles. -/
def empty : ProfileMap := fun _ => none

/-- The map with the settings of one profile set, or taken away. -/
def set (m : ProfileMap) (raw : Bytes) (es : Option (List (Text × Text))) : ProfileMap :=
  fun other => if other = raw then es else m other

@[simp] theorem set_self (m : ProfileMap) (raw : Bytes) (es : Option (List (Text × Text))) :
    m.set raw es raw = es := if_pos rfl

theorem set_of_ne (m : ProfileMap) {raw other : Bytes} (h : other ≠ raw)
    (es : Option (List (Text × Text))) : m.set raw es other = m other := if_neg h

/-- Taking away a profile that is not there does nothing. -/
theorem set_none {m : ProfileMap} {raw : Bytes} (h : m raw = none) : m.set raw none = m := by
  funext other
  by_cases ho : other = raw
  · rw [ho, set_self, h]
  · rw [set_of_ne m ho]

end ProfileMap

namespace SessionStore

open ProfileName Disk

variable {s : SessionStore} {l : Layout} {w w' : World} {m : ProfileMap} {name : ProfileName}
  {raw : Bytes}

/-! ### The files of a map -/

/-- The node with the name of a profile, if there is one, is a file with its settings. -/
inductive IsFileOf : Option (List (Text × Text)) → Option Node → Prop
  | absent : IsFileOf none none
  | present {es : List (Text × Text)} {serial mode : Nat} {c : Bytes}
      (hw : ∀ e ∈ es, Settings.IsWritable e)
      (hc : Utf8.encode? (Settings.formatEntries es) = some c) :
      IsFileOf (some es) (some (.file serial mode c))

namespace IsFileOf

variable {stored : Option (List (Text × Text))} {node : Option Node}

theorem isSome_eq (h : IsFileOf stored node) : stored.isSome = node.isSome := by
  cases h <;> rfl

theorem eq_none (h : IsFileOf stored node) (hs : stored = none) : node = none := by
  cases h with
  | absent => rfl
  | present _ _ => contradiction

theorem isFile {n : Node} (h : IsFileOf stored node) (hn : node = some n) : n.isFile = true := by
  cases h with
  | absent => contradiction
  | present _ _ =>
    rw [← Option.some.inj hn]
    rfl

end IsFileOf

/-- The nodes in the directory `d` are the files of the profiles in the map. -/
structure Holds (t : FileTree) (d : Nat) (m : ProfileMap) : Prop where
  file : ∀ raw, IsFileOf (m raw) (t.node? ⟨d, fileName raw⟩)
  only : ∀ name node, t.node? ⟨d, name⟩ = some node → ∃ raw, name = fileName raw

/-- The file of one profile is put there or taken away, and nothing else changes. -/
theorem Holds.set {t t' : FileTree} {d : Nat} {node : Option Node}
    {es : Option (List (Text × Text))} (hm : Holds t d m) (he : IsFileOf es node)
    (hn : ∀ q, t'.node? q = if q = ⟨d, fileName raw⟩ then node else t.node? q) :
    Holds t' d (m.set raw es) := by
  constructor
  · intro other
    rw [hn]
    by_cases ho : other = raw
    · rwa [ho, if_pos rfl, ProfileMap.set_self]
    · have hne : (⟨d, fileName other⟩ : Place) ≠ ⟨d, fileName raw⟩ := by
        intro h
        exact ho (fileName_injective (Place.mk.inj h).2)
      rw [if_neg hne, ProfileMap.set_of_ne m ho]
      exact hm.file other
  · intro name node' hq
    rw [hn] at hq
    by_cases hp : (⟨d, name⟩ : Place) = ⟨d, fileName raw⟩
    · exact ⟨raw, (Place.mk.inj hp).2⟩
    · rw [if_neg hp] at hq
      exact hm.only name node' hq

/-- Only the nodes in the directory matter. -/
theorem Holds.congr {t t' : FileTree} {d : Nat} (hm : Holds t d m)
    (h : ∀ name, t'.node? ⟨d, name⟩ = t.node? ⟨d, name⟩) : Holds t' d m := by
  constructor
  · intro raw
    rw [h]
    exact hm.file raw
  · intro name node hn
    exact hm.only name node ((h name).symm.trans hn)

/-- An empty directory holds the empty map. -/
theorem holds_empty {t : FileTree} {d : Nat} (h : ∀ name, t.node? ⟨d, name⟩ = none) :
    Holds t d .empty := by
  constructor
  · intro raw
    rw [h]
    exact .absent
  · intro name node hn
    exact absurd ((h name).symm.trans hn) (by simp)

/-- The sessions directory holds the map. -/
def Stores (l : Layout) (m : ProfileMap) (w : World) : Prop :=
  w.IsSound ∧ ∃ d, w.Finds .denoted l.sessions (.directory d) ∧ Holds w.tree d m

/-- The world represents the map. -/
def Represents (l : Layout) (m : ProfileMap) (w : World) : Prop :=
  Stores l m w ∨ m = .empty ∧ l.IsFresh w

theorem Represents.congr (h : Represents l m w) (ht : w.tree = w'.tree) (hh : w.here = w'.here) :
    Represents l m w' := by
  rcases h with ⟨hw, d, hd, hm⟩ | ⟨hm, hf⟩
  · refine .inl ⟨?_, d, ?_, ?_⟩
    · rwa [World.IsSound, ← ht, ← hh]
    · rwa [World.Finds, ← ht, ← hh]
    · rwa [← ht]
  · exact .inr ⟨hm, hf.congr ht hh⟩

theorem Represents.of_leavesFiles {α : Type} {x : StoreM α} (h : Represents l m w)
    (hx : x.LeavesFiles) : Represents l m (w.after x) :=
  h.congr (hx w).1.symm (hx w).2.symm

/-- What a usable name leads to in the sessions directory. -/
theorem finds_of_holds {d : Nat} (hn : name.IsUsable l raw)
    (hd : w.Finds .denoted l.sessions (.directory d)) (hm : Holds w.tree d m) (aim : Aim) :
    m raw = none ∧ w.Finds aim (l.profile raw) (.vacant ⟨d, fileName raw⟩) ∨
    ∃ es serial mode c, m raw = some es ∧
      w.Finds aim (l.profile raw) (.file ⟨d, fileName raw⟩ serial mode c) ∧
      w.tree.node? ⟨d, fileName raw⟩ = some (.file serial mode c) ∧
      (∀ e ∈ es, Settings.IsWritable e) ∧ Utf8.encode? (Settings.formatEntries es) = some c := by
  have hf := hm.file raw
  generalize hnode : w.tree.node? ⟨d, fileName raw⟩ = node at hf
  generalize m raw = stored at hf
  cases hf with
  | absent => exact .inl ⟨rfl, hn.finds_of_none hd hnode aim⟩
  | present hw hc => exact .inr ⟨_, _, _, _, rfl, hn.finds_of_file hd hnode aim, rfl, hw, hc⟩

/-! ### Saving -/

/-- Where a purpose was served, nothing was refused. -/
theorem of_forPurpose_ok {α : Type} {x : StoreM α} {purpose : Purpose} {path : FilePath} {a : α}
    (h : x.forPurpose purpose path w = .ok a w') : x w = .ok a w' := by
  rcases StoreM.onRefusal_ok_cases h with h | ⟨r, u, -, h⟩
  · exact h
  · contradiction

/-- Whatever was or was not saved before, the sessions directory can be made ready. -/
theorem Represents.ensureSessions (h : Represents l m w) :
    ∃ w', l.ensureSessions w = .ok () w' ∧ Stores l m w' := by
  rcases h with h | ⟨rfl, hf⟩
  · obtain ⟨-, d, hd, -⟩ := id h
    exact ⟨w, Layout.ensureSessions_of_hasDirectoryAt ⟨d, hd⟩, h⟩
  · obtain ⟨w', hw', d, hd, hempty⟩ := hf.made
    exact ⟨w', hw', (Layout.keeps_of_ensureSessions hf.sound hw').isSound hf.sound, d, hd,
      holds_empty hempty⟩

/-- The keys of a session with the texts of its values. -/
def texts (entries : List (Text × SettingValue)) : List (Text × Text) :=
  entries.map fun e => (e.1, e.2.rendered)

/-- A setting whose value has a text, and that fits on a line. -/
def IsSavable (e : Text × SettingValue) : Prop :=
  ∃ t, e.2.render = .ok t ∧ Settings.IsWritable (e.1, t)

/-- Settings that are texts already are kept as they are. -/
theorem texts_map_text (es : List (Text × Text)) :
    texts (es.map fun e => (e.1, .text e.2)) = es := by
  rw [texts, List.map_map]
  exact List.map_id es

theorem isSavable_text {es : List (Text × Text)} (h : ∀ e ∈ es, Settings.IsWritable e) :
    ∀ e ∈ es.map fun e => (e.1, SettingValue.text e.2), IsSavable e := by
  intro e he
  obtain ⟨f, hf, rfl⟩ := List.mem_map.1 he
  exact ⟨f.2, rfl, h f hf⟩

theorem isWritable_of_mem_texts {entries : List (Text × SettingValue)}
    (h : ∀ e ∈ entries, IsSavable e) : ∀ e ∈ texts entries, Settings.IsWritable e := by
  intro e he
  obtain ⟨f, hf, rfl⟩ := List.mem_map.1 he
  obtain ⟨t, ht, hw⟩ := h f hf
  rwa [SettingValue.rendered_eq ht]

/-- What is opened for writing is the file at the path, emptied, or a new file there. -/
theorem openForWrite_of_finds {path : FilePath} {place : Place} {w₁ : World}
    (hpath : s.layout.session name = .ok path) (h₁ : s.layout.ensureSessions w = .ok () w₁)
    (hw : w₁.IsSound)
    (hfind : w₁.Finds .creation path (.vacant place) ∨
      ∃ serial old c, w₁.Finds .creation path (.file place serial old c)) :
    ∃ handle mode w', s.openForWrite name w = .ok (.new path handle) w' ∧ handle.place = place ∧
      Rewritten w₁ w' handle mode [] := by
  obtain ⟨handle, w₂, mode, h₂, hplace, hr⟩ := openEmptied_of_finds hw hfind sharedFileMode
  have hopen := (StoreM.bind_of_ok h₁ fun _ => openEmptied path sharedFileMode).trans h₂
  refine ⟨handle, mode, _, (StoreM.bind_lift_of_ok hpath _ w).trans
    (StoreM.bind_of_ok (StoreM.onRefusal_of_ok hopen _) _), hplace, ?_⟩
  -- between opening the file and writing into it, only the journal changes
  exact ⟨hr.node, hr.keeps.tree, hr.keeps.here⟩

/-- A file that was opened for writing is at its path, and it is empty. Apart from it, only
directories were made. -/
theorem of_openForWrite_ok {sw : SessionWriter} (hw : w.IsSound)
    (h : s.openForWrite name w = .ok sw w') :
    ∃ path handle, s.layout.session name = .ok path ∧ sw = .new path handle ∧
      w'.Opens path handle [] ∧ w'.IsSound ∧
      ∃ mode, Rewritten (w.after s.layout.ensureSessions) w' handle mode [] := by
  obtain ⟨path, u, hlift, h⟩ := StoreM.exists_of_bind_ok h
  obtain ⟨hpath, rfl⟩ := StoreM.of_lift_ok hlift
  obtain ⟨handle, v, hopen, h⟩ := StoreM.exists_of_bind_ok h
  obtain ⟨_, w₁, h₁, h₂⟩ := StoreM.exists_of_bind_ok (of_forPurpose_ok hopen)
  have hsound := (Layout.keeps_of_ensureSessions hw h₁).isSound hw
  rcases openEmptied_cases hsound path sharedFileMode with
    ⟨handle', v', mode, hv, ho, hr⟩ | ⟨f, hf⟩
  · obtain ⟨rfl, rfl⟩ : handle' = handle ∧ v' = v := by
      injection hv.symm.trans h₂ with hh hw
      exact ⟨hh, hw⟩
    -- what is left is to say what is written, and that changes only the journal
    injection h with hsw hw'
    subst hsw hw'
    rw [World.after_of_ok h₁]
    exact ⟨path, handle', hpath, rfl, ho, hr.keeps.isSound hsound, mode, hr.node, hr.keeps.tree,
      hr.keeps.here⟩
  · exact absurd (hf.symm.trans h₂) (by simp)

/-- What is saved is in the file at the path, and nothing else changes. -/
theorem save_of_finds {path : FilePath} {place : Place} {w₁ : World}
    {entries : List (Text × SettingValue)} {c : Bytes}
    (hpath : s.layout.session name = .ok path) (h₁ : s.layout.ensureSessions w = .ok () w₁)
    (hw : w₁.IsSound)
    (hfind : w₁.Finds .creation path (.vacant place) ∨
      ∃ serial old c, w₁.Finds .creation path (.file place serial old c))
    (hv : ∀ e ∈ entries, ∃ t, e.2.render = .ok t)
    (hc : Utf8.encode? (Settings.formatEntries (texts entries)) = some c) :
    ∃ handle mode w', s.save name entries w = .ok () w' ∧ handle.place = place ∧
      Rewritten w₁ w' handle mode c := by
  obtain ⟨handle, mode, w₂, h₂, hplace, hr⟩ := openForWrite_of_finds hpath h₁ hw hfind
  obtain ⟨w', h', hr'⟩ := (SessionWriter.hasWritten_new path hr).writeAll hv hc
  exact ⟨handle, mode, w', (StoreM.bind_of_ok h₂ _).trans h', hplace, hr'⟩

/-- What saving does to the files, once the sessions directory is there. The file of the name is
written, and nothing else changes. -/
theorem save_of_holds {entries : List (Text × SettingValue)} {w₁ : World} {d : Nat}
    (h₁ : s.layout.ensureSessions w = .ok () w₁) (hw : w₁.IsSound)
    (hd : w₁.Finds .denoted s.layout.sessions (.directory d)) (hm : Holds w₁.tree d m)
    (hn : name.IsUsable s.layout raw) (he : ∀ e ∈ entries, IsSavable e) :
    ∃ w' node, s.save name entries w = .ok () w' ∧ w₁.Keeps w' ∧
      IsFileOf (some (texts entries)) node ∧
      ∀ q, w'.tree.node? q = if q = ⟨d, fileName raw⟩ then node else w₁.tree.node? q := by
  have hfind : w₁.Finds .creation (s.layout.profile raw) (.vacant ⟨d, fileName raw⟩) ∨
      ∃ serial old c, w₁.Finds .creation (s.layout.profile raw)
        (.file ⟨d, fileName raw⟩ serial old c) := by
    rcases finds_of_holds hn hd hm .creation with ⟨-, hf⟩ | ⟨_, serial, old, c, -, hf, -⟩
    · exact .inl hf
    · exact .inr ⟨serial, old, c, hf⟩
  have hwritable := isWritable_of_mem_texts he
  obtain ⟨c, hc, -⟩ := Settings.exists_encode?_formatEntries fun e he => (hwritable e he).endures
  obtain ⟨handle, mode, w', h', hplace, hr⟩ := save_of_finds hn.session_eq h₁ hw hfind
    (fun e hm => (he e hm).imp fun t ht => ht.1) hc
  refine ⟨w', some (.file handle.serial mode c), h', hr.keeps, .present hwritable hc, fun q => ?_⟩
  rw [hr.node, hplace]

/-- **Saving sets the settings of the name.** -/
theorem save_of_represents {entries : List (Text × SettingValue)} (h : Represents s.layout m w)
    (hn : name.IsUsable s.layout raw) (he : ∀ e ∈ entries, IsSavable e) :
    ∃ w', s.save name entries w = .ok () w' ∧
      Represents s.layout (m.set raw (some (texts entries))) w' := by
  obtain ⟨w₁, h₁, hw, d, hd, hm⟩ := h.ensureSessions
  obtain ⟨w', node, h', hk, hfile, hnode⟩ := save_of_holds h₁ hw hd hm hn he
  exact ⟨w', h', .inl ⟨hk.isSound hw, d, hk.finds hw hd, hm.set hfile hnode⟩⟩

/-! ### Deleting -/

/-- A profile without a file can be deleted, and nothing happens. -/
theorem delete_of_notFound (hn : name.IsUsable s.layout raw)
    (h : remove (s.layout.profile raw) w =
      .error (.refused ⟨.notFound, some (s.layout.profile raw)⟩) w) :
    s.delete name w = .ok () w := by
  rw [delete]
  refine (StoreM.bind_lift_of_ok hn.session_eq _ w).trans ?_
  exact StoreM.onRefusal_of_refused (StoreM.bind_of_error h _) _

/-- A profile for which there is not even a directory can be deleted. -/
theorem delete_of_misses (hn : name.IsUsable s.layout raw)
    (h : w.Misses (s.layout.profile raw)) : s.delete name w = .ok () w := by
  obtain ⟨b, hb, hl⟩ := h
  refine delete_of_notFound hn ?_
  rw [Disk.remove, change_eq hb, FileTree.remove, hl]
  rfl

/-- What deleting does to the files. The file of the name is taken away if there is one, and nothing
else changes. -/
theorem delete_of_holds {d : Nat} (hd : w.Finds .denoted s.layout.sessions (.directory d))
    (hm : Holds w.tree d m) (hn : name.IsUsable s.layout raw) :
    ∃ w', s.delete name w = .ok () w' ∧ w.Keeps w' ∧
      ∀ q, w'.tree.node? q = if q = ⟨d, fileName raw⟩ then none else w.tree.node? q := by
  rcases finds_of_holds hn hd hm .itself with ⟨hnone, hfind⟩ | ⟨es, _, _, c, -, hfind, hnode, -⟩
  · refine ⟨w, delete_of_notFound hn (change_of_finds_refused hfind fun b hb => ?_), .refl w, ?_⟩
    · rw [FileTree.remove, hb]
      rfl
    · intro q
      split
      · next hq => rw [hq, (hm.file raw).eq_none hnone]
      · rfl
  · have hr : remove (s.layout.profile raw) w =
        .ok () { w with tree := w.tree.prune ⟨d, fileName raw⟩ } := remove_of_finds hfind rfl
    refine ⟨_, (StoreM.bind_lift_of_ok hn.session_eq _ w).trans
      (StoreM.onRefusal_of_ok (StoreM.bind_of_ok hr fun _ => StoreM.log .debug _) _), ?_, ?_⟩
    · exact ⟨keeps_prune hnode, rfl⟩
    · exact node?_prune (by rw [hnode]; rfl)

/-- **Deleting takes the name away.** -/
theorem delete_of_represents (h : Represents s.layout m w) (hn : name.IsUsable s.layout raw) :
    ∃ w', s.delete name w = .ok () w' ∧ Represents s.layout (m.set raw none) w' := by
  rcases id h with ⟨hw, d, hd, hm⟩ | ⟨rfl, hf⟩
  · obtain ⟨w', h', hk, hnode⟩ := delete_of_holds hd hm hn
    exact ⟨w', h', .inl ⟨hk.isSound hw, d, hk.finds hw hd, hm.set .absent hnode⟩⟩
  · refine ⟨w, delete_of_misses hn (hn.misses hf), ?_⟩
    rwa [ProfileMap.set_none rfl]

/-! ### Reading -/

theorem leavesFiles_openForRead (s : SessionStore) (name : ProfileName) :
    (s.openForRead name).LeavesFiles := by
  refine .bind (.lift _) fun path => .onRefusal (.bind (leavesFiles_read path) fun c => .pure _) ?_
  intro r
  rw [unreadable]
  split
  · exact .bind (.log _ _) fun _ => .pure _
  · exact .bind (.log _ _) fun _ => .pure _

/-- The record of a profile with some settings. -/
def recordOf (es : List (Text × Text)) : Settings :=
  .ofList (es.map fun e => (e.1, Settings.readBack e.2))

theorem keys_recordOf (es : List (Text × Text)) :
    (recordOf es).keys = OrderedMap.firstKeys es := by
  rw [recordOf, OrderedMap.keys_ofList, OrderedMap.firstKeys_map]

theorem get?_recordOf (es : List (Text × Text)) (key : Text) :
    (recordOf es).get? key = (OrderedMap.lastValue es key).map Settings.readBack := by
  rw [recordOf, OrderedMap.get?_ofList, OrderedMap.lastValue_map]

theorem openForRead_of_holds {path : FilePath} {c : Bytes}
    (hpath : s.layout.session name = .ok path) (h : w.Holds path c) :
    s.openForRead name w = .ok (some (Settings.ofText (Utf8.decode c))) w := by
  rw [openForRead]
  refine (StoreM.bind_lift_of_ok hpath _ w).trans ?_
  refine StoreM.onRefusal_of_ok ?_ _
  exact StoreM.bind_of_ok h _

theorem openForRead_of_lacks {path : FilePath} (hpath : s.layout.session name = .ok path)
    (h : w.Lacks path) : ∃ w', s.openForRead name w = .ok none w' := by
  obtain ⟨r, hr⟩ := h
  have hu : ∃ w', unreadable name path r w = .ok none w' := by
    rw [unreadable]
    split
    · exact ⟨_, rfl⟩
    · exact ⟨_, rfl⟩
  obtain ⟨w', hw'⟩ := hu
  refine ⟨w', ?_⟩
  rw [openForRead]
  refine (StoreM.bind_lift_of_ok hpath _ w).trans ?_
  exact (StoreM.onRefusal_of_refused (StoreM.bind_of_error hr _) _).trans hw'

/-- **What opening a profile gives** is a matter of what its file holds. -/
theorem outcome_openForRead (s : SessionStore) (name : ProfileName) (w : World) :
    w.outcome (s.openForRead name) =
      (s.layout.session name).bind fun path => path.bytes.map fun _ =>
        (w.content? path).map fun c => Settings.ofText (Utf8.decode c) := by
  cases hpath : s.layout.session name with
  | error f => exact World.outcome_of_error (StoreM.bind_of_error (StoreM.lift_of_error hpath w) _)
  | ok path =>
    show w.outcome (s.openForRead name) = path.bytes.map _
    cases hb : path.bytes with
    | error f =>
      have hread : Disk.read path w = .error f w := Disk.ask_of_bytes hb
      exact World.outcome_of_error ((StoreM.bind_lift_of_ok hpath _ w).trans
        (StoreM.onRefusal_of_error (StoreM.bind_of_error hread _)
          (FilePath.ne_refused_of_bytes hb) _))
    | ok b =>
      rcases Disk.read_cases path w with ⟨c, hc⟩ | ⟨hno, -⟩
      · rw [World.outcome_of_ok (openForRead_of_holds hpath hc), content?_eq_some_iff.2 hc]
        rfl
      · obtain ⟨w', hw'⟩ := openForRead_of_lacks hpath (Disk.lacks_iff.2 ⟨⟨b, hb⟩, hno⟩)
        rw [World.outcome_of_ok hw', content?_eq_none_iff.2 hno]
        rfl

/-- **A profile can be opened for reading**, whatever is in its file and whether there is one,
exactly if its name and the root have bytes. -/
theorem exists_openForRead_ok_iff :
    (∃ record w', s.openForRead name w = .ok record w') ↔
      (∃ raw, name.raw? = some raw) ∧ ∃ b, s.layout.root.bytes = .ok b := by
  simp only [← World.outcome_eq_ok_iff, outcome_openForRead]
  cases hraw : name.raw? with
  | none =>
    rw [Layout.session_of_raw?_eq_none hraw]
    refine iff_of_false ?_ (by simp)
    rintro ⟨record, h⟩
    contradiction
  | some raw =>
    rw [Layout.session_of_raw? hraw, ← Layout.exists_bytes_profile_iff raw,
      and_iff_right ⟨raw, rfl⟩]
    show (∃ record, (s.layout.profile raw).bytes.map _ = .ok record) ↔ _
    cases (s.layout.profile raw).bytes with
    | ok b => exact iff_of_true ⟨_, rfl⟩ ⟨b, rfl⟩
    | error f => exact iff_of_false (fun ⟨_, h⟩ => by cases h) (fun ⟨_, h⟩ => by cases h)

/-- Without a sessions directory there is no file of a profile. -/
theorem lacks_profile (hn : name.IsUsable l raw) (hd : ¬ w.HasDirectoryAt l.sessions) :
    w.Lacks (l.profile raw) := by
  obtain ⟨b, hb, -⟩ := hn.short
  refine lacks_iff.2 ⟨⟨b, hb⟩, fun c hc => ?_⟩
  obtain ⟨h, mode, hfind⟩ := holds_iff.1 hc
  exact hd (hfind.parent hn.isComponent_encode)

/-- **Reading gives the settings of the name**, as they are read back, or no record. -/
theorem openForRead_of_represents (h : Represents s.layout m w)
    (hn : name.IsUsable s.layout raw) :
    ∃ w', s.openForRead name w = .ok ((m raw).map recordOf) w' ∧ Represents s.layout m w' := by
  have hread : ∃ w', s.openForRead name w = .ok ((m raw).map recordOf) w' := by
    rcases id h with ⟨hw, d, hd, hm⟩ | ⟨rfl, hf⟩
    · rcases finds_of_holds hn hd hm .denoted with
        ⟨hnone, hfind⟩ | ⟨es, serial, mode, c, hes, hfind, -, hwritable, hc⟩
      · rw [hnone]
        exact openForRead_of_lacks hn.session_eq (lacks_of_vacant hfind)
      · obtain ⟨c', hc', hback⟩ :=
          Settings.exists_encode?_formatEntries fun e he => (hwritable e he).endures
        obtain rfl : c = c' := Option.some.inj (hc.symm.trans hc')
        have hholds : w.Holds (s.layout.profile raw) c := holds_iff.2 ⟨⟨_, serial⟩, mode, hfind⟩
        refine ⟨w, ?_⟩
        rw [hes, openForRead_of_holds hn.session_eq hholds, hback]
        rfl
    · exact openForRead_of_lacks hn.session_eq (lacks_profile hn hf.not_hasDirectoryAt_sessions)
  obtain ⟨w', hw'⟩ := hread
  refine ⟨w', hw', ?_⟩
  rw [← World.after_of_ok hw']
  exact h.of_leavesFiles (leavesFiles_openForRead s name)

/-! ### Listing -/

theorem lists_iff_shows {path b : Bytes} (hb : l.sessions.bytes = .ok path) :
    l.Lists w b ↔ Cursor.Shows w path b := by
  rw [Cursor.shows_iff]
  constructor
  · rintro ⟨path', d, node, hb', h⟩
    obtain rfl : path = path' := Except.ok.inj (hb.symm.trans hb')
    exact ⟨d, node, h⟩
  · rintro ⟨d, node, h⟩
    exact ⟨path, d, node, hb, h⟩

theorem list_of_error {f : Failure} (hb : s.layout.sessions.bytes = .error f) (w : World) :
    s.list w = .error f w :=
  StoreM.bind_of_error (StoreM.bind_of_error (StoreM.lift_of_error hb w) _) _

/-- **What is listed**, whatever is in the sessions directory and whether there is one: every entry
that shows, once, under its name. -/
theorem exists_list_forall₂ {path : Bytes} (hb : s.layout.sessions.bytes = .ok path) (w : World) :
    ∃ names taken, s.list w = .ok names w ∧ taken.Nodup ∧
      (∀ b, b ∈ taken ↔ s.layout.Lists w b) ∧ List.Forall₂ Cursor.ShowsAs taken names := by
  obtain ⟨c, left, hstart, hleft, hnodup, hmem⟩ := Cursor.exists_start_eq hb w
  obtain ⟨names, c', hrest, hd⟩ := c.exists_rest_eq w
  obtain ⟨taken, hp, hnames, -⟩ := hleft.drains (.of_eq path rfl rfl) hd
  refine ⟨names, taken, (StoreM.bind_of_ok hstart _).trans (StoreM.bind_of_ok hrest _),
    hp.nodup_iff.1 hnodup, fun b => ?_, hnames⟩
  rw [← hp.mem_iff, hmem, lists_iff_shows hb]

/-- The names that are listed are those of the entries that show. -/
theorem exists_list_eq {path : Bytes} (hb : s.layout.sessions.bytes = .ok path) (w : World) :
    ∃ names, s.list w = .ok names w ∧
      ∀ t, t ∈ names ↔ ∃ b, s.layout.Lists w b ∧ listed? (Utf8.decode b) = some t := by
  obtain ⟨names, taken, hlist, -, hmem, hnames⟩ := exists_list_forall₂ hb w
  refine ⟨names, hlist, fun t => ?_⟩
  rw [Cursor.mem_iff_of_forall₂_showsAs hnames]
  simp only [hmem, Cursor.ShowsAs]

/-- **The profiles can be listed** exactly if the root has bytes. -/
theorem exists_list_ok_iff :
    (∃ names w', s.list w = .ok names w') ↔ ∃ b, s.layout.root.bytes = .ok b := by
  rw [← Layout.exists_bytes_sessions_iff]
  cases hb : s.layout.sessions.bytes with
  | error f => simp [list_of_error hb]
  | ok b =>
    obtain ⟨names, h, -⟩ := exists_list_eq hb w
    exact iff_of_true ⟨names, w, h⟩ ⟨b, rfl⟩

/-- Where the files of profiles are all that shows, every profile is listed once. -/
theorem list_of_lists {path : Bytes} (hb : s.layout.sessions.bytes = .ok path)
    (h : ∀ b, s.layout.Lists w b ↔ ∃ raw, (m raw).isSome ∧ b = fileName raw) :
    ∃ names, s.list w = .ok names w ∧ names.Nodup ∧
      ∀ t, t ∈ names ↔ ∃ raw, (m raw).isSome ∧ t = Utf8.decode raw := by
  obtain ⟨names, taken, hlist, hnodup, hmem, hnames⟩ := exists_list_forall₂ hb w
  refine ⟨names, hlist, .of_map some ?_, fun t => ?_⟩
  · rw [← Cursor.forall₂_showsAs_iff.1 hnames]
    refine hnodup.map_on fun x hx y hy hxy => ?_
    obtain ⟨raw, -, rfl⟩ := (h x).1 ((hmem x).1 hx)
    obtain ⟨raw', -, rfl⟩ := (h y).1 ((hmem y).1 hy)
    rw [listed?_fileName, listed?_fileName] at hxy
    rw [Utf8.decode_injective (Option.some.inj hxy)]
  · rw [Cursor.mem_iff_of_forall₂_showsAs hnames]
    simp only [hmem, h]
    constructor
    · rintro ⟨_, ⟨raw, hs, rfl⟩, ht⟩
      rw [Cursor.ShowsAs, listed?_fileName] at ht
      exact ⟨raw, hs, (Option.some.inj ht).symm⟩
    · rintro ⟨raw, hs, rfl⟩
      exact ⟨_, ⟨raw, hs, rfl⟩, listed?_fileName raw⟩

theorem lists_iff_of_holds {d : Nat} (hd : w.Finds .denoted l.sessions (.directory d))
    (hm : Holds w.tree d m) (b : Bytes) :
    l.Lists w b ↔ ∃ raw, (m raw).isSome ∧ b = fileName raw := by
  constructor
  · intro h
    obtain ⟨d', hd', node, hn⟩ := h.hasDirectoryAt
    obtain rfl := Spot.directory.inj (hd.unique hd')
    obtain ⟨raw, rfl⟩ := hm.only b node hn
    exact ⟨raw, by rw [(hm.file raw).isSome_eq, hn]; rfl, rfl⟩
  · rintro ⟨raw, hs, rfl⟩
    rw [(hm.file raw).isSome_eq] at hs
    obtain ⟨node, hn⟩ := Option.isSome_iff_exists.1 hs
    obtain ⟨path, hb, hl⟩ := hd
    exact ⟨path, d, node, hb, openDirectory_eq_ok_iff.2 hl, hn,
      Cursor.isRegular_iff.2 (.inl ((hm.file raw).isFile hn))⟩

/-- Without a sessions directory the listing is that of the empty map. -/
theorem list_of_not_hasDirectoryAt (hs : s.layout.sessions.IsShort)
    (h : ¬ w.HasDirectoryAt s.layout.sessions) :
    ∃ names, s.list w = .ok names w ∧ names.Nodup ∧
      ∀ t, t ∈ names ↔ ∃ raw, (ProfileMap.empty raw).isSome ∧ t = Utf8.decode raw := by
  obtain ⟨path, hb, -⟩ := hs
  refine list_of_lists hb fun b => iff_of_false (fun hl => ?_) (by simp [ProfileMap.empty])
  obtain ⟨d, hd, -⟩ := hl.hasDirectoryAt
  exact h ⟨d, hd⟩

/-- **Listing gives every profile of the map once, and nothing else.** -/
theorem list_of_represents (h : Represents s.layout m w) :
    ∃ names, s.list w = .ok names w ∧ names.Nodup ∧
      ∀ t, t ∈ names ↔ ∃ raw, (m raw).isSome ∧ t = Utf8.decode raw := by
  rcases h with ⟨hw, d, hd, hm⟩ | ⟨rfl, hf⟩
  · obtain ⟨path, hb, -⟩ := id hd
    exact list_of_lists hb (lists_iff_of_holds hd hm)
  · exact list_of_not_hasDirectoryAt hf.isShort_sessions hf.not_hasDirectoryAt_sessions

/-! ### A sample -/

/-- A store on a fresh root. -/
def sample : SessionStore := ⟨.sample, .empty⟩

theorem isUsable_text : ProfileName.IsUsable .sample (.text "a") [0x61] where
  raw_eq := rfl
  length_le := by decide
  not_special := by decide
  short := ⟨_, rfl, by decide⟩

end SessionStore

end ClientStore
