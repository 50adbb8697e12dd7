import ClientStore.Proofs.HostKey.Store
import ClientStore.Proofs.Session.Store

/-!
# Sessions and host keys under one root

The sessions and the trust file share a root, and both come into being when they are first needed,
in either order. What is done to the one leaves the other alone: the changes are at one node each,
and the nodes are different ones because the sessions directory holds files only, so that it cannot
be the root itself.

The abstract state is a map of profiles with a list of keys. Every operation on a root that was
pristine in the beginning ends well, and it does to the abstract state what it is for.

## Main definitions

* `Storage.Under` — a directory has the sessions and the host keys in it.
* `Storage` — so it is with the root, or there is no root yet.

## Main results

* `Storage.save`, `Storage.delete`, `Storage.record` — what changes.
* `Storage.openForRead`, `Storage.list`, `Storage.verify` — what is read.
-/

namespace ClientStore

open FileTree ProfileName

variable {l : Layout} {s : SessionStore} {w w' : World} {m : ProfileMap} {ks : List HostKey}
  {r : Nat} {name : ProfileName} {raw : Bytes} {k q : HostKey}

/-! ### The names under the root -/

namespace Layout

/-- The name of the sessions directory. -/
def sessionsName : Bytes := Component.bytes ⟨"sessions", isComponent_sessions⟩

/-- The name of the trust file. -/
def hostKeysName : Bytes := Component.bytes ⟨"sshhostkeys", isComponent_hostKeys⟩

/-- The name of the file of the seed. -/
def seedName : Bytes := Component.bytes ⟨"randomseed", isComponent_seed⟩

theorem isPlainChild_sessions (h : l.sessions.IsShort) :
    l.root.IsPlainChild "sessions" sessionsName where
  valid := isComponent_sessions
  encode_eq := by decide
  plain := ⟨by decide, by decide⟩
  length_le := by decide
  short := h

theorem isPlainChild_hostKeys (h : l.hostKeys.IsShort) :
    l.root.IsPlainChild "sshhostkeys" hostKeysName where
  valid := isComponent_hostKeys
  encode_eq := by decide
  plain := ⟨by decide, by decide⟩
  length_le := by decide
  short := h

theorem isPlainChild_seed (h : l.seed.IsShort) : l.root.IsPlainChild "randomseed" seedName where
  valid := isComponent_seed
  encode_eq := by decide
  plain := ⟨by decide, by decide⟩
  length_le := by decide
  short := h

theorem IsPristine.missing (h : l.IsPristine w) : TrustFile.Missing l w := by
  obtain ⟨w', hr, d, hd, hempty⟩ := h.made
  have hlacks : w'.Lacks l.hostKeys := Disk.lacks_of_vacant <|
    World.finds_child_of_none (isPlainChild_hostKeys h.short_hostKeys) hd (hempty _) .denoted
  exact ⟨lacks_of_made hr isComponent_hostKeys h.short_hostKeys hlacks,
    World.after_of_ok hr ▸ hlacks⟩

theorem place_hostKeys_ne (r : Nat) : (⟨r, hostKeysName⟩ : Place) ≠ ⟨r, sessionsName⟩ := by
  intro h
  exact absurd (Place.mk.inj h).2 (by decide)

end Layout

namespace Storage

/-! ### What is in the root -/

/-- The node of the sessions directory, if there is one, is a directory that holds the map. -/
inductive IsSessionsOf (t : FileTree) : ProfileMap → Option Node → Prop
  | absent : IsSessionsOf t .empty none
  | present {m : ProfileMap} {d : Nat} (h : SessionStore.Holds t d m) :
      IsSessionsOf t m (some (.directory d))

/-- The node of the trust file, if there is one, is a file with the lines of the keys. -/
inductive IsTrustFileOf : List HostKey → Option Node → Prop
  | absent : IsTrustFileOf [] none
  | present {ks : List HostKey} {serial mode : Nat} {c : Bytes} (hk : ∀ k ∈ ks, k.IsPlain)
      (hc : Utf8.encode? (TrustFile.textOf ks) = some c) :
      IsTrustFileOf ks (some (.file serial mode c))

/-- The root is the directory `r`, and in it are the sessions and the host keys. -/
structure Under (l : Layout) (r : Nat) (m : ProfileMap) (ks : List HostKey) (w : World) :
    Prop where
  sound : w.IsSound
  short_sessions : l.sessions.IsShort
  short_hostKeys : l.hostKeys.IsShort
  root : w.Finds .denoted l.root (.directory r)
  sessions : IsSessionsOf w.tree m (w.tree.node? ⟨r, Layout.sessionsName⟩)
  hostKeys : IsTrustFileOf ks (w.tree.node? ⟨r, Layout.hostKeysName⟩)

namespace Under

variable {d : Nat}

theorem congr (h : Under l r m ks w) (ht : w.tree = w'.tree) (hh : w.here = w'.here) :
    Under l r m ks w' := by
  refine ⟨?_, h.short_sessions, h.short_hostKeys, ?_, ?_, ?_⟩
  · rw [World.IsSound, ← ht, ← hh]
    exact h.sound
  · rw [World.Finds, ← ht, ← hh]
    exact h.root
  · rw [← ht]
    exact h.sessions
  · rw [← ht]
    exact h.hostKeys

/-- In a later world the root is the same directory, and what is in it has to be seen. -/
theorem of_keeps {m' : ProfileMap} {ks' : List HostKey} (h : Under l r m ks w) (hk : w.Keeps w')
    (hs : IsSessionsOf w'.tree m' (w'.tree.node? ⟨r, Layout.sessionsName⟩))
    (ht : IsTrustFileOf ks' (w'.tree.node? ⟨r, Layout.hostKeysName⟩)) : Under l r m' ks' w' :=
  ⟨hk.isSound h.sound, h.short_sessions, h.short_hostKeys, hk.finds h.sound h.root, hs, ht⟩

theorem finds_sessions (h : Under l r m ks w)
    (hn : w.tree.node? ⟨r, Layout.sessionsName⟩ = some (.directory d)) :
    w.Finds .denoted l.sessions (.directory d) :=
  World.finds_child_of_directory (Layout.isPlainChild_sessions h.short_sessions) h.root hn

theorem vacant_sessions (h : Under l r m ks w)
    (hn : w.tree.node? ⟨r, Layout.sessionsName⟩ = none) :
    w.Finds .itself l.sessions (.vacant ⟨r, Layout.sessionsName⟩) :=
  World.finds_child_of_none (Layout.isPlainChild_sessions h.short_sessions) h.root hn .itself

/-- The directory in which the sessions are is not the root, which has a directory in it. -/
theorem ne_of_holds {t : FileTree} (hm : SessionStore.Holds t d m)
    (hn : t.node? ⟨r, Layout.sessionsName⟩ = some (.directory d)) : r ≠ d := by
  rintro rfl
  obtain ⟨raw, hraw⟩ := hm.only _ _ hn
  rw [hraw] at hn
  exact absurd ((hm.file raw).isFile hn) (by simp [Node.isFile])

/-- **One profile is changed in the sessions directory**, and nothing else. -/
theorem set {es : Option (List (Text × Text))} {node : Option Node} (h : Under l r m ks w)
    (hn : w.tree.node? ⟨r, Layout.sessionsName⟩ = some (.directory d))
    (hm : SessionStore.Holds w.tree d m) (hk : w.Keeps w') (he : SessionStore.IsFileOf es node)
    (hnode : ∀ q, w'.tree.node? q = if q = ⟨d, fileName raw⟩ then node else w.tree.node? q) :
    Under l r (m.set raw es) ks w' := by
  have hkept (name : Bytes) : w'.tree.node? ⟨r, name⟩ = w.tree.node? ⟨r, name⟩ := by
    rw [hnode, if_neg fun he => ne_of_holds hm hn (Place.mk.inj he).1]
  refine h.of_keeps hk ?_ ?_
  · rw [hkept, hn]
    exact .present (hm.set he hnode)
  · rw [hkept]
    exact h.hostKeys

/-- **The trust file is changed in the root**, and nothing else. -/
theorem setTrustFile {ks' : List HostKey} {node : Option Node} (h : Under l r m ks w)
    (hk : w.Keeps w') (ht : IsTrustFileOf ks' node)
    (hnode : ∀ q, w'.tree.node? q =
      if q = ⟨r, Layout.hostKeysName⟩ then node else w.tree.node? q) :
    Under l r m ks' w' := by
  refine h.of_keeps hk ?_ ?_
  · rw [hnode, if_neg (Layout.place_hostKeys_ne r).symm]
    have hs := h.sessions
    generalize hn : w.tree.node? ⟨r, Layout.sessionsName⟩ = there at hs
    cases hs with
    | absent => exact .absent
    | present hm =>
      refine .present (hm.congr fun name => ?_)
      rw [hnode, if_neg fun he => ne_of_holds hm hn (Place.mk.inj he).1.symm]
  · rw [hnode, if_pos rfl]
    exact ht

/-- The sessions directory can be made, unless it is there. -/
theorem exists_ensureDirectory (h : Under l r m ks w) :
    ∃ d w', Disk.ensureDirectory l.sessions Disk.privateDirectoryMode w = .ok () w' ∧
      Under l r m ks w' ∧ w'.tree.node? ⟨r, Layout.sessionsName⟩ = some (.directory d) ∧
      SessionStore.Holds w'.tree d m := by
  have hs := h.sessions
  generalize hn : w.tree.node? ⟨r, Layout.sessionsName⟩ = there at hs
  cases hs with
  | absent =>
    have hf := h.vacant_sessions hn
    have hv : w.tree.isVacant ⟨r, Layout.sessionsName⟩ = true := hf.isIn h.sound
    have hempty : SessionStore.Holds
        (w.tree.graftDirectory ⟨r, Layout.sessionsName⟩ Disk.privateDirectoryMode)
        w.tree.directories.size .empty := SessionStore.holds_empty (node?_graftDirectory_size hv)
    refine ⟨_, _, Disk.ensureDirectory_of_vacant hf,
      h.of_keeps (Disk.keeps_graftDirectory hv _) ?_ ?_, ?_, hempty⟩
    · rw [node?_graftDirectory hv, if_pos rfl]
      exact .present hempty
    · rw [node?_graftDirectory hv, if_neg (Layout.place_hostKeys_ne r)]
      exact h.hostKeys
    · rw [node?_graftDirectory hv, if_pos rfl]
  | present hm =>
    exact ⟨_, w, Disk.ensureDirectory_of_hasDirectoryAt ⟨_, h.finds_sessions hn⟩, h, hn, hm⟩

/-- The trust file can be opened, and the open file holds the lines of the keys. -/
theorem exists_openKept (h : Under l r m ks w) :
    ∃ handle w' mode c,
      Disk.openKept l.hostKeys Disk.privateFileMode w = .ok handle w' ∧
      handle.place = ⟨r, Layout.hostKeysName⟩ ∧ Disk.Rewritten w w' handle mode c ∧
      (∀ k ∈ ks, k.IsPlain) ∧ Utf8.encode? (TrustFile.textOf ks) = some c := by
  have hchild := Layout.isPlainChild_hostKeys h.short_hostKeys
  have ht := h.hostKeys
  generalize hn : w.tree.node? ⟨r, Layout.hostKeysName⟩ = there at ht
  cases ht with
  | absent =>
    have hf := World.finds_child_of_none hchild h.root hn .creation
    obtain ⟨handle, w', mode, ho, hplace, hr⟩ :=
      Disk.openKept_of_finds h.sound (.inl ⟨hf, rfl⟩) Disk.privateFileMode
    exact ⟨handle, w', mode, [], ho, hplace, hr, by simp, rfl⟩
  | present hks hc =>
    have hf := World.finds_child_of_file hchild h.root hn .creation
    obtain ⟨handle, w', mode, ho, hplace, hr⟩ :=
      Disk.openKept_of_finds h.sound (.inr ⟨_, _, hf⟩) Disk.privateFileMode
    exact ⟨handle, w', mode, _, ho, hplace, hr, hks, hc⟩

/-- What the trust file contains are the lines of the keys. -/
theorem exists_contains (h : Under l r m ks w) :
    ∃ c, TrustFile.Contains l w c ∧ (∀ k ∈ ks, k.IsPlain) ∧
      Utf8.encode? (TrustFile.textOf ks) = some c := by
  have hchild := Layout.isPlainChild_hostKeys h.short_hostKeys
  have ht := h.hostKeys
  generalize hn : w.tree.node? ⟨r, Layout.hostKeysName⟩ = there at ht
  cases ht with
  | absent =>
    have hno := Disk.lacks_of_vacant (World.finds_child_of_none hchild h.root hn .denoted)
    have hr : l.ensureRoot w = .ok () w := Disk.ensureDirectory_of_hasDirectoryAt ⟨r, h.root⟩
    refine ⟨[], .inr ⟨rfl, hno, ?_⟩, by simp, rfl⟩
    rw [World.after_of_ok hr]
    exact hno
  | present hks hc =>
    have hf := World.finds_child_of_file hchild h.root hn .denoted
    exact ⟨_, .inl (Disk.holds_iff.2 ⟨⟨_, _⟩, _, hf⟩), hks, hc⟩

/-- **What is appended to the open trust file is recorded.** -/
theorem exists_record {v u : World} {handle : Handle} {mode : Nat} {c : Bytes}
    (h : Under l r m ks w) (hk : k.IsPlain) (hlt : k.port.natAbs < 10 ^ Decimal.maxDigits)
    (ho : TrustFile.openAtEnd l v = .ok handle u) (hplace : handle.place = ⟨r, Layout.hostKeysName⟩)
    (hr : Disk.Rewritten w u handle mode c) (hks : ∀ k ∈ ks, k.IsPlain)
    (hc : Utf8.encode? (TrustFile.textOf ks) = some c) :
    ∃ w', TrustFile.record l k v = .ok () w' ∧ Under l r m (ks ++ [k]) w' := by
  obtain ⟨data, hd, -⟩ := Utf8.exists_encode?_of_hasSurrogate_eq_false hk.hasSurrogate_line
  obtain ⟨w', hw', hr'⟩ := TrustFile.rewritten_of_openAtEnd hlt hd ho hr
  have hall : ∀ j ∈ ks ++ [k], j.IsPlain := by
    intro j hj
    rcases List.mem_append.1 hj with hj | hj
    · exact hks j hj
    · rw [List.mem_singleton.1 hj]
      exact hk
  have htext : Utf8.encode? (TrustFile.textOf (ks ++ [k])) = some (c ++ data) := by
    rw [TrustFile.textOf, List.flatMap_append]
    refine Utf8.encode?_append hc ?_
    simpa using hd
  have hfile : IsTrustFileOf (ks ++ [k]) (some (.file handle.serial mode (c ++ data))) :=
    .present hall htext
  refine ⟨w', hw', h.setTrustFile hr'.keeps hfile ?_⟩
  intro q
  rw [hr'.node, hplace]

end Under

end Storage

/-! ### Everything under the root -/

/-- The sessions are the map and the host keys are the list, under a root that is there or that was
not needed so far. -/
inductive Storage (l : Layout) : ProfileMap → List HostKey → World → Prop
  | pristine {w : World} (h : l.IsPristine w) : Storage l .empty [] w
  | under {m : ProfileMap} {ks : List HostKey} {w : World} (r : Nat)
      (h : Storage.Under l r m ks w) : Storage l m ks w

namespace Storage

theorem congr (h : Storage l m ks w) (ht : w.tree = w'.tree) (hh : w.here = w'.here) :
    Storage l m ks w' := by
  cases h with
  | pristine h => exact .pristine (h.congr ht hh)
  | under r h => exact .under r (h.congr ht hh)

theorem of_leavesFiles {α : Type} {x : StoreM α} (h : Storage l m ks w) (hx : x.LeavesFiles) :
    Storage l m ks (w.after x) :=
  h.congr (hx w).1.symm (hx w).2.symm

/-- Whatever was or was not done before, the root can be made. -/
theorem exists_ensureRoot (h : Storage l m ks w) :
    ∃ r w', l.ensureRoot w = .ok () w' ∧ Under l r m ks w' := by
  cases h with
  | pristine h =>
    obtain ⟨w', hr, d, hd, hempty⟩ := h.made
    have hk := Disk.keeps_of_ensureDirectory h.sound hr
    refine ⟨d, w', hr, hk.isSound h.sound, h.short_sessions, h.short_hostKeys, hd, ?_, ?_⟩
    · rw [hempty]
      exact .absent
    · rw [hempty]
      exact .absent
  | under r h => exact ⟨r, w, Disk.ensureDirectory_of_hasDirectoryAt ⟨r, h.root⟩, h⟩

/-- There is a sessions directory, or there is nothing but perhaps a place for it. -/
theorem sessions_cases (h : Storage l m ks w) :
    (∃ r d, Under l r m ks w ∧ w.tree.node? ⟨r, Layout.sessionsName⟩ = some (.directory d) ∧
      SessionStore.Holds w.tree d m) ∨
    m = .empty ∧ l.sessions.IsShort ∧
      (w.Misses l.sessions ∨ ∃ place, w.Finds .itself l.sessions (.vacant place)) := by
  cases h with
  | pristine h =>
    have hm := World.misses_child Layout.isComponent_sessions h.short_sessions h.misses_or_vacant
    exact .inr ⟨rfl, h.short_sessions, .inl hm⟩
  | under r h =>
    have hs := h.sessions
    generalize hn : w.tree.node? ⟨r, Layout.sessionsName⟩ = there at hs
    cases hs with
    | absent => exact .inr ⟨rfl, h.short_sessions, .inr ⟨_, h.vacant_sessions hn⟩⟩
    | present hm => exact .inl ⟨r, _, h, hn, hm⟩

/-! ### What changes -/

/-- **Saving sets the settings of a name**, and the host keys stay. -/
theorem save {entries : List (Text × SettingValue)} (h : Storage s.layout m ks w)
    (hn : name.IsUsable s.layout raw) (he : ∀ e ∈ entries, SessionStore.IsSavable e) :
    ∃ w', s.save name entries w = .ok () w' ∧
      Storage s.layout (m.set raw (some (SessionStore.texts entries))) ks w' := by
  obtain ⟨r, u, hu, hr⟩ := h.exists_ensureRoot
  obtain ⟨d, v, hv, hr', hd, hm⟩ := hr.exists_ensureDirectory
  have hboth : s.layout.ensureSessions w = .ok () v := (StoreM.bind_of_ok hu _).trans hv
  obtain ⟨w', node, hw', hk, hfile, hnode⟩ :=
    SessionStore.save_of_holds hboth hr'.sound (hr'.finds_sessions hd) hm hn he
  exact ⟨w', hw', .under r (hr'.set hd hm hk hfile hnode)⟩

/-- **Deleting takes a name away**, and the host keys stay. -/
theorem delete (h : Storage s.layout m ks w) (hn : name.IsUsable s.layout raw) :
    ∃ w', s.delete name w = .ok () w' ∧ Storage s.layout (m.set raw none) ks w' := by
  rcases h.sessions_cases with ⟨r, d, hr, hd, hm⟩ | ⟨rfl, -, hno⟩
  · obtain ⟨w', hw', hk, hnode⟩ := SessionStore.delete_of_holds (hr.finds_sessions hd) hm hn
    exact ⟨w', hw', .under r (hr.set hd hm hk .absent hnode)⟩
  · have hmiss : w.Misses (s.layout.profile raw) :=
      World.misses_child hn.isComponent_encode hn.short hno
    refine ⟨w, SessionStore.delete_of_misses hn hmiss, ?_⟩
    rwa [ProfileMap.set_none rfl]

/-- **Recording a key adds it**, and the sessions stay. -/
theorem record (h : Storage l m ks w) (hk : k.IsPlain)
    (hlt : k.port.natAbs < 10 ^ Decimal.maxDigits) :
    ∃ w', TrustFile.record l k w = .ok () w' ∧ Storage l m (ks ++ [k]) w' := by
  obtain ⟨r, u, hu, hr⟩ := h.exists_ensureRoot
  obtain ⟨handle, v, mode, c, ho, hplace, hrew, hks, hc⟩ := hr.exists_openKept
  have hopen : TrustFile.openAtEnd l w = .ok handle v := by
    rw [TrustFile.openAtEnd_eq]
    exact Layout.openOrMake_of_made hu Layout.isComponent_hostKeys hr.short_hostKeys ho
  obtain ⟨w', hw', hr'⟩ := hr.exists_record hk hlt hopen hplace hrew hks hc
  exact ⟨w', hw', .under r hr'⟩

/-! ### What is read -/

/-- **Reading gives the settings of a name**, as they are read back, or no record. -/
theorem openForRead (h : Storage s.layout m ks w) (hn : name.IsUsable s.layout raw) :
    ∃ w', s.openForRead name w = .ok ((m raw).map SessionStore.recordOf) w' := by
  rcases h.sessions_cases with ⟨r, d, hr, hd, hm⟩ | ⟨rfl, -, hno⟩
  · have hs : SessionStore.Represents s.layout m w := .inl ⟨hr.sound, d, hr.finds_sessions hd, hm⟩
    obtain ⟨w', hw', -⟩ := SessionStore.openForRead_of_represents hs hn
    exact ⟨w', hw'⟩
  · have hd := Disk.not_hasDirectoryAt_of_misses_or_vacant hno
    exact SessionStore.openForRead_of_lacks hn.session_eq (SessionStore.lacks_profile hn hd)

/-- **Listing gives every profile once, and nothing else.** -/
theorem list (h : Storage s.layout m ks w) :
    ∃ names, s.list w = .ok names w ∧ names.Nodup ∧
      ∀ t, t ∈ names ↔ ∃ raw, (m raw).isSome ∧ t = Utf8.decode raw := by
  rcases h.sessions_cases with ⟨r, d, hr, hd, hm⟩ | ⟨rfl, hs, hno⟩
  · exact SessionStore.list_of_represents (.inl ⟨hr.sound, d, hr.finds_sessions hd, hm⟩)
  · have hd := Disk.not_hasDirectoryAt_of_misses_or_vacant hno
    exact SessionStore.list_of_not_hasDirectoryAt hs hd

theorem exists_contains (h : Storage l m ks w) :
    ∃ c, TrustFile.Contains l w c ∧ (∀ k ∈ ks, k.IsPlain) ∧
      Utf8.encode? (TrustFile.textOf ks) = some c := by
  cases h with
  | pristine h => exact ⟨[], .inr ⟨rfl, h.missing⟩, by simp, rfl⟩
  | under r h => exact h.exists_contains

/-- **The keys decide about a key.** -/
theorem verify (h : Storage l m ks w) (hq : q.IsLegible)
    (hlt : q.port.natAbs < 10 ^ Decimal.maxDigits) :
    ∃ w', TrustFile.verify l q w = .ok (HostKey.answer ks q) w' := by
  obtain ⟨c, hc, hks, he⟩ := h.exists_contains
  exact TrustFile.verify_of_lines hc (TrustFile.lines_of_textOf hks he) hks hq hlt

end Storage

end ClientStore
