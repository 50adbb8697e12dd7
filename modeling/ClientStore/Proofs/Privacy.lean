import ClientStore.Proofs.Calls
import ClientStore.Proofs.Storage

/-!
# Privacy

What the stores make is for its owner alone: the root, the sessions directory, the trust file and
the seed. Each of them can be what is needed first, and then the root is made on the way; it can be
refused at any point, and the next call begins with what is there by then.

In all of this the root is either not there, or it is a directory with nothing in it but what is
private. The sessions directory holds files only, so it is not the root, and no profile can be put
where the trust file or the seed belongs.

## Main definitions

* `Layout.IsPrivateNode` — what may be in the root.
* `Layout.PrivateUnder`, `Layout.IsPrivate` — the root is private, or it is not there.

## Main results

* `Layout.isSteady_isPrivate` — so it stays, whatever is made or opened.
* `StoreCall.modes_runAll` — the modes after any calls.
-/

namespace ClientStore

open FileTree

namespace Layout

variable {l : Layout} {w w' : World} {r m : Nat} {t : Text} {b : Bytes} {place : Place}

/-! ### What is in the root -/

/-- The node may be in the root under the name: it is the sessions directory with nothing but files
in it, or the trust file or the seed, and it is private. -/
inductive IsPrivateNode (t : FileTree) (name : Bytes) : Node → Prop
  | sessions {d : Nat} (hname : name = sessionsName)
      (hmode : t.mode? d = some Disk.privateDirectoryMode)
      (hfiles : ∀ other node, t.node? ⟨d, other⟩ = some node → node.isFile = true) :
      IsPrivateNode t name (.directory d)
  | file {serial : Nat} {c : Bytes} (hname : name = hostKeysName ∨ name = seedName) :
      IsPrivateNode t name (.file serial Disk.privateFileMode c)

/-- The root is the directory `r`, which is private, and so is everything in it. -/
structure PrivateUnder (l : Layout) (r : Nat) (w : World) : Prop where
  sound : w.IsSound
  root : w.Finds .denoted l.root (.directory r)
  mode : w.tree.mode? r = some Disk.privateDirectoryMode
  nodes : ∀ name node, w.tree.node? ⟨r, name⟩ = some node → IsPrivateNode w.tree name node

namespace PrivateUnder

theorem not_link (h : l.PrivateUnder r w) (b target : Bytes) :
    w.tree.node? ⟨r, b⟩ ≠ some (.link target) := by
  intro hn
  cases h.nodes _ _ hn

/-- What could be made under a plain name in the root has its place there. -/
theorem eq_of_vacant (h : l.PrivateUnder r w) (hc : l.root.IsPlainChild t b) {aim : Aim}
    (hf : w.Finds aim (l.root.child t) (.vacant place)) : place = ⟨r, b⟩ := by
  rcases hf.child_cases_of_ne_link hc.valid h.root h.not_link with
    ⟨n, hs⟩ | ⟨b', hc', hs | ⟨_, _, _, hs⟩⟩
  · contradiction
  · obtain rfl : b = b' := Option.some.inj (hc.encode_eq.symm.trans hc'.encode_eq)
    exact Spot.vacant.inj hs
  · contradiction

/-- The sessions directory is in the root, and it is private, or it could be made there. -/
theorem sessions_cases (h : l.PrivateUnder r w) (hs : l.sessions.IsShort) :
    w.Finds .denoted l.sessions (.vacant ⟨r, sessionsName⟩) ∨
    ∃ d, w.Finds .denoted l.sessions (.directory d) ∧ d ≠ r ∧
      w.tree.mode? d = some Disk.privateDirectoryMode ∧
      ∀ name node, w.tree.node? ⟨d, name⟩ = some node → node.isFile = true := by
  have hc := isPlainChild_sessions hs
  cases hn : w.tree.node? ⟨r, sessionsName⟩ with
  | none => exact .inl (World.finds_child_of_none hc h.root hn .denoted)
  | some node =>
    cases h.nodes _ _ hn with
    | file hname => exact absurd hname (by decide)
    | @sessions d _ hmode hfiles =>
      refine .inr ⟨d, World.finds_child_of_directory hc h.root hn, ?_, hmode, hfiles⟩
      -- the root has a directory in it, and the sessions directory has none
      rintro rfl
      exact absurd (hfiles _ _ hn) (by simp [Node.isFile])

theorem exists_sessions (h : l.PrivateUnder r w) (hdir : w.HasDirectoryAt l.sessions) :
    ∃ d, w.Finds .denoted l.sessions (.directory d) ∧ d ≠ r ∧
      ∀ name node, w.tree.node? ⟨d, name⟩ = some node → node.isFile = true := by
  obtain ⟨d, hd⟩ := hdir
  rcases h.sessions_cases (World.finds_iff.1 hd).1 with hf | ⟨d, hd, hne, -, hfiles⟩
  · exact absurd (hd.unique hf) (by simp)
  · exact ⟨d, hd, hne, hfiles⟩

/-- A profile is in the sessions directory, where there are no links, or it is that directory. -/
theorem not_finds_link (h : l.PrivateUnder r w) {name : ProfileName} {path : FilePath}
    (hpath : l.session name = .ok path) (place : Place) (target : Bytes) :
    ¬ w.Finds .itself path (.link place target) := by
  intro hf
  by_cases hp : path = l.sessions
  · subst hp
    rcases hf.child_cases_of_ne_link isComponent_sessions h.root h.not_link with
      ⟨n, hs⟩ | ⟨b, -, hs | ⟨_, _, _, hs⟩⟩ <;> contradiction
  · obtain ⟨t, ht, rfl⟩ := exists_child_of_session hpath hp
    obtain ⟨d, hd, -, hfiles⟩ := h.exists_sessions (hf.parent ht)
    rcases hf.child_cases_of_ne_link ht hd (fun b target hn => nomatch hfiles _ _ hn) with
      ⟨n, hs⟩ | ⟨b, -, hs | ⟨_, _, _, hs⟩⟩ <;> contradiction

/-- A new profile is made elsewhere than in the root. -/
theorem directory_ne_of_vacant (h : l.PrivateUnder r w) (hdir : w.HasDirectoryAt l.sessions)
    {name : ProfileName} {path : FilePath} (hpath : l.session name = .ok path)
    (hf : w.Finds .creation path (.vacant place)) : place.directory ≠ r := by
  obtain ⟨d, hd, hne, hfiles⟩ := h.exists_sessions hdir
  have hp : path ≠ l.sessions := by
    rintro rfl
    exact absurd (hd.unique (hf.denoted (by simp))) (by simp)
  obtain ⟨t, ht, rfl⟩ := exists_child_of_session hpath hp
  rcases hf.child_cases_of_ne_link ht hd (fun b target hn => nomatch hfiles _ _ hn) with
    ⟨n, hs⟩ | ⟨b, -, hs | ⟨_, _, _, hs⟩⟩
  · contradiction
  · rw [Spot.vacant.inj hs]
    exact hne
  · contradiction

/-! ### The modes -/

theorem eq_of_hasMode_root (h : l.PrivateUnder r w) (hm : w.HasMode l.root m) :
    m = Disk.privateDirectoryMode :=
  hm.unique ⟨_, h.root, h.mode⟩

theorem eq_of_hasMode_sessions (h : l.PrivateUnder r w) (hm : w.HasMode l.sessions m) :
    m = Disk.privateDirectoryMode := by
  obtain ⟨s, hf, hs⟩ := id hm
  rcases h.sessions_cases (World.finds_iff.1 hf).1 with hv | ⟨d, hd, -, hmode, -⟩
  · obtain rfl := hf.unique hv
    contradiction
  · exact hm.unique ⟨_, hd, hmode⟩

theorem eq_of_hasMode_file (h : l.PrivateUnder r w) (hc : l.root.IsPlainChild t b)
    (hb : b ≠ sessionsName) (hm : w.HasMode (l.root.child t) m) : m = Disk.privateFileMode := by
  obtain ⟨s, hf, hs⟩ := id hm
  cases hn : w.tree.node? ⟨r, b⟩ with
  | none =>
    obtain rfl := hf.unique (World.finds_child_of_none hc h.root hn .denoted)
    contradiction
  | some node =>
    cases h.nodes _ _ hn with
    | sessions hname => exact absurd hname hb
    | file => exact hm.unique ⟨_, World.finds_child_of_file hc h.root hn .denoted, rfl⟩

/-! ### What can change -/

/-- **The root stays private** if directories, links and modes are kept, and what is new is private
in the root and a file elsewhere. -/
theorem of_keeps (h : l.PrivateUnder r w) (hk : w.Keeps w')
    (hmode : ∀ n, w.tree.HasDirectory n → w'.tree.mode? n = w.tree.mode? n)
    (hnode : ∀ q node, w'.tree.node? q = some node →
      (∃ old c, w.tree.node? q = some old ∧ node = old.withContent c) ∨
        (q.directory = r → IsPrivateNode w'.tree q.name node) ∧
        (q.directory ≠ r → node.isFile = true)) :
    l.PrivateUnder r w' := by
  refine ⟨hk.isSound h.sound, hk.finds h.sound h.root, ?_, fun name node hn => ?_⟩
  · rw [hmode r (h.root.isIn h.sound)]
    exact h.mode
  rcases hnode _ _ hn with ⟨old, c, hold, rfl⟩ | hnew
  case inr => exact hnew.1 rfl
  cases h.nodes name old hold with
  | file hname => exact .file hname
  | @sessions d hname hm hfiles =>
    refine .sessions hname ?_ fun other node hother => ?_
    · rw [hmode d (hasDirectory_of_node?_eq_directory hold), hm]
    · rcases hnode _ _ hother with ⟨old', c', hold', rfl⟩ | hnew
      · rw [Node.isFile_withContent]
        exact hfiles other old' hold'
      · refine hnew.2 ?_
        rintro rfl
        exact absurd (hfiles _ _ hold) (by simp [Node.isFile])

/-- It is a matter of the shape. -/
theorem congr (h : l.PrivateUnder r w) (he : w.shape = w'.shape) : l.PrivateUnder r w' := by
  have hk := World.keepsModes_of_shape_eq he
  refine h.of_keeps hk.keeps hk.mode fun q node hn => .inl ?_
  obtain ⟨c, hc⟩ := (World.keepsModes_of_shape_eq he.symm).node q node hn
  obtain ⟨c', hc'⟩ := Node.exists_eq_withContent (Node.withContent_withContent c [] node)
  exact ⟨_, c', hc, hc'⟩

/-- A file is made, in the root only with a name of its own. -/
theorem create (h : l.PrivateUnder r w) (hv : w.tree.isVacant place = true) {mode : Nat}
    (hnew : place.directory = r →
      mode = Disk.privateFileMode ∧ (place.name = hostKeysName ∨ place.name = seedName)) :
    l.PrivateUnder r { w with tree := (w.tree.create place mode).2 } := by
  refine h.of_keeps (Disk.keeps_create hv mode) (fun n _ => mode?_graft n) fun q node hn => ?_
  rw [node?_create hv] at hn
  split at hn
  · next hq =>
    obtain rfl := Option.some.inj hn
    refine .inr ⟨fun hr => ?_, fun _ => rfl⟩
    obtain ⟨rfl, hname⟩ := hnew (hq ▸ hr)
    exact .file (hq ▸ hname)
  · obtain ⟨c, hc⟩ := node.exists_eq_withContent_self
    exact .inl ⟨node, c, hn, hc⟩

/-- The sessions directory is made. -/
theorem graftSessions (h : l.PrivateUnder r w)
    (hv : w.tree.isVacant ⟨r, sessionsName⟩ = true) :
    l.PrivateUnder r { w with
      tree := w.tree.graftDirectory ⟨r, sessionsName⟩ Disk.privateDirectoryMode } := by
  refine h.of_keeps (Disk.keeps_graftDirectory hv _) (fun n => mode?_graftDirectory hv)
    fun q node hn => ?_
  rw [node?_graftDirectory hv] at hn
  split at hn
  · next hq =>
    obtain rfl := Option.some.inj hn
    refine .inr ⟨fun _ => ?_, fun hr => absurd (congrArg Place.directory hq) hr⟩
    refine .sessions (congrArg Place.name hq) (mode?_graftDirectory_size hv) fun other node ho => ?_
    exact absurd ((node?_graftDirectory_size hv other).symm.trans ho) (by simp)
  · obtain ⟨c, hc⟩ := node.exists_eq_withContent_self
    exact .inl ⟨node, c, hn, hc⟩

/-- A file is taken away. -/
theorem prune (h : l.PrivateUnder r w) {serial mode : Nat} {c : Bytes}
    (hf : w.tree.node? place = some (.file serial mode c)) :
    l.PrivateUnder r { w with tree := w.tree.prune place } := by
  refine h.of_keeps ⟨keeps_prune hf, rfl⟩ (fun n _ => mode?_prune n) fun q node hn => ?_
  obtain ⟨c, hc⟩ := node.exists_eq_withContent_self
  exact .inl ⟨node, c, node?_of_prune hn, hc⟩

/-- The root is made. -/
theorem graftRoot {v : World} (hv : v.IsSound) (hf : v.Finds .itself l.root (.vacant place)) :
    l.PrivateUnder v.tree.directories.size
      { v with tree := v.tree.graftDirectory place Disk.privateDirectoryMode } where
  sound := (Disk.keeps_graftDirectory (hf.isIn hv) _).isSound hv
  root := Disk.finds_graftDirectory hv (hf.denoted (by simp))
  mode := mode?_graftDirectory_size (hf.isIn hv)
  nodes name node hn :=
    absurd ((node?_graftDirectory_size (hf.isIn hv) name).symm.trans hn) (by simp)

end PrivateUnder

/-! ### Private or not there -/

/-- The root is private, or there is none. -/
inductive IsPrivate (l : Layout) (w : World) : Prop
  | absent (sound : w.IsSound) (h : ∀ m, ¬ w.HasMode l.root m)
  | under (r : Nat) (h : l.PrivateUnder r w)

namespace IsPrivate

theorem isSound (h : l.IsPrivate w) : w.IsSound := by
  cases h with
  | absent sound => exact sound
  | under r h => exact h.sound

theorem exists_under (h : l.IsPrivate w) (hd : w.HasDirectoryAt l.root) :
    ∃ r, l.PrivateUnder r w := by
  cases h with
  | absent sound h =>
    obtain ⟨m, hm⟩ := hd.exists_hasMode sound
    exact absurd hm (h m)
  | under r h => exact ⟨r, h⟩

/-- Where a profile could be, there is a root. -/
theorem exists_under_of_session (h : l.IsPrivate w) {name : ProfileName} {path : FilePath}
    (hpath : l.session name = .ok path) {aim : Aim} {s : Spot} (hf : w.Finds aim path s) :
    ∃ r, l.PrivateUnder r w := by
  refine h.exists_under ?_
  by_cases hp : path = l.sessions
  · subst hp
    exact hf.parent isComponent_sessions
  · obtain ⟨t, ht, rfl⟩ := exists_child_of_session hpath hp
    obtain ⟨d, hd⟩ := hf.parent ht
    exact hd.parent isComponent_sessions

theorem congr (h : l.IsPrivate w) (he : w.shape = w'.shape) : l.IsPrivate w' := by
  cases h with
  | absent sound h =>
    refine .absent ((World.keepsModes_of_shape_eq he).keeps.isSound sound) fun m hm => h m ?_
    exact (World.hasMode_congr he sound).2 hm
  | under r h => exact .under r (h.congr he)

/-- **The root can be made**, and it is private. -/
theorem ensureRoot (hback : ∀ c ∈ l.root.components, FilePath.isBack c = false) :
    l.ensureRoot.Maintains l.IsPrivate := by
  intro w h
  by_cases hd : w.HasDirectoryAt l.root
  · have hdone : l.ensureRoot w = .ok () w := Disk.ensureDirectory_of_hasDirectoryAt hd
    rwa [World.after_of_ok hdone]
  rcases StoreM.ok_or_error l.ensureRoot w with ⟨_, hr⟩ | ⟨f, hr⟩
  · obtain ⟨v, place, hv, hf, hmade⟩ := Disk.exists_vacant_of_ensureDirectory h.isSound hback hd hr
    rw [hmade]
    exact .under _ (PrivateUnder.graftRoot hv hf)
  · rcases Disk.ensureDirectory_error_cases h.isSound hback hr with he | hno
    · exact he ▸ h
    · have hk := (Disk.ensures_ensureDirectory h.isSound l.root Disk.privateDirectoryMode).keeps
      refine .absent (hk.isSound h.isSound) ?_
      rintro m ⟨s, hf, hs⟩
      obtain ⟨place, rfl⟩ := hno s hf
      contradiction

/-- **The sessions directory can be made**, and it is private. -/
theorem ensureSessions (hback : ∀ c ∈ l.root.components, FilePath.isBack c = false) :
    l.ensureSessions.Maintains l.IsPrivate := by
  intro w h
  have hroot := ensureRoot hback w h
  rcases StoreM.ok_or_error l.ensureRoot w with ⟨_, hr⟩ | ⟨f, hr⟩
  case inr =>
    rw [Layout.ensureSessions, World.after_of_error (StoreM.bind_of_error hr _)]
    exact hroot
  have hd := Disk.hasDirectoryAt_of_ensureDirectory h.isSound hr
  have hsame : w.after l.ensureSessions = (w.after l.ensureRoot).after
      (Disk.ensureOne l.sessions Disk.privateDirectoryMode) :=
    World.after_congr ((StoreM.bind_of_ok hr _).trans
      (Disk.ensureDirectory_child_of_hasDirectoryAt isComponent_sessions hd))
  obtain ⟨r, hu⟩ := hroot.exists_under hd
  rw [hsame]
  rcases Disk.ensureOne_cases (w.after l.ensureRoot) l.sessions Disk.privateDirectoryMode with
    ⟨-, ho⟩ | ⟨place, hf, ho⟩ | ⟨-, -, f, ho⟩
  · rwa [World.after_of_ok ho]
  · rw [World.after_of_ok ho]
    obtain rfl := hu.eq_of_vacant (isPlainChild_sessions (World.finds_iff.1 hf).1) hf
    exact .under r (hu.graftSessions (hf.isIn hu.sound))
  · rwa [World.after_of_error ho]

/-- **The trust file and the seed can be opened**, and they are private. -/
theorem openKept {p : FilePath} (hp : p ∈ [l.hostKeys, l.seed]) :
    (Disk.openKept p Disk.privateFileMode).Maintains l.IsPrivate := by
  refine Disk.maintains_change fun w handle w' ho h => ?_
  rcases Disk.openKept_ok_cases ho with rfl | ⟨place, hf, rfl⟩
  · exact h
  have hs := (World.finds_iff.1 hf).1
  have hname : ∃ t b, p = l.root.child t ∧ l.root.IsPlainChild t b ∧
      (b = hostKeysName ∨ b = seedName) := by
    simp only [List.mem_cons, List.not_mem_nil, or_false] at hp
    rcases hp with rfl | rfl
    · exact ⟨_, _, rfl, isPlainChild_hostKeys hs, .inl rfl⟩
    · exact ⟨_, _, rfl, isPlainChild_seed hs, .inr rfl⟩
  obtain ⟨t, b, rfl, hc, hb⟩ := hname
  obtain ⟨r, hu⟩ := h.exists_under (hf.parent hc.valid)
  obtain rfl := hu.eq_of_vacant hc hf
  exact .under r (hu.create (hf.isIn h.isSound) fun _ => ⟨rfl, hb⟩)

/-- A profile can be emptied or made, where there is a sessions directory. -/
theorem openEmptied {name : ProfileName} {path : FilePath} {handle : Handle}
    (hpath : l.session name = .ok path) (h : l.IsPrivate w) (hdir : w.HasDirectoryAt l.sessions)
    (ho : Disk.openEmptied path Disk.sharedFileMode w = .ok handle w') : l.IsPrivate w' := by
  rcases Disk.openEmptied_ok_cases ho with ⟨place, rfl⟩ | ⟨place, hf, rfl⟩
  · exact h.congr (Disk.shape_refill w place [])
  · obtain ⟨r, hu⟩ := h.exists_under_of_session hpath hf
    have hne := hu.directory_ne_of_vacant hdir hpath hf
    exact .under r (hu.create (hf.isIn hu.sound) fun hplace => absurd hplace hne)

/-- **A profile can be opened for writing**, which puts nothing but a file into the sessions
directory. -/
theorem openProfile (hback : ∀ c ∈ l.root.components, FilePath.isBack c = false)
    {name : ProfileName} {path : FilePath} (hpath : l.session name = .ok path) :
    (do l.ensureSessions; Disk.openEmptied path Disk.sharedFileMode : StoreM Handle).Maintains
      l.IsPrivate := by
  intro w h
  have hmade := ensureSessions hback w h
  rcases StoreM.ok_or_error l.ensureSessions w with ⟨_, hr⟩ | ⟨f, hr⟩
  case inr => rwa [World.after_of_error (StoreM.bind_of_error hr _)]
  rw [World.after_congr (StoreM.bind_of_ok hr _)]
  have hdir := hasDirectoryAt_of_ensureSessions h.isSound hr
  rcases StoreM.ok_or_error (Disk.openEmptied path Disk.sharedFileMode) (w.after l.ensureSessions)
    with ⟨handle, ho⟩ | ⟨f, ho⟩
  · exact openEmptied hpath hmade hdir ho
  · rwa [← Disk.eq_of_change_eq_error ho]

/-- **A profile can be taken away**, and it was a file. -/
theorem remove {name : ProfileName} {path : FilePath} (hpath : l.session name = .ok path) :
    (Disk.remove path).Maintains l.IsPrivate := by
  refine Disk.maintains_change fun w _ w' hr h => ?_
  obtain ⟨place, rfl, s, hf, hs⟩ := Disk.remove_ok_cases hr
  cases s with
  | file _ serial old c =>
    obtain rfl := Option.some.inj hs
    obtain ⟨r, hu⟩ := h.exists_under_of_session hpath hf
    exact .under r (hu.prune (hf.isIn h.isSound))
  | link _ target =>
    obtain ⟨r, hu⟩ := h.exists_under_of_session hpath hf
    exact absurd hf (hu.not_finds_link hpath _ target)
  | directory _ => contradiction
  | vacant _ => contradiction

end IsPrivate

/-- **Private or not there, so the root stays**, whatever is made or opened. -/
theorem isSteady_isPrivate (hback : ∀ c ∈ l.root.components, FilePath.isBack c = false) :
    l.IsSteady l.IsPrivate where
  congr _ _ he h := h.congr he
  ensureRoot := IsPrivate.ensureRoot hback
  ensureSessions := IsPrivate.ensureSessions hback
  openKept _ hp := IsPrivate.openKept hp
  openProfile _ _ hpath := IsPrivate.openProfile hback hpath

end Layout

/-! ### After any calls -/

namespace StoreCall

open Layout

variable {s : SessionStore} {w : World}

theorem maintains_isPrivate (hback : ∀ c ∈ s.layout.root.components, FilePath.isBack c = false)
    (call : StoreCall) : (call.run s).Maintains s.layout.IsPrivate := by
  have hsteady := isSteady_isPrivate hback
  by_cases hd : ∃ name, call = .delete name
  · obtain ⟨name, rfl⟩ := hd
    exact SessionStore.maintains_delete hsteady.congr fun path hpath => IsPrivate.remove hpath
  · exact maintains hsteady (not_exists.1 hd)

/-- **What the stores make is private.** From a root that is not there, and whose path does not lead
back, any calls in any order lead to a world in which the root and the sessions directory are open
to their owner only, if they are there, and so are the trust file and the seed; and from there no
call changes the mode of any path, unless it deletes what is there. -/
theorem modes_runAll (hw : w.IsSound)
    (hback : ∀ c ∈ s.layout.root.components, FilePath.isBack c = false)
    (habsent : ∀ m, ¬ w.HasMode s.layout.root m) (calls : List StoreCall) :
    (∀ m, (runAll s calls w).HasMode s.layout.root m → m = 0o700) ∧
    (∀ m, (runAll s calls w).HasMode s.layout.sessions m → m = 0o700) ∧
    (∀ m, (runAll s calls w).HasMode s.layout.hostKeys m → m = 0o600) ∧
    (∀ m, (runAll s calls w).HasMode s.layout.seed m → m = 0o600) ∧
    ∀ (call : StoreCall) p m, (runAll s calls w).HasMode p m →
      ((runAll s calls w).after (call.run s)).HasMode p m ∨
        (∃ name, call = .delete name) ∧
          ∀ m', ¬ ((runAll s calls w).after (call.run s)).HasMode p m' := by
  have hprivate : s.layout.IsPrivate (runAll s calls w) :=
    runAll_induction (maintains_isPrivate hback) (.absent hw habsent) calls
  have hlater := fun (call : StoreCall) p m => call.hasMode_after (s := s) (p := p) (m := m)
    hprivate.isSound
  generalize runAll s calls w = w' at hprivate hlater
  cases hprivate with
  | absent hs hno =>
    -- without a root there is nothing under it, either
    have hchild {t : Text} (ht : isComponent t) (m : Nat) :
        ¬ w'.HasMode (s.layout.root.child t) m := by
      rintro ⟨spot, hf, -⟩
      obtain ⟨m, hm⟩ := (hf.parent ht).exists_hasMode hs
      exact hno m hm
    exact ⟨fun m hm => absurd hm (hno m), fun m hm => absurd hm (hchild isComponent_sessions m),
      fun m hm => absurd hm (hchild isComponent_hostKeys m),
      fun m hm => absurd hm (hchild isComponent_seed m), hlater⟩
  | under r h =>
    refine ⟨fun m => h.eq_of_hasMode_root, fun m => h.eq_of_hasMode_sessions, fun m hm => ?_,
      fun m hm => ?_, hlater⟩
    · obtain ⟨spot, hf, -⟩ := id hm
      have hc := isPlainChild_hostKeys (World.finds_iff.1 hf).1
      exact h.eq_of_hasMode_file hc (by decide) hm
    · obtain ⟨spot, hf, -⟩ := id hm
      have hc := isPlainChild_seed (World.finds_iff.1 hf).1
      exact h.eq_of_hasMode_file hc (by decide) hm

/-- A key, a seed and a profile are stored, and the profile is deleted. -/
def sampleCalls : List StoreCall :=
  [.record TrustFile.sampleKey, .writeSeed .whole [1, 2], .save (.text "a") [],
    .delete (.text "a")]

/-- Everything is there with its mode, and it keeps it when the profile is saved again. -/
theorem modes_runAll_sampleCalls :
    ((runAll .sample sampleCalls .bare).mode? Layout.sample.root = some 0o700 ∧
      (runAll .sample sampleCalls .bare).mode? Layout.sample.sessions = some 0o700 ∧
      (runAll .sample sampleCalls .bare).mode? Layout.sample.hostKeys = some 0o600 ∧
      (runAll .sample sampleCalls .bare).mode? Layout.sample.seed = some 0o600) ∧
    (∀ m, (runAll .sample sampleCalls .bare).HasMode Layout.sample.seed m → m = 0o600) ∧
    World.HasMode ((runAll .sample sampleCalls .bare).after ((save (.text "a") []).run .sample))
      Layout.sample.seed 0o600 := by
  have habsent (m : Nat) : ¬ World.bare.HasMode Layout.sample.root m := by
    rw [← World.mode?_eq_some_iff]
    exact nofun
  have hall := modes_runAll (s := .sample) World.isSound_bare (by decide) habsent sampleCalls
  have hseed : (runAll .sample sampleCalls .bare).mode? Layout.sample.seed = some 0o600 := by
    decide +kernel
  refine ⟨⟨by decide +kernel, by decide +kernel, by decide +kernel, hseed⟩, hall.2.2.2.1, ?_⟩
  have hlater := hall.2.2.2.2 (.save (.text "a") []) _ _ (World.mode?_eq_some_iff.1 hseed)
  exact hlater.resolve_right fun ⟨⟨_, hdelete⟩, _⟩ => nomatch hdelete

end StoreCall

end ClientStore
