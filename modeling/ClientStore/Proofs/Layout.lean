import ClientStore.Layout
import ClientStore.Proofs.Directories
import ClientStore.Proofs.ProfileName

/-!
# Places under the root

A root is fresh if there is no directory at it yet and one can be made. Before that is done nothing
is found under it, and once it is done the sessions directory is there and is empty. It is pristine
if it is empty itself then, so that there is no trust file, either.

What is in the sessions directory is then a matter of the names in it: the path of a profile finds a
file exactly if there is one with the name that the profile has on disk.

## Main definitions

* `Layout.IsFresh` — where the sessions begin.
* `Layout.IsPristine` — where everything begins.
* `Layout.openOrMake` — how the trust file and the seed are opened.
* `Layout.profile`, `ProfileName.IsUsable` — the path of a profile, and the names that have one.

## Main results

* `Layout.isFresh_of_not_isBack` — a path that does not lead back is fresh if it can be made.
* `Layout.openOrMake_of_made`, `Layout.lacks_of_made` — for what is in the root it makes no difference
  whether the root was made before.
* `Layout.session_confined` — profiles are in the sessions directory, each at a place of its own.
* `ProfileName.IsUsable.misses` — nothing is found under a fresh root.
* `ProfileName.IsUsable.finds_of_none`, `ProfileName.IsUsable.finds_of_file` — what the path of a
  profile finds in the sessions directory.
-/

namespace ClientStore

open FileTree

/-! ### Fresh roots -/

namespace Layout

variable {l : Layout} {w w' : World}

/-- There is no root yet. It can be made, and nothing is in the sessions directory then; a path that
leads back could come upon an old one, but no other path can (`isFresh_of_not_isBack`). -/
structure IsFresh (l : Layout) (w : World) : Prop where
  sound : w.IsSound
  absent : ¬ w.HasDirectoryAt l.root
  made : ∃ w', l.ensureSessions w = .ok () w' ∧ w'.IsEmptyAt l.sessions

theorem isComponent_sessions : isComponent (Text.ofString "sessions") := by decide

theorem isComponent_hostKeys : isComponent (Text.ofString "sshhostkeys") := by decide

theorem isComponent_seed : isComponent (Text.ofString "randomseed") := by decide

theorem isQuiet_ensureSessions (l : Layout) : l.ensureSessions.IsQuiet :=
  .bind (Disk.isQuiet_ensureDirectory _ _) fun _ => Disk.isQuiet_ensureDirectory _ _

theorem keeps_of_ensureSessions (hw : w.IsSound) (h : l.ensureSessions w = .ok () w') :
    w.Keeps w' := by
  obtain ⟨_, u, hr, hs⟩ := StoreM.exists_of_bind_ok h
  have hu := Disk.keeps_of_ensureDirectory hw hr
  exact hu.trans (Disk.keeps_of_ensureDirectory (hu.isSound hw) hs)

theorem hasDirectoryAt_of_ensureSessions (hw : w.IsSound) (h : l.ensureSessions w = .ok () w') :
    w'.HasDirectoryAt l.sessions := by
  obtain ⟨_, u, hr, hs⟩ := StoreM.exists_of_bind_ok h
  have hu := Disk.keeps_of_ensureDirectory hw hr
  exact Disk.hasDirectoryAt_of_ensureDirectory (hu.isSound hw) hs

/-- A sessions directory that is there stays as it is. -/
theorem ensureSessions_of_hasDirectoryAt (h : w.HasDirectoryAt l.sessions) :
    l.ensureSessions w = .ok () w := by
  obtain ⟨d, hd⟩ := id h
  have hr : l.ensureRoot w = .ok () w :=
    Disk.ensureDirectory_of_hasDirectoryAt (hd.parent isComponent_sessions)
  exact (StoreM.bind_of_ok hr _).trans (Disk.ensureDirectory_of_hasDirectoryAt h)

/-- Where the root is there, only the sessions directory itself is made. -/
theorem ensureSessions_of_hasDirectoryAt_root (h : w.HasDirectoryAt l.root) :
    l.ensureSessions w = Disk.ensureOne l.sessions Disk.privateDirectoryMode w := by
  have hroot : l.ensureRoot w = .ok () w := Disk.ensureDirectory_of_hasDirectoryAt h
  exact (StoreM.bind_of_ok hroot _).trans
    (Disk.ensureDirectory_child_of_hasDirectoryAt isComponent_sessions h)

/-- **On a path that does not lead back, a root that can be made is fresh.** -/
theorem isFresh_of_not_isBack (hw : w.IsSound)
    (hback : ∀ c ∈ l.root.components, FilePath.isBack c = false) (ha : ¬ w.HasDirectoryAt l.root)
    (h : l.ensureSessions w = .ok () w') : l.IsFresh w := by
  refine ⟨hw, ha, w', h, ?_⟩
  obtain ⟨_, u, hr, hs⟩ := StoreM.exists_of_bind_ok h
  have hempty := Disk.isEmptyAt_of_ensureDirectory hw hback ha hr
  refine Disk.isEmptyAt_of_ensureDirectory ((Disk.keeps_of_ensureDirectory hw hr).isSound hw) ?_ ?_
    hs
  · rw [sessions, FilePath.child_eq isComponent_sessions]
    intro c hc
    rcases List.mem_append.1 hc with hc | hc
    · exact hback c hc
    · rw [List.mem_singleton.1 hc]
      rfl
  · rintro ⟨d, hd⟩
    obtain ⟨place, he⟩ := hempty.eq_vacant (c := ⟨_, isComponent_sessions⟩) rfl hd
    contradiction

theorem IsFresh.congr (h : l.IsFresh w) (ht : w.tree = w'.tree) (hh : w.here = w'.here) :
    l.IsFresh w' := by
  obtain ⟨u, hu, hempty⟩ := h.made
  refine ⟨?_, ?_, _, (isQuiet_ensureSessions l).ok_congr ht hh hu, hempty⟩
  · rw [World.IsSound, ← ht, ← hh]
    exact h.sound
  · rintro ⟨n, hn⟩
    rw [World.Finds, ← ht, ← hh] at hn
    exact h.absent ⟨n, hn⟩

theorem IsFresh.not_hasDirectoryAt_sessions (h : l.IsFresh w) : ¬ w.HasDirectoryAt l.sessions := by
  rintro ⟨d, hd⟩
  exact h.absent (hd.parent isComponent_sessions)

theorem IsFresh.isShort_sessions (h : l.IsFresh w) : l.sessions.IsShort := by
  obtain ⟨u, -, d, hd, -⟩ := h.made
  exact (World.finds_iff.1 hd).1

theorem IsFresh.misses_sessions (h : l.IsFresh w) : w.Misses l.sessions := by
  obtain ⟨u, hu, -⟩ := h.made
  obtain ⟨_, v, hr, -⟩ := StoreM.exists_of_bind_ok hu
  exact World.misses_child isComponent_sessions h.isShort_sessions
    (Disk.misses_or_vacant_of_ensureDirectory h.absent hr)

/-- A layout in the working directory. -/
def sample : Layout := ⟨.ofText "store"⟩

theorem not_hasDirectoryAt_sample : ¬ World.bare.HasDirectoryAt sample.root := by
  have hv : World.bare.Finds .denoted sample.root (.vacant ⟨_, _⟩) := ⟨_, rfl, rfl⟩
  rintro ⟨d, hd⟩
  exact absurd (hv.unique hd) (by simp)

theorem isFresh_sample : sample.IsFresh .bare := by
  have hm : sample.ensureSessions .bare = .ok () _ := rfl
  exact isFresh_of_not_isBack World.isSound_bare (by decide) not_hasDirectoryAt_sample hm

end Layout

/-! ### Pristine roots -/

namespace Layout

variable {l : Layout} {w w' : World}

/-- There is no root yet. It can be made, and nothing is in it then; a path that leads back could
come upon an old one, but no other path can (`isPristine_of_not_isBack`). The paths under it are not
too long. -/
structure IsPristine (l : Layout) (w : World) : Prop where
  sound : w.IsSound
  absent : ¬ w.HasDirectoryAt l.root
  made : ∃ w', l.ensureRoot w = .ok () w' ∧ w'.IsEmptyAt l.root
  short_sessions : l.sessions.IsShort
  short_hostKeys : l.hostKeys.IsShort

/-- **On a path that does not lead back, a root that can be made is pristine.** -/
theorem isPristine_of_not_isBack (hw : w.IsSound)
    (hback : ∀ c ∈ l.root.components, FilePath.isBack c = false) (ha : ¬ w.HasDirectoryAt l.root)
    (h : l.ensureRoot w = .ok () w') (hs : l.sessions.IsShort) (hk : l.hostKeys.IsShort) :
    l.IsPristine w :=
  ⟨hw, ha, ⟨w', h, Disk.isEmptyAt_of_ensureDirectory hw hback ha h⟩, hs, hk⟩

theorem IsPristine.congr (h : l.IsPristine w) (ht : w.tree = w'.tree) (hh : w.here = w'.here) :
    l.IsPristine w' := by
  have hq : l.ensureRoot.IsQuiet := Disk.isQuiet_ensureDirectory _ _
  obtain ⟨u, hu, hempty⟩ := h.made
  refine ⟨?_, ?_, ⟨_, hq.ok_congr ht hh hu, hempty⟩, h.short_sessions, h.short_hostKeys⟩
  · rw [World.IsSound, ← ht, ← hh]
    exact h.sound
  · rintro ⟨n, hn⟩
    rw [World.Finds, ← ht, ← hh] at hn
    exact h.absent ⟨n, hn⟩

/-- At a pristine root there is nothing, but perhaps a place for it. -/
theorem IsPristine.misses_or_vacant (h : l.IsPristine w) :
    w.Misses l.root ∨ ∃ place, w.Finds .itself l.root (.vacant place) := by
  obtain ⟨u, hu, -⟩ := h.made
  exact Disk.misses_or_vacant_of_ensureDirectory h.absent hu

theorem isPristine_sample : sample.IsPristine .bare := by
  have hm : sample.ensureRoot .bare = .ok () _ := rfl
  exact isPristine_of_not_isBack World.isSound_bare (by decide) not_hasDirectoryAt_sample hm
    ⟨_, rfl, by decide⟩ ⟨_, rfl, by decide⟩

end Layout

/-! ### Files that are opened or made -/

namespace Layout

variable {l : Layout} {p : FilePath} {t : Text} {w w' u : World} {handle : Handle} {f : Failure}

/-- Opens a file as it is, or makes an empty one. The trust file and the seed are opened so. On a
fresh install the root is made first. -/
def openOrMake (l : Layout) (p : FilePath) : StoreM Handle :=
  (Disk.openKept p Disk.privateFileMode).onRefusal fun r =>
    if r.fault = .notFound then do
      l.ensureRoot
      Disk.openKept p Disk.privateFileMode
    else throw (.refused r)

theorem isQuiet_openOrMake (l : Layout) (p : FilePath) : (l.openOrMake p).IsQuiet := by
  refine .onRefusal (Disk.isQuiet_change _ _) fun r => ?_
  split
  · exact .bind (Disk.isQuiet_ensureDirectory _ _) fun _ => Disk.isQuiet_change _ _
  · exact .throw _

theorem openOrMake_of_ok (h : Disk.openKept p Disk.privateFileMode w = .ok handle w') :
    l.openOrMake p w = .ok handle w' :=
  StoreM.onRefusal_of_ok h _

theorem openOrMake_of_notFound {q : Option FilePath}
    (ho : Disk.openKept p Disk.privateFileMode w = .error (.refused ⟨.notFound, q⟩) w)
    (hr : l.ensureRoot w = .ok () u) :
    l.openOrMake p w = Disk.openKept p Disk.privateFileMode u :=
  (StoreM.onRefusal_of_refused ho _).trans (StoreM.bind_of_ok hr _)

/-- A file that could be opened was there, or there was a place for it, at once or else after the
root was made. -/
theorem openOrMake_ok_cases (h : l.openOrMake p w = .ok handle w') :
    Disk.openKept p Disk.privateFileMode w = .ok handle w' ∨
      (∃ r, Disk.openKept p Disk.privateFileMode w = .error (.refused r) w) ∧
      ∃ v, l.ensureRoot w = .ok () v ∧
        Disk.openKept p Disk.privateFileMode v = .ok handle w' := by
  rcases StoreM.onRefusal_ok_cases h with h | ⟨r, v, hno, ht⟩
  · exact .inl h
  obtain rfl := Disk.eq_of_change_eq_error hno
  split at ht
  case isFalse => contradiction
  obtain ⟨_, v, hmade, hopen⟩ := StoreM.exists_of_bind_ok ht
  exact .inr ⟨⟨r, hno⟩, v, hmade, hopen⟩

/-- A file that could not be opened has cost nothing, or the making of the root. -/
theorem openOrMake_error_cases (h : l.openOrMake p w = .error f w') :
    w' = w ∨ w' = w.after l.ensureRoot := by
  rcases StoreM.onRefusal_error_cases h with ⟨h, -⟩ | ⟨r, u, h, ht⟩
  · exact .inl (Disk.eq_of_change_eq_error h).symm
  obtain rfl := Disk.eq_of_change_eq_error h
  split at ht
  case isFalse =>
    injection ht with _ hw
    exact .inl hw.symm
  rcases StoreM.bind_error_cases ht with he | ⟨_, v, hmade, he⟩
  · exact .inr (World.after_of_error he).symm
  · exact .inr ((Disk.eq_of_change_eq_error he).symm.trans (World.after_of_ok hmade).symm)

/-- Where making the root changes something, nothing can be asked about what is in it before. -/
theorem locate_of_made (hr : l.ensureRoot w = .ok () u) (hc : isComponent t)
    (hs : (l.root.child t).IsShort) :
    w = u ∨ ∀ aim, ∃ b, (l.root.child t).bytes = .ok b ∧
      w.tree.locate w.here aim b = .error .notFound := by
  by_cases hd : w.HasDirectoryAt l.root
  · injection (Disk.ensureDirectory_of_hasDirectoryAt hd).symm.trans hr with _ hu
    exact .inl hu
  · exact .inr (World.locate_child hc hs (Disk.misses_or_vacant_of_ensureDirectory hd hr))

/-- What can be opened once the root is made can be opened. -/
theorem openOrMake_of_made (hr : l.ensureRoot w = .ok () u) (hc : isComponent t)
    (hs : (l.root.child t).IsShort)
    (ho : Disk.openKept (l.root.child t) Disk.privateFileMode u = .ok handle w') :
    l.openOrMake (l.root.child t) w = .ok handle w' := by
  rcases locate_of_made hr hc hs with rfl | hl
  · exact openOrMake_of_ok ho
  · obtain ⟨b, hb, hl⟩ := hl .creation
    have hno : Disk.openKept (l.root.child t) Disk.privateFileMode w =
        .error (.refused ⟨.notFound, some (l.root.child t)⟩) w := by
      rw [Disk.openKept, Disk.change_eq hb, FileTree.openKept, hl]
    exact (openOrMake_of_notFound hno hr).trans ho

/-- What is not there once the root is made is not there before. -/
theorem lacks_of_made (hr : l.ensureRoot w = .ok () u) (hc : isComponent t)
    (hs : (l.root.child t).IsShort) (h : u.Lacks (l.root.child t)) :
    w.Lacks (l.root.child t) := by
  rcases locate_of_made hr hc hs with rfl | hl
  · exact h
  · obtain ⟨b, hb, hl⟩ := hl .denoted
    refine ⟨⟨.notFound, some (l.root.child t)⟩, ?_⟩
    rw [Disk.read, Disk.ask_eq hb, FileTree.read, hl]

end Layout

/-! ### Files of profiles -/

/-- The path of the profile with some bytes. -/
def Layout.profile (l : Layout) (raw : Bytes) : FilePath := l.sessions.child (Percent.encode raw)

/-- A profile is something in the sessions directory, or its path is that of the directory. -/
theorem Layout.profile_cases (l : Layout) (raw : Bytes) :
    (∃ t, isComponent t ∧ l.profile raw = l.sessions.child t) ∨ l.profile raw = l.sessions := by
  rw [profile]
  by_cases hc : isComponent (Percent.encode raw) = true
  · exact .inl ⟨_, hc, rfl⟩
  · exact .inr (FilePath.child_of_not_isComponent (eq_false_of_ne_true hc)
      (Percent.slash_not_mem_encode raw) _)

/-- A name that does not denote the sessions directory itself denotes something in it. -/
theorem Layout.exists_child_of_session {l : Layout} {name : ProfileName} {path : FilePath}
    (h : l.session name = .ok path) (hp : path ≠ l.sessions) :
    ∃ t, isComponent t ∧ path = l.sessions.child t := by
  rw [session, ProfileName.stored?] at h
  cases hraw : name.raw? with
  | none =>
    rw [hraw] at h
    contradiction
  | some raw =>
    rw [hraw] at h
    obtain rfl : l.profile raw = path := Except.ok.inj h
    exact (l.profile_cases raw).resolve_right hp

namespace Percent

variable {raw : Bytes}

theorem isComponent_encode (h : encode raw ∉ [[], Text.ofString ".", Text.ofString ".."]) :
    isComponent (encode raw) = true := by
  simp only [List.mem_cons, List.not_mem_nil, or_false, not_or] at h
  have hslash := slash_not_mem_encode raw
  have hdot : encode raw ≠ [.ofChar '.'] := h.2.1
  simp [isComponent, h.1, hdot, hslash]

theorem isBack_encode (h : encode raw ∉ [[], Text.ofString ".", Text.ofString ".."]) :
    FilePath.isBack ⟨encode raw, isComponent_encode h⟩ = false := by
  simp only [List.mem_cons, List.not_mem_nil, or_false, not_or] at h
  exact decide_eq_false h.2.2

end Percent

namespace Layout

variable {l : Layout}

/-! ### Paths that the file tree can be asked about -/

theorem exists_bytes_sessions_iff : (∃ b, l.sessions.bytes = .ok b) ↔ ∃ b, l.root.bytes = .ok b :=
  FilePath.exists_bytes_child_iff isComponent_sessions (by rfl) (by decide)

theorem exists_bytes_hostKeys_iff : (∃ b, l.hostKeys.bytes = .ok b) ↔ ∃ b, l.root.bytes = .ok b :=
  FilePath.exists_bytes_child_iff isComponent_hostKeys (by rfl) (by decide)

theorem exists_bytes_profile_iff (raw : Bytes) :
    (∃ b, (l.profile raw).bytes = .ok b) ↔ ∃ b, l.root.bytes = .ok b := by
  rw [profile]
  by_cases hc : isComponent (Percent.encode raw) = true
  · rw [FilePath.exists_bytes_child_iff hc (ProfileName.encode?_fileName raw)
      (ProfileName.zero_not_mem_fileName raw), exists_bytes_sessions_iff]
  · rw [FilePath.child_of_not_isComponent (eq_false_of_ne_true hc)
      (Percent.slash_not_mem_encode raw), exists_bytes_sessions_iff]

theorem session_of_raw? {name : ProfileName} {raw : Bytes} (h : name.raw? = some raw) :
    l.session name = .ok (l.profile raw) := by
  rw [session, ProfileName.stored?, h]
  rfl

theorem session_of_raw?_eq_none {name : ProfileName} (h : name.raw? = none) :
    l.session name = .error .unencodable := by
  rw [session, ProfileName.stored?, h]
  rfl

/-! ### Where profiles are -/

theorem sessions_components :
    l.sessions.components = l.root.components ++ [⟨_, isComponent_sessions⟩] := by
  rw [sessions, FilePath.child_eq isComponent_sessions]

theorem hostKeys_components :
    l.hostKeys.components = l.root.components ++ [⟨_, isComponent_hostKeys⟩] := by
  rw [hostKeys, FilePath.child_eq isComponent_hostKeys]

theorem seed_components :
    l.seed.components = l.root.components ++ [⟨_, isComponent_seed⟩] := by
  rw [seed, FilePath.child_eq isComponent_seed]

/-- The other places are at most one component below the root. -/
theorem length_components_le {p : FilePath} (h : p ∈ [l.root, l.sessions, l.hostKeys, l.seed]) :
    p.components.length ≤ l.root.components.length + 1 := by
  simp only [List.mem_cons, List.not_mem_nil, or_false] at h
  rcases h with rfl | rfl | rfl | rfl
  · exact Nat.le_succ _
  · exact Nat.le_of_eq (by rw [sessions_components, List.length_append, List.length_singleton])
  · exact Nat.le_of_eq (by rw [hostKeys_components, List.length_append, List.length_singleton])
  · exact Nat.le_of_eq (by rw [seed_components, List.length_append, List.length_singleton])

section Confined

variable {raw raw' : Bytes}

theorem profile_eq (h : Percent.encode raw ∉ [[], Text.ofString ".", Text.ofString ".."]) :
    l.profile raw = { l.sessions with
      components := l.sessions.components ++ [⟨_, Percent.isComponent_encode h⟩] } := by
  rw [profile, FilePath.child_eq (Percent.isComponent_encode h)]

theorem profile_not_mem (h : Percent.encode raw ∉ [[], Text.ofString ".", Text.ofString ".."]) :
    l.profile raw ∉ [l.root, l.sessions, l.hostKeys, l.seed] := by
  intro hm
  have hle := length_components_le hm
  rw [profile_eq h, List.length_append, List.length_singleton, sessions_components,
    List.length_append, List.length_singleton] at hle
  omega

theorem profile_inj (h : Percent.encode raw ∉ [[], Text.ofString ".", Text.ofString ".."])
    (h' : Percent.encode raw' ∉ [[], Text.ofString ".", Text.ofString ".."]) :
    l.profile raw = l.profile raw' ↔ raw = raw' := by
  refine ⟨fun he => Percent.encode_injective ?_, fun he => he ▸ rfl⟩
  rw [profile_eq h, profile_eq h'] at he
  have hc := List.append_cancel_left (congrArg FilePath.components he)
  exact congrArg Component.text (List.cons.inj hc).1

end Confined

/-- **Profiles are in the sessions directory, each at a place of its own.** Whatever the bytes of a
name, the name of its file is written with the alphabet, without slashes and null characters. Unless
it is empty or made of one or two dots, the path of the profile is that of the sessions directory
with just the name of the file behind it, which is the path of nothing else that is stored; and two
profiles like that have one path exactly if their names have the same bytes. -/
theorem session_confined (l : Layout) :
    (∀ (name : ProfileName) (stored : Text), name.stored? = some stored →
      (∀ c ∈ stored, c ∈ Percent.alphabet) ∧
      CodePoint.ofChar '/' ∉ stored ∧ CodePoint.ofNat 0 ∉ stored ∧
      (stored ∉ [[], Text.ofString ".", Text.ofString ".."] →
        ∃ c : Component, c.text = stored ∧ FilePath.isBack c = false ∧
          l.session name = .ok { l.sessions with components := l.sessions.components ++ [c] } ∧
          ∀ p ∈ [l.root, l.sessions, l.hostKeys, l.seed], l.session name ≠ .ok p)) ∧
    (∀ (n m : ProfileName) (s t : Text), n.stored? = some s → m.stored? = some t →
      s ∉ [[], Text.ofString ".", Text.ofString ".."] →
      t ∉ [[], Text.ofString ".", Text.ofString ".."] →
      (l.session n = l.session m ↔ n.raw? = m.raw?)) := by
  refine ⟨fun name stored hstored => ?_, fun n m s t hs ht hns hnt => ?_⟩
  · obtain ⟨raw, hraw, rfl⟩ := ProfileName.stored?_eq_some_iff.1 hstored
    refine ⟨fun c hc => Percent.mem_alphabet_of_mem_encode hc, Percent.slash_not_mem_encode raw,
      Percent.null_not_mem_encode raw, fun hspecial => ?_⟩
    rw [session_of_raw? hraw]
    refine ⟨⟨_, Percent.isComponent_encode hspecial⟩, rfl, Percent.isBack_encode hspecial,
      congrArg _ (profile_eq hspecial), fun p hp he => ?_⟩
    cases he
    exact profile_not_mem hspecial hp
  · obtain ⟨raw, hraw, rfl⟩ := ProfileName.stored?_eq_some_iff.1 hs
    obtain ⟨raw', hraw', rfl⟩ := ProfileName.stored?_eq_some_iff.1 ht
    rw [session_of_raw? hraw, session_of_raw? hraw', hraw, hraw', Except.ok.injEq,
      profile_inj hns hnt, Option.some_inj]

end Layout

/-- The name has a file, and one that the file system can hold: neither the name of the file nor its
path is too long, and the name is none of those that denote directories. -/
structure ProfileName.IsUsable (l : Layout) (name : ProfileName) (raw : Bytes) : Prop where
  raw_eq : name.raw? = some raw
  length_le : (Percent.encode raw).length ≤ maxNameLength
  not_special : Percent.encode raw ∉ [[], Text.ofString ".", Text.ofString ".."]
  short : (l.profile raw).IsShort

namespace ProfileName.IsUsable

variable {l : Layout} {w : World} {name : ProfileName} {raw : Bytes} {d : Nat}

theorem session_eq (h : name.IsUsable l raw) : l.session name = .ok (l.profile raw) :=
  Layout.session_of_raw? h.raw_eq

theorem isComponent_encode (h : name.IsUsable l raw) : isComponent (Percent.encode raw) = true :=
  Percent.isComponent_encode h.not_special

theorem isPlain_fileName (h : name.IsUsable l raw) : IsPlain (fileName raw) :=
  Component.isPlain (c := ⟨_, h.isComponent_encode⟩) (encode?_fileName raw)
    (Percent.isBack_encode h.not_special)

theorem length_fileName_le (h : name.IsUsable l raw) : (fileName raw).length ≤ maxNameLength := by
  rw [length_fileName]
  exact h.length_le

theorem isPlainChild (h : name.IsUsable l raw) :
    l.sessions.IsPlainChild (Percent.encode raw) (fileName raw) where
  valid := h.isComponent_encode
  encode_eq := encode?_fileName raw
  plain := h.isPlain_fileName
  length_le := h.length_fileName_le
  short := h.short

/-- Nothing is found under a fresh root. -/
theorem misses (h : name.IsUsable l raw) (hf : l.IsFresh w) : w.Misses (l.profile raw) :=
  World.misses_child h.isComponent_encode h.short (.inl hf.misses_sessions)

/-- Where there is no file in the sessions directory, a path finds a place for one. -/
theorem finds_of_none (h : name.IsUsable l raw) (hd : w.Finds .denoted l.sessions (.directory d))
    (hn : w.tree.node? ⟨d, fileName raw⟩ = none) (aim : Aim) :
    w.Finds aim (l.profile raw) (.vacant ⟨d, fileName raw⟩) :=
  World.finds_child_of_none h.isPlainChild hd hn aim

/-- A file in the sessions directory is found by its path. -/
theorem finds_of_file (h : name.IsUsable l raw) (hd : w.Finds .denoted l.sessions (.directory d))
    {serial mode : Nat} {c : Bytes}
    (hn : w.tree.node? ⟨d, fileName raw⟩ = some (.file serial mode c)) (aim : Aim) :
    w.Finds aim (l.profile raw) (.file ⟨d, fileName raw⟩ serial mode c) :=
  World.finds_child_of_file h.isPlainChild hd hn aim

end ProfileName.IsUsable

end ClientStore
