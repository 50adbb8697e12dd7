import ClientStore.Proofs.Failures
import ClientStore.Proofs.Reports

/-!
# What a failed change brings to light

A change that fails may have made directories, or an empty trust file. Nothing is lost by that. But
a path leads further than before where a directory was missing on its way, and so something that
could not be reported may come to light. It takes a path that goes through the new directory and
leaves it again, or a link that does; or a link that leads to the place where the trust file would
be.

A store hides nothing if there is no such path. A store without links hides nothing as long as its
root is there or can be made without going back.

## Main definitions

* `Layout.KeepsApart` — a new file at a place would neither be a profile nor show as one.
* `Layout.HidesNothing` — nothing can come to light.

## Main results

* `Layout.retains_after_ensureSessions` — making directories brings nothing to light.
* `Layout.retains_of_openAtEnd` — nor does making an empty trust file.
* `SessionStore.Change.retains_of_error` — nor does a failed change.
-/

namespace ClientStore

open FileTree

namespace World

variable {w w' : World} {p q : FilePath} {t : Text} {c : Bytes}

/-- In an empty directory there is no file. -/
theorem IsEmptyAt.not_holds_child (he : w.IsEmptyAt p) (h : isComponent t) :
    ¬ w.Holds (p.child t) c := by
  intro hc
  obtain ⟨handle, mode, hf⟩ := Disk.holds_iff.1 hc
  obtain ⟨d, hd, hempty⟩ := he
  rcases hf.child_cases h hd with
    ⟨n, hs⟩ | ⟨b, -, ⟨target, hn⟩ | hs | ⟨serial, mode', c', -, hn⟩⟩
  · contradiction
  · exact absurd ((hempty b).symm.trans hn) (by simp)
  · contradiction
  · exact absurd ((hempty b).symm.trans hn) (by simp)

/-- A file that can be read once directories have been added could be read before, unless its path
was a link. -/
theorem AddsDirectories.holds_child (ha : w.AddsDirectories w' q) (hw : w.IsSound)
    (h : isComponent t) (hp : w.HasDirectoryAt p)
    (hlink : ∀ place target, ¬ w.Finds .itself (p.child t) (.link place target))
    (hc : w'.Holds (p.child t) c) : w.Holds (p.child t) c := by
  obtain ⟨handle, mode, hf⟩ := Disk.holds_iff.1 hc
  obtain ⟨d, hd⟩ := hp
  rcases hf.child_cases h (ha.finds hw hd (by simp)) with
    ⟨n, hs⟩ | ⟨b, hchild, ⟨target, hn⟩ | hs | ⟨serial, mode', c', hs, hn⟩⟩
  · contradiction
  · exact absurd (finds_child_of_link hchild hd (ha.keeps.tree.link _ _ hn)) (hlink _ _)
  · contradiction
  · rcases ha.added _ _ hn with hn | ⟨n, _, hn, -⟩
    · injection hs with _ _ _ hc
      subst hc
      exact Disk.holds_iff.2 ⟨⟨_, serial⟩, mode', finds_child_of_file hchild hd hn .denoted⟩
    · contradiction

end World

namespace Layout

variable {l : Layout} {w u : World} {place : Place} {mode : Nat} {handle : Handle}

/-! ### Making the root -/

/-- There is no root, or nothing is in it. -/
def IsBlank (l : Layout) (w : World) : Prop := ¬ w.HasDirectoryAt l.root ∨ w.IsEmptyAt l.root

theorem IsBlank.eq_vacant {aim : Aim} {s : Spot} {c : Component} (h : l.IsBlank w)
    (hc : FilePath.isBack c = false) (hf : w.Finds aim (l.root.child c.text) s) :
    ∃ place, s = .vacant place := by
  rcases h with h | h
  · exact absurd (hf.parent c.valid) h
  · exact h.eq_vacant hc hf

theorem IsBlank.not_hasDirectoryAt (h : l.IsBlank w) : ¬ w.HasDirectoryAt l.sessions := by
  rintro ⟨d, hd⟩
  obtain ⟨place, he⟩ := h.eq_vacant (c := ⟨_, isComponent_sessions⟩) rfl hd
  contradiction

/-- Where nothing is there is nothing to be retained. -/
theorem IsBlank.retains (h : l.IsBlank u) (w : World) : l.Retains u w where
  profile raw c hc := by
    obtain ⟨handle, mode, hf⟩ := Disk.holds_iff.1 hc
    rcases l.profile_cases raw with ⟨t, ht, he⟩ | he
    · rw [he] at hf
      exact absurd (hf.parent ht) h.not_hasDirectoryAt
    · rw [he] at hf
      obtain ⟨place, hs⟩ := h.eq_vacant (c := ⟨_, isComponent_sessions⟩) rfl hf
      contradiction
  entry b hb := by
    obtain ⟨d, hd, -⟩ := hb.hasDirectoryAt
    exact absurd ⟨d, hd⟩ h.not_hasDirectoryAt
  hostKeys c _ hc := by
    obtain ⟨handle, mode, hf⟩ := Disk.holds_iff.1 hc
    obtain ⟨place, hs⟩ := h.eq_vacant (c := ⟨_, isComponent_hostKeys⟩) rfl hf
    contradiction

/-- Once a root that was not there is made, or could not be made, there is nothing in it. -/
theorem isBlank_after_ensureRoot (hw : w.IsSound)
    (hback : ∀ c ∈ l.root.components, FilePath.isBack c = false) (hd : ¬ w.HasDirectoryAt l.root) :
    l.IsBlank (w.after l.ensureRoot) := by
  have hens := Disk.ensures_ensureDirectory hw l.root Disk.privateDirectoryMode
  by_cases hmade : (w.after l.ensureRoot).HasDirectoryAt l.root
  · exact .inr (Disk.isEmptyAt_of_ensureDirectory hw hback hd (hens.ok hmade))
  · exact .inl hmade

/-- **Making the root brings nothing to light**, unless its path leads back. -/
theorem retains_after_ensureRoot (hw : w.IsSound)
    (hroot : w.HasDirectoryAt l.root ∨ ∀ c ∈ l.root.components, FilePath.isBack c = false) :
    l.Retains (w.after l.ensureRoot) w := by
  by_cases hd : w.HasDirectoryAt l.root
  · have hdone : l.ensureRoot w = .ok () w := Disk.ensureDirectory_of_hasDirectoryAt hd
    rw [World.after_of_ok hdone]
    exact .refl l w
  · exact (isBlank_after_ensureRoot hw (hroot.resolve_left hd) hd).retains w

/-! ### Making the sessions directory -/

/-- A new sessions directory is empty, and a trust file that could not be read before can only come
to light if it is a link. -/
theorem retains_after_ensureSessions_of_root (hw : w.IsSound) (hd : w.HasDirectoryAt l.root)
    (hk : (∃ c, w.Holds l.hostKeys c) ∨
      ∀ place target, ¬ w.Finds .itself l.hostKeys (.link place target)) :
    l.Retains (w.after l.ensureSessions) w := by
  have hadds := l.adds_ensureSessions hw
  rw [World.after_congr (ensureSessions_of_hasDirectoryAt_root hd)] at hadds ⊢
  rcases Disk.ensureOne_cases w l.sessions Disk.privateDirectoryMode with
    ⟨-, h⟩ | ⟨place, hf, h⟩ | ⟨-, -, f, h⟩
  · rw [World.after_of_ok h]
    exact .refl l w
  · rw [World.after_of_ok h] at hadds ⊢
    have hempty := Disk.isEmptyAt_graftDirectory hw hf Disk.privateDirectoryMode
    refine ⟨fun raw c hc => ?_, fun b hb => ?_, fun c _ hc => ?_⟩
    · rcases l.profile_cases raw with ⟨t, ht, he⟩ | he
      · exact absurd (he ▸ hc) (hempty.not_holds_child ht)
      · obtain ⟨d, hd, -⟩ := hempty
        obtain ⟨handle, mode, hfile⟩ := Disk.holds_iff.1 (he ▸ hc)
        exact absurd (hd.unique hfile) (by simp)
    · obtain ⟨d, hd, node, hn⟩ := hb.hasDirectoryAt
      obtain ⟨d', hd', hnone⟩ := hempty
      injection hd.unique hd' with he
      exact absurd ((hnone b).symm.trans (he ▸ hn)) (by simp)
    · rcases hk with ⟨c', hc'⟩ | hk
      · exact Disk.holds_unique (hadds.holds hw hc') hc ▸ hc'
      · exact hadds.holds_child hw isComponent_hostKeys hd hk hc
  · rw [World.after_of_error h]
    exact .refl l w

/-! ### Making the trust file -/

/-- A new file at the place would not be a profile, and it would not show as one: it would not be in
the sessions directory, and no link in there leads to the place. -/
structure KeepsApart (l : Layout) (w : World) (place : Place) : Prop where
  profile : ∀ raw, ¬ w.Finds .denoted (l.profile raw) (.vacant place)
  directory : ¬ w.Finds .denoted l.sessions (.directory place.directory)
  link : ∀ path d name target, l.sessions.bytes = .ok path →
    w.tree.openDirectory w.here path = .ok d → w.tree.node? ⟨d, name⟩ = some (.link target) →
    w.tree.locate w.here .denoted (Cursor.entryPath path name) ≠ .ok (.vacant place)

/-- In an empty root the place for the trust file is one for nothing else. -/
theorem keepsApart_of_isEmptyAt (h : w.IsEmptyAt l.root)
    (hf : w.Finds .denoted l.hostKeys (.vacant place)) : l.KeepsApart w place := by
  have hno : ¬ w.HasDirectoryAt l.sessions := IsBlank.not_hasDirectoryAt (.inr h)
  refine ⟨fun raw hp => ?_, fun hd => hno ⟨_, hd⟩, fun path d _ _ hb hd _ =>
    absurd ⟨d, path, hb, openDirectory_eq_ok_iff.1 hd⟩ hno⟩
  rcases l.profile_cases raw with ⟨t, ht, he⟩ | he
  · rw [he] at hp
    exact hno (hp.parent ht)
  rw [he] at hp
  obtain ⟨d, hd, hempty⟩ := h
  have hname {t : Text} (ht : isComponent t)
      (hc : w.Finds .denoted (l.root.child t) (.vacant place)) :
      Utf8.encode? t = some place.name := by
    rcases hc.child_cases ht hd with
      ⟨n, hs⟩ | ⟨b, hchild, ⟨target, hn⟩ | hs | ⟨_, _, _, hs, -⟩⟩
    · contradiction
    · exact absurd ((hempty b).symm.trans hn) (by simp)
    · injection hs with hs
      rw [hs]
      exact hchild.encode_eq
    · contradiction
  have hsame := (hname isComponent_sessions hp).trans (hname isComponent_hostKeys hf).symm
  exact absurd hsame (by decide)

/-- **A new trust file brings nothing to light**, if its place is apart. -/
theorem retains_of_create (hw : w.IsSound) (hf : w.Finds .denoted l.hostKeys (.vacant place))
    (ha : l.KeepsApart w place) :
    l.Retains { w with tree := (w.tree.create place mode).2 } w := by
  have hv : w.tree.isVacant place = true := hf.isIn hw
  have holds {p : FilePath} {c : Bytes} (hp : ¬ w.Finds .denoted p (.vacant place))
      (hc : World.Holds { w with tree := (w.tree.create place mode).2 } p c) : w.Holds p c := by
    obtain ⟨handle, old, hfile⟩ := Disk.holds_iff.1 hc
    rcases Disk.finds_of_create hv hfile with hfile | ⟨-, hp'⟩
    · exact Disk.holds_iff.2 ⟨handle, old, hfile⟩
    · exact absurd hp' hp
  refine ⟨fun raw c hc => holds (ha.profile raw) hc, fun b hb => ?_, fun c hne hc => ?_⟩
  · obtain ⟨path, d, node, hb, hd, hn, hr⟩ := hb
    rw [openDirectory_eq_ok_iff] at hd
    rcases locate_of_create hv hd with hd | ⟨hd, -⟩
    case inr => contradiction
    have hnode : w.tree.node? ⟨d, b⟩ = some node := by
      rw [node?_create hv] at hn
      split at hn
      · next he => exact absurd ⟨path, hb, he ▸ hd⟩ ha.directory
      · exact hn
    rw [← openDirectory_eq_ok_iff] at hd
    refine ⟨path, d, node, hb, hd, hnode, ?_⟩
    rw [Cursor.isRegular_iff] at hr ⊢
    refine hr.imp_right ?_
    rintro ⟨⟨target, rfl⟩, q, serial, old, c, hq⟩
    rcases locate_of_create hv hq with hq | ⟨-, hq⟩
    · exact ⟨⟨target, rfl⟩, q, serial, old, c, hq⟩
    · exact absurd hq (ha.link path d b target hb hd hnode)
  · obtain ⟨handle, old, hfile⟩ := Disk.holds_iff.1 hc
    rcases Disk.finds_of_create hv hfile with hfile | ⟨hs, -⟩
    · exact Disk.holds_iff.2 ⟨handle, old, hfile⟩
    · injection hs with _ _ _ hs
      exact absurd hs hne

theorem retains_of_openKept (hw : w.IsSound)
    (ha : ∀ place, w.Finds .denoted l.hostKeys (.vacant place) → l.KeepsApart w place)
    (ho : Disk.openKept l.hostKeys mode w = .ok handle u) : l.Retains u w := by
  rcases Disk.openKept_ok_cases ho with rfl | ⟨place, hf, rfl⟩
  · exact .refl l _
  · have hd := hf.denoted (by simp)
    exact retains_of_create hw hd (ha place hd)

/-! ### Nothing to bring to light -/

/-- The store hides nothing. Where the root would have to be made, its path does not lead back;
where the sessions directory would have to be made, the trust file is there already or is at least
no link; and where the trust file would have to be made, its place is apart. -/
structure HidesNothing (l : Layout) (w : World) : Prop where
  root : w.HasDirectoryAt l.root ∨ ∀ c ∈ l.root.components, FilePath.isBack c = false
  hostKeys : w.HasDirectoryAt l.sessions ∨ (∃ c, w.Holds l.hostKeys c) ∨
    ∀ place target, ¬ w.Finds .itself l.hostKeys (.link place target)
  apart : ∀ place, w.Finds .denoted l.hostKeys (.vacant place) → l.KeepsApart w place

theorem HidesNothing.congr {w' : World} (h : l.HidesNothing w) (ht : w.tree = w'.tree)
    (hh : w.here = w'.here) : l.HidesNothing w' := by
  have hfinds {aim : Aim} {p : FilePath} {s : Spot} : w.Finds aim p s ↔ w'.Finds aim p s :=
    World.finds_congr ht hh
  have hdir {p : FilePath} : w.HasDirectoryAt p ↔ w'.HasDirectoryAt p :=
    exists_congr fun _ => hfinds
  refine ⟨h.root.imp_left hdir.1, ?_, fun place hf => ?_⟩
  · simp only [← hdir, ← hfinds, ← Disk.holds_congr ht hh]
    exact h.hostKeys
  · have ha := h.apart place (hfinds.2 hf)
    refine ⟨fun raw hr => ha.profile raw (hfinds.2 hr), fun hd => ha.directory (hfinds.2 hd), ?_⟩
    rw [← ht, ← hh]
    exact ha.link

/-- **Making the sessions directory brings nothing to light.** -/
theorem retains_after_ensureSessions (hw : w.IsSound) (h : l.HidesNothing w) :
    l.Retains (w.after l.ensureSessions) w := by
  by_cases hs : w.HasDirectoryAt l.sessions
  · rw [World.after_of_ok (ensureSessions_of_hasDirectoryAt hs)]
    exact .refl l w
  by_cases hd : w.HasDirectoryAt l.root
  · exact retains_after_ensureSessions_of_root hw hd (h.hostKeys.resolve_left hs)
  -- the root is made first, and what is made after that is made in an empty root
  have hmade := retains_after_ensureRoot hw h.root
  rcases StoreM.ok_or_error l.ensureRoot w with ⟨_, hr⟩ | ⟨f, hr⟩
  · have hempty := Disk.isEmptyAt_of_ensureDirectory hw (h.root.resolve_left hd) hd hr
    have hroot : (w.after l.ensureRoot).HasDirectoryAt l.root := hempty.imp fun _ h => h.1
    have hagain : l.ensureSessions (w.after l.ensureRoot) =
        Disk.ensureDirectory l.sessions Disk.privateDirectoryMode (w.after l.ensureRoot) :=
      StoreM.bind_of_ok (Disk.ensureDirectory_of_hasDirectoryAt hroot) _
    have hsame : w.after l.ensureSessions = (w.after l.ensureRoot).after l.ensureSessions :=
      World.after_congr ((StoreM.bind_of_ok hr _).trans hagain.symm)
    rw [hsame]
    refine (retains_after_ensureSessions_of_root ?_ hroot (.inr fun place target hf => ?_)).trans
      hmade
    · exact (Disk.keeps_of_ensureDirectory hw hr).isSound hw
    · obtain ⟨_, hv⟩ := hempty.eq_vacant (c := ⟨_, isComponent_hostKeys⟩) rfl hf
      contradiction
  · have hsame : w.after l.ensureSessions = w.after l.ensureRoot :=
      World.after_of_error (StoreM.bind_of_error hr _)
    rwa [hsame]

/-- **Opening the trust file brings nothing to light.** -/
theorem retains_of_openAtEnd (hw : w.IsSound) (h : l.HidesNothing w)
    (ho : TrustFile.openAtEnd l w = .ok handle u) : l.Retains u w := by
  rw [TrustFile.openAtEnd_eq] at ho
  rcases openOrMake_ok_cases ho with ho | ⟨-, v, hv, ho⟩
  · exact retains_of_openKept hw h.apart ho
  by_cases hd : w.HasDirectoryAt l.root
  · obtain rfl : w = v := by
      injection (Disk.ensureDirectory_of_hasDirectoryAt hd).symm.trans hv
    exact retains_of_openKept hw h.apart ho
  · have hempty := Disk.isEmptyAt_of_ensureDirectory hw (h.root.resolve_left hd) hd hv
    have hmade := retains_after_ensureRoot hw h.root
    rw [World.after_of_ok hv] at hmade
    exact (retains_of_openKept ((Disk.keeps_of_ensureDirectory hw hv).isSound hw)
      (fun place hf => keepsApart_of_isEmptyAt hempty hf) ho).trans hmade

/-- A store without a root hides nothing, unless the path of the root leads back. -/
theorem hidesNothing_of_not_hasDirectoryAt
    (hback : ∀ c ∈ l.root.components, FilePath.isBack c = false) (hd : ¬ w.HasDirectoryAt l.root) :
    l.HidesNothing w where
  root := .inr hback
  hostKeys := .inr (.inr fun _ _ hf => hd (hf.parent isComponent_hostKeys))
  apart _ hf := absurd (hf.parent isComponent_hostKeys) hd

end Layout

/-! ### Failed changes -/

namespace SessionStore.Change

variable {s : SessionStore} {change : Change} {w w' : World} {f : Failure}

/-- **A failed change loses nothing, and it brings nothing to light** where nothing is hidden. -/
theorem retains_of_error (hw : w.IsSound) (h : change.run s w = .error f w') :
    s.layout.Retains w w' ∧ (s.layout.HidesNothing w → s.layout.Retains w' w) := by
  cases change with
  | openForWrite name =>
    rcases StoreM.bind_error_cases h with h | ⟨_, _, -, h⟩
    case inr => contradiction
    refine ⟨Layout.retains_of_adds _ hw (adds_of_openForWrite hw h), fun hhide => ?_⟩
    rcases openForWrite_error_cases h with rfl | rfl
    · exact .refl _ _
    · exact Layout.retains_after_ensureSessions hw hhide
  | delete name =>
    obtain ⟨rfl, -⟩ := eq_of_delete h
    exact ⟨.refl _ _, fun _ => .refl _ _⟩
  | record k =>
    refine ⟨Layout.retains_of_adds _ hw (TrustFile.adds_of_record hw h), fun hhide => ?_⟩
    rcases TrustFile.record_error_cases h with ⟨e, he⟩ | ⟨-, handle, ho⟩
    · rcases TrustFile.openAtEnd_error_cases he with rfl | rfl
      · exact .refl _ _
      · exact Layout.retains_after_ensureRoot hw hhide.root
    · exact Layout.retains_of_openAtEnd hw hhide ho

end SessionStore.Change

end ClientStore
