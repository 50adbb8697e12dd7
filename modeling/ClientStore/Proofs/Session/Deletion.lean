import ClientStore.Proofs.Session.Store

/-!
# What a deletion takes away

Deleting a profile takes away what is at its path, if that is a file or a link. The path is one
component below that of the sessions directory, so what goes is the entry with the name of the file
in the directory that the sessions path denotes, wherever links on the way have led.

Three names are not those of entries. Two dots always lead to a directory, and a directory stays.
But the empty name and the single dot lead nowhere, so that the path of such a profile is the
sessions path itself. If a link has been put there, or a file, then that is taken away, though it is
not in the directory that the path denotes.

## Main definitions

* `SessionStore.IsPlaceOf` — the place that a deletion is about.

## Main results

* `SessionStore.delete_cases` — one entry is taken away, or nothing happens.
* `Layout.hasEntryAt_profile_iff` — which entry the path of a profile is that of.
* `SessionStore.node?_after_delete` — exactly what is in the tree after a deletion.
-/

namespace ClientStore

open FileTree StoreM

/-! ### The entry at the path of a profile -/

namespace Layout

variable {l : Layout} {w : World} {raw : Bytes} {place : Place}

/-- The names that lead nowhere leave the path of the sessions directory. -/
theorem profile_eq_sessions (h : Percent.encode raw ∈ [[], Text.ofString "."]) :
    l.profile raw = l.sessions := by
  refine FilePath.child_of_not_isComponent ?_ (Percent.slash_not_mem_encode raw) _
  simp only [List.mem_cons, List.not_mem_nil, or_false] at h
  rcases h with h | h
  · rw [h]
    rfl
  · rw [h]
    rfl

/-- **The entry at the path of a profile** is the one with the name of its file, in the directory
that the sessions path denotes; or it is the one at that path, if the name leads nowhere. -/
theorem hasEntryAt_profile_iff :
    w.HasEntryAt (l.profile raw) place ↔
      (∃ node, w.tree.node? place = some node ∧ node.isDirectory = false) ∧
        (l.profile raw).IsShort ∧
          (Percent.encode raw ∉ [[], Text.ofString ".", Text.ofString ".."] ∧
              w.IsPlaceIn l.sessions (Percent.encode raw) place ∨
            Percent.encode raw ∈ [[], Text.ofString "."] ∧
              w.IsPlaceIn l.root "sessions" place) := by
  by_cases hnowhere : Percent.encode raw ∈ [[], Text.ofString "."]
  · have hspecial : Percent.encode raw ∈ [[], Text.ofString ".", Text.ofString ".."] :=
      List.mem_append_left [Text.ofString ".."] hnowhere
    have hback : FilePath.isBack ⟨_, isComponent_sessions⟩ = false := by decide
    rw [profile_eq_sessions hnowhere, sessions, World.hasEntryAt_child_iff isComponent_sessions]
    simp only [hnowhere, hspecial, hback]
    tauto
  by_cases hback : Percent.encode raw = Text.ofString ".."
  · have hc : isComponent (Percent.encode raw) = true := by
      rw [hback]
      decide
    rw [profile, World.hasEntryAt_child_iff hc]
    refine iff_of_false ?_ ?_
    · rintro ⟨⟨-, hno⟩, -⟩
      exact absurd ((decide_eq_true hback).symm.trans hno) (by decide)
    · rintro ⟨-, -, ⟨hno, -⟩ | ⟨hno, -⟩⟩
      · exact hno (by simp [hback])
      · exact hnowhere hno
  · have hplain : Percent.encode raw ∉ [[], Text.ofString ".", Text.ofString ".."] := by
      simp only [List.mem_cons, List.not_mem_nil, or_false, not_or] at hnowhere ⊢
      exact ⟨hnowhere.1, hnowhere.2, hback⟩
    rw [profile, World.hasEntryAt_child_iff (Percent.isComponent_encode hplain)]
    simp only [hnowhere, hplain, Percent.isBack_encode hplain]
    tauto

end Layout

/-! ### Deleting -/

namespace SessionStore

variable {s : SessionStore} {w : World} {name : ProfileName} {raw : Bytes}

/-- The place that a deletion is about: that of the name of the profile's file, in the directory
that the sessions path denotes. For two dots there is none; for the names that lead nowhere it is
the place of the sessions path itself. -/
def IsPlaceOf (s : SessionStore) (w : World) (name : ProfileName) (place : Place) : Prop :=
  ∃ stored path, name.stored? = some stored ∧ s.layout.session name = .ok path ∧ path.IsShort ∧
    (stored ∉ [[], Text.ofString ".", Text.ofString ".."] ∧
        w.IsPlaceIn s.layout.sessions stored place ∨
      stored ∈ [[], Text.ofString "."] ∧
        w.IsPlaceIn s.layout.root (Text.ofString "sessions") place)

theorem hasEntryAt_iff_isPlaceOf (h : name.raw? = some raw) {place : Place} :
    w.HasEntryAt (s.layout.profile raw) place ↔
      (∃ node, w.tree.node? place = some node ∧ node.isDirectory = false) ∧
        s.IsPlaceOf w name place := by
  have hstored : name.stored? = some (Percent.encode raw) :=
    ProfileName.stored?_eq_some_iff.2 ⟨raw, h, rfl⟩
  rw [Layout.hasEntryAt_profile_iff, IsPlaceOf, hstored, Layout.session_of_raw? h]
  simp

/-- Deleting is removing, with a message behind it and something to do about a refusal. -/
theorem exists_delete_eq (h : name.raw? = some raw) (w : World) :
    ∃ message, s.delete name w =
      ((Disk.remove (s.layout.profile raw) >>= fun _ => log .debug message).onRefusal fun r =>
        if meansNoFile r then pure ()
        else throw (.store .deleteSession (s.layout.profile raw) r)) w :=
  ⟨_, bind_lift_of_ok (Layout.session_of_raw? h) _ w⟩

/-- **A deletion takes away the entry at the path of the profile**, or it does nothing. -/
theorem delete_cases (h : name.raw? = some raw) :
    (∃ place, w.HasEntryAt (s.layout.profile raw) place ∧
      (w.after (s.delete name)).tree = w.tree.prune place ∧
      (w.after (s.delete name)).here = w.here) ∨
    (∀ place, ¬ w.HasEntryAt (s.layout.profile raw) place) ∧ w.after (s.delete name) = w := by
  obtain ⟨message, hdelete⟩ := exists_delete_eq (s := s) h w
  rcases Disk.remove_cases w (s.layout.profile raw) with ⟨place, he, hr⟩ | ⟨hno, f, hr⟩
  · have hlogged : (Disk.remove (s.layout.profile raw) >>= fun _ => log .debug message) w =
        .ok () _ := bind_of_ok hr _
    rw [World.after_of_ok (hdelete.trans (onRefusal_of_ok hlogged _))]
    exact .inl ⟨place, he, rfl, rfl⟩
  · have hfails := bind_of_error hr fun _ => log .debug message
    refine .inr ⟨hno, (World.after_congr hdelete).trans ?_⟩
    by_cases hf : ∃ r, f = .refused r
    · obtain ⟨r, rfl⟩ := hf
      rw [World.after_congr (onRefusal_of_refused hfails _)]
      split
      · rfl
      · rfl
    · exact World.after_of_error (onRefusal_of_error hfails (not_exists.1 hf) _)

/-- A name without bytes is not the name of anything. -/
theorem after_delete_of_raw?_eq_none (h : name.raw? = none) : w.after (s.delete name) = w := by
  have hfails : (liftM (s.layout.session name) : StoreM FilePath) w = .error .unencodable w :=
    lift_of_error (Layout.session_of_raw?_eq_none h) w
  exact World.after_of_error (bind_of_error hfails _)

/-- **What is in the tree after a deletion.** Nothing is gone but one entry at most, and all
directories are where they were. What is gone is the file or the link with the name of the profile's
file in the directory that the sessions path denotes. For two dots it is nothing; but for the names
that lead nowhere it is the file or the link at the sessions path itself. -/
theorem node?_after_delete (s : SessionStore) (w : World) (name : ProfileName) :
    ∃ removed : Option Place,
      (∀ q, (w.after (s.delete name)).tree.node? q =
        if removed = some q then none else w.tree.node? q) ∧
      (∀ n, (w.after (s.delete name)).tree.place? n = w.tree.place? n ∧
        (w.after (s.delete name)).tree.mode? n = w.tree.mode? n) ∧
      (w.after (s.delete name)).here = w.here ∧
      ∀ place, removed = some place ↔
        (∃ node, w.tree.node? place = some node ∧ node.isDirectory = false) ∧
          s.IsPlaceOf w name place := by
  cases hraw : name.raw? with
  | none =>
    rw [after_delete_of_raw?_eq_none hraw]
    refine ⟨none, fun q => rfl, fun n => ⟨rfl, rfl⟩, rfl, fun place => iff_of_false nofun ?_⟩
    rintro ⟨-, stored, -, hstored, -⟩
    rw [ProfileName.stored?, hraw] at hstored
    contradiction
  | some raw =>
    rcases delete_cases (s := s) (w := w) hraw with ⟨place, he, ht, hh⟩ | ⟨hno, hsame⟩
    · obtain ⟨⟨node, hn, hdir⟩, -⟩ := (hasEntryAt_iff_isPlaceOf hraw).1 he
      rw [ht]
      refine ⟨some place, fun q => ?_, fun n => ⟨place?_prune n, mode?_prune n⟩, hh, fun q => ?_⟩
      · rw [node?_prune (by rw [hn]; exact hdir)]
        simp only [Option.some_inj, eq_comm]
      · rw [← hasEntryAt_iff_isPlaceOf hraw, Option.some_inj]
        exact ⟨fun h => h ▸ he, he.unique⟩
    · rw [hsame]
      refine ⟨none, fun q => rfl, fun n => ⟨rfl, rfl⟩, rfl, fun place => ?_⟩
      rw [← hasEntryAt_iff_isPlaceOf hraw]
      exact iff_of_false nofun (hno place)

/-- The world in which the sessions directory is somewhere else, with a link in its place and one
profile in it. -/
def relocatedWorld : World :=
  World.bare.after do
    Disk.makeDirectory (.ofText "elsewhere") Disk.privateDirectoryMode
    Layout.sample.ensureRoot
    let target ← Text.systemBytes "../elsewhere"
    Disk.change Layout.sample.sessions fun t here b => (t.makeLink here b target).map ((), ·)
    let _ ← Disk.openEmptied (Layout.sample.profile [0x61]) Disk.sharedFileMode

/-- The place of the link. -/
def linkPlace : Place := ⟨2, (Utf8.encode? "sessions").getD []⟩

/-- Deleting the profile with the empty name takes the link away, and with it all profiles. -/
theorem list_after_delete_relocatedWorld :
    relocatedWorld.IsPlaceIn Layout.sample.root (Text.ofString "sessions") linkPlace ∧
      (relocatedWorld.tree.node? linkPlace).isSome = true ∧
      (relocatedWorld.after (sample.delete (.text []))).tree.node? linkPlace = none ∧
      relocatedWorld.outcome sample.list = .ok ["a"] ∧
      (relocatedWorld.after (sample.delete (.text []))).outcome sample.list = .ok [] := by
  have hroot : relocatedWorld.tree.locate relocatedWorld.here .denoted
      [0x73, 0x74, 0x6F, 0x72, 0x65] = .ok (.directory 2) := by decide +kernel
  exact ⟨⟨⟨_, rfl, hroot⟩, by decide⟩, by decide +kernel, by decide +kernel, by decide +kernel,
    by decide +kernel⟩

end SessionStore

end ClientStore
