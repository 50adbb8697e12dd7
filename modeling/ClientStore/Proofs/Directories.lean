import ClientStore.Proofs.Disk

/-!
# Making directories

To make a directory where it is missing together with those above it, the program tries first and
looks for the reason of a refusal afterwards, and it may get stuck half way. What can be said of
this without following the attempts is that it succeeds exactly if there is a directory in the end,
that it does nothing to a directory that is there, and that doing it twice is doing it once.

A directory that was not there before is new, and a new directory is empty. This needs the path to
have no component that leads back: `a/../b` is no directory as long as there is no `a`, and once `a`
is made it may be an old one.

## Main definitions

* `World.IsPlaceIn` — the place of a name in the directory at a path.
* `Disk.ensureOne` — a directory is made unless it is there, and none above it.

## Main results

* `World.hasEntryAt_child_iff` — the path of a child is that of the file or the link with its name.
* `Disk.ensureDirectory_of_hasDirectoryAt` — nothing is done to a directory that is there.
* `Disk.ensures_ensureDirectory` — all goes well exactly if there is a directory in the end.
* `Disk.after_after_ensureDirectory` — doing it twice is doing it once.
* `Disk.exists_vacant_of_ensureDirectory` — a directory that was not there is made last.
* `Disk.isEmptyAt_of_ensureDirectory` — a directory that was not there is empty.
* `Disk.ensureDirectory_error_cases` — what is at a path of which no directory can be made.
-/

namespace ClientStore

open FileTree

/-! ### Nodes in directories -/

/-- The name of a child is one that nodes can have, and its path is not too long. What such a child
is depends on the node with its name. -/
structure FilePath.IsPlainChild (p : FilePath) (t : Text) (b : Bytes) : Prop where
  valid : isComponent t
  encode_eq : Utf8.encode? t = some b
  plain : IsPlain b
  length_le : b.length ≤ maxNameLength
  short : (p.child t).IsShort

namespace World

variable {w w' : World} {p : FilePath} {t : Text} {aim : Aim} {s : Spot} {d : Nat}

theorem exists_encode?_of_isShort_child (h : isComponent t) (hs : (p.child t).IsShort) :
    ∃ b, Utf8.encode? t = some b := by
  obtain ⟨bytes, hb, -⟩ := hs
  have he := (FilePath.bytes_eq_ok_iff.1 hb).1
  rw [FilePath.toText_child h] at he
  obtain ⟨-, b, -, hb, -⟩ := Utf8.exists_of_encode?_append he
  exact ⟨b, hb⟩

/-- Whatever a child is, its parent is a directory. -/
theorem Finds.parent (h : isComponent t) (hf : w.Finds aim (p.child t) s) : w.HasDirectoryAt p := by
  obtain ⟨hshort, hl⟩ := finds_iff.1 hf
  obtain ⟨b, hb⟩ := exists_encode?_of_isShort_child h hshort
  rw [FilePath.names_child h hb, FilePath.start_child h] at hl
  obtain ⟨d, -, hd, -⟩ := hl.of_append
  exact ⟨d, finds_iff.2 ⟨FilePath.isShort_of_child h hshort, hd⟩⟩

/-- What a child is, is settled in the directory that its parent is. -/
theorem Finds.exists_walk_child (h : isComponent t) (hf : w.Finds .denoted p (.directory d))
    {b : Bytes} (hb : Utf8.encode? t = some b) :
    ∃ j, ∀ aim, walk w.tree aim maxLinks ((p.child t).start w.here) (p.child t).names =
      walk w.tree aim j d [b] := by
  obtain ⟨j, hj⟩ := (finds_iff.1 hf).2.walk_append
  refine ⟨j, fun aim => ?_⟩
  rw [FilePath.names_child h hb, FilePath.start_child h]
  exact hj aim [] (Component.bytes_ne_nil (c := ⟨t, h⟩) hb)

/-- A path that can be asked for finds what the walk to it finds. -/
theorem finds_child_iff (h : isComponent t) (hf : w.Finds .denoted p (.directory d))
    (hs : (p.child t).IsShort) {b : Bytes} (hb : Utf8.encode? t = some b) :
    ∃ j, ∀ aim s, w.Finds aim (p.child t) s ↔ Leads w.tree aim j d [b] s := by
  obtain ⟨j, hj⟩ := hf.exists_walk_child h hb
  refine ⟨j, fun aim s => ?_⟩
  rw [finds_iff, ← walk_eq_ok_iff, hj, walk_eq_ok_iff]
  exact and_iff_right hs

section PlainChild

variable {b : Bytes} (hc : p.IsPlainChild t b) (hd : w.Finds .denoted p (.directory d))

include hc hd

theorem finds_child_of_none (hn : w.tree.node? ⟨d, b⟩ = none) (aim : Aim) :
    w.Finds aim (p.child t) (.vacant ⟨d, b⟩) := by
  obtain ⟨j, hj⟩ := finds_child_iff hc.valid hd hc.short hc.encode_eq
  exact (hj aim _).2 (.vacant hc.plain hc.length_le hn)

theorem finds_child_of_file {serial mode : Nat} {content : Bytes}
    (hn : w.tree.node? ⟨d, b⟩ = some (.file serial mode content)) (aim : Aim) :
    w.Finds aim (p.child t) (.file ⟨d, b⟩ serial mode content) := by
  obtain ⟨j, hj⟩ := finds_child_iff hc.valid hd hc.short hc.encode_eq
  exact (hj aim _).2 (.file hc.plain hc.length_le hn)

theorem finds_child_of_directory {n : Nat} (hn : w.tree.node? ⟨d, b⟩ = some (.directory n)) :
    w.Finds .denoted (p.child t) (.directory n) := by
  obtain ⟨j, hj⟩ := finds_child_iff hc.valid hd hc.short hc.encode_eq
  exact (hj .denoted _).2 (.enter hc.plain (by simp) hc.length_le hn .arrive)

theorem finds_child_of_link {target : Bytes} (hn : w.tree.node? ⟨d, b⟩ = some (.link target)) :
    w.Finds .itself (p.child t) (.link ⟨d, b⟩ target) := by
  obtain ⟨j, hj⟩ := finds_child_iff hc.valid hd hc.short hc.encode_eq
  exact (hj .itself _).2 (.link hc.plain hc.length_le hn rfl)

end PlainChild

/-- What a child can be, by the node with its name. -/
theorem Finds.child_cases (hf : w.Finds aim (p.child t) s) (h : isComponent t)
    (hd : w.Finds .denoted p (.directory d)) :
    (∃ n, s = .directory n) ∨ ∃ b, p.IsPlainChild t b ∧
      ((∃ target, w.tree.node? ⟨d, b⟩ = some (.link target)) ∨ s = .vacant ⟨d, b⟩ ∨
        ∃ serial mode c, s = .file ⟨d, b⟩ serial mode c ∧
          w.tree.node? ⟨d, b⟩ = some (.file serial mode c)) := by
  have hs := (finds_iff.1 hf).1
  obtain ⟨b, hb⟩ := exists_encode?_of_isShort_child h hs
  obtain ⟨j, hj⟩ := finds_child_iff h hd hs hb
  have hchild (hp : IsPlain b) (hl : b.length ≤ maxNameLength) : p.IsPlainChild t b :=
    ⟨h, hb, hp, hl, hs⟩
  cases (hj _ _).1 hf with
  | idle _ h =>
    cases h
    exact .inl ⟨_, rfl⟩
  | back h =>
    cases h
    exact .inl ⟨_, rfl⟩
  | enter _ _ _ _ h =>
    cases h
    exact .inl ⟨_, rfl⟩
  | follow hp _ hl hn => exact .inr ⟨b, hchild hp hl, .inl ⟨_, hn⟩⟩
  | vacant hp hl => exact .inr ⟨b, hchild hp hl, .inr (.inl rfl)⟩
  | file hp hl hn => exact .inr ⟨b, hchild hp hl, .inr (.inr ⟨_, _, _, rfl, hn⟩)⟩
  | link hp hl hn => exact .inr ⟨b, hchild hp hl, .inl ⟨_, hn⟩⟩

/-- The place is under a name in the directory that the path denotes. -/
def IsPlaceIn (w : World) (p : FilePath) (t : Text) (place : Place) : Prop :=
  w.Finds .denoted p (.directory place.directory) ∧ Utf8.encode? t = some place.name

/-- **The path of a child is that of the file or the link under its name**, in the directory that
its parent denotes. -/
theorem hasEntryAt_child_iff (h : isComponent t) {place : Place} :
    w.HasEntryAt (p.child t) place ↔
      ((p.child t).IsShort ∧ FilePath.isBack ⟨t, h⟩ = false) ∧ w.IsPlaceIn p t place ∧
        ∃ node, w.tree.node? place = some node ∧ node.isDirectory = false := by
  constructor
  · rintro ⟨s, hf, hs⟩
    have hshort := (finds_iff.1 hf).1
    obtain ⟨b, hb⟩ := exists_encode?_of_isShort_child h hshort
    obtain ⟨d, hd⟩ := hf.parent h
    obtain ⟨j, hj⟩ := finds_child_iff h hd hshort hb
    have hback (hp : IsPlain b) : FilePath.isBack ⟨t, h⟩ = false := by
      refine eq_false_of_ne_true fun hback => hp.not_back ?_
      have ht : t = Text.ofString ".." := of_decide_eq_true hback
      rw [ht] at hb
      exact (Option.some.inj hb).symm
    rcases ((hj _ _).1 hf).singleton_cases with
      ⟨n, rfl⟩ | ⟨⟨hp, -⟩, rfl | ⟨serial, mode, c, rfl, hn⟩ | ⟨target, rfl, hn⟩⟩
    · contradiction
    · contradiction
    · obtain rfl := Option.some.inj hs
      exact ⟨⟨hshort, hback hp⟩, ⟨hd, hb⟩, _, hn, rfl⟩
    · obtain rfl := Option.some.inj hs
      exact ⟨⟨hshort, hback hp⟩, ⟨hd, hb⟩, _, hn, rfl⟩
  · rintro ⟨⟨hshort, hback⟩, ⟨hd, hb⟩, node, hn, hdir⟩
    have hc : p.IsPlainChild t place.name :=
      ⟨h, hb, Component.isPlain hb hback, (of_isFileName (w.tree.named _ _ hn)).2.2, hshort⟩
    cases node with
    | directory n => contradiction
    | file serial mode c => exact ⟨_, finds_child_of_file hc hd hn .itself, rfl⟩
    | link target => exact ⟨_, finds_child_of_link hc hd hn, rfl⟩

/-- What a child can be in a directory without links. -/
theorem Finds.child_cases_of_ne_link (hf : w.Finds aim (p.child t) s) (h : isComponent t)
    (hd : w.Finds .denoted p (.directory d))
    (hlink : ∀ b target, w.tree.node? ⟨d, b⟩ ≠ some (.link target)) :
    (∃ n, s = .directory n) ∨ ∃ b, p.IsPlainChild t b ∧
      (s = .vacant ⟨d, b⟩ ∨ ∃ serial mode c, s = .file ⟨d, b⟩ serial mode c) := by
  rcases hf.child_cases h hd with hs | ⟨b, hc, ⟨target, hn⟩ | hs | ⟨_, _, _, hs, -⟩⟩
  · exact .inl hs
  · exact absurd hn (hlink b target)
  · exact .inr ⟨b, hc, .inl hs⟩
  · exact .inr ⟨b, hc, .inr ⟨_, _, _, hs⟩⟩

end World

namespace Disk

variable {w w' : World} {p : FilePath} {mode : Nat} {anchor : Anchor} {depth : Nat}
  {name : Component} {above : List Component}

/-! ### One directory -/

/-- Makes a directory unless it is there, and none above it. -/
def ensureOne (p : FilePath) (mode : Nat) : StoreM Unit :=
  (makeDirectory p mode).onRefusal (unlessDirectory p)

/-- A directory that is to be made is refused where something is. -/
theorem makeDirectory_of_hasDirectoryAt (h : w.HasDirectoryAt p) :
    makeDirectory p mode w = .error (.refused ⟨.exists, some p⟩) w := by
  obtain ⟨d, hd⟩ := h
  obtain ⟨hs, hl⟩ := World.finds_iff.1 hd
  rcases hl.itself with hl | ⟨place, target, hl⟩
  · exact change_of_finds_refused (World.finds_iff.2 ⟨hs, hl⟩) fun b hb => by
      rw [FileTree.makeDirectory, hb]
      rfl
  · exact change_of_finds_refused (World.finds_iff.2 ⟨hs, hl⟩) fun b hb => by
      rw [FileTree.makeDirectory, hb]
      rfl

theorem ensureOne_of_hasDirectoryAt (h : w.HasDirectoryAt p) : ensureOne p mode w = .ok () w := by
  rw [ensureOne, StoreM.onRefusal_of_refused (makeDirectory_of_hasDirectoryAt h)]
  exact unlessDirectory_of_hasDirectoryAt h

/-- What becomes of making one directory unless it is there. -/
theorem ensureOne_cases (w : World) (p : FilePath) (mode : Nat) :
    w.HasDirectoryAt p ∧ ensureOne p mode w = .ok () w ∨
    (∃ place, w.Finds .itself p (.vacant place) ∧
      ensureOne p mode w = .ok () { w with tree := w.tree.graftDirectory place mode }) ∨
    ¬ w.HasDirectoryAt p ∧ (∀ place, ¬ w.Finds .itself p (.vacant place)) ∧
      ∃ f, ensureOne p mode w = .error f w := by
  by_cases hd : w.HasDirectoryAt p
  · exact .inl ⟨hd, ensureOne_of_hasDirectoryAt hd⟩
  refine .inr ?_
  have hvacant {f : Failure} (h : makeDirectory p mode w = .error f w) (place : Place) :
      ¬ w.Finds .itself p (.vacant place) := by
    intro hf
    have hm : makeDirectory p mode w = .ok () _ := change_of_finds hf fun b hb => by
      rw [FileTree.makeDirectory, hb]
      rfl
    exact absurd (h.symm.trans hm) (by simp)
  rcases makeDirectory_cases w p mode with ⟨place, hf, hm⟩ | ⟨fault, hm, -⟩ | ⟨f, hm, hne⟩
  · exact .inl ⟨place, hf, StoreM.onRefusal_of_ok hm _⟩
  · obtain ⟨f, hu⟩ := exists_unlessDirectory_eq_error (r := ⟨fault, some p⟩) hd
    refine .inr ⟨hd, hvacant hm, f, ?_⟩
    rw [ensureOne, StoreM.onRefusal_of_refused hm, hu]
  · exact .inr ⟨hd, hvacant hm, f, StoreM.onRefusal_of_error hm hne _⟩

theorem keeps_graftDirectory {place : Place} (hv : w.tree.isVacant place = true) (mode : Nat) :
    w.Keeps { w with tree := w.tree.graftDirectory place mode } :=
  ⟨FileTree.keeps_graftDirectory hv, rfl⟩

/-- A directory that is made has the next number. -/
theorem finds_graftDirectory {aim : Aim} {place : Place} (hw : w.IsSound)
    (hf : w.Finds aim p (.vacant place)) :
    World.Finds { w with tree := w.tree.graftDirectory place mode } aim p
      (.directory w.tree.directories.size) := by
  have hv : w.tree.isVacant place = true := hf.isIn hw
  have hfind := (keeps_graftDirectory hv mode).finds hw hf
  rwa [Spot.seenIn, node?_graftDirectory hv, if_pos rfl] at hfind

/-! ### A directory and those above it -/

/-- The directory with the given names, innermost first. -/
def pathOf (anchor : Anchor) (names : List Component) : FilePath := ⟨anchor, names.reverse⟩

theorem pathOf_cons (anchor : Anchor) (name : Component) (above : List Component) :
    pathOf anchor (name :: above) = (pathOf anchor above).child name.text := by
  rw [FilePath.child_eq name.valid, pathOf, pathOf, List.reverse_cons]

theorem not_hasDirectoryAt_of_misses (h : w.Misses p) : ¬ w.HasDirectoryAt p := by
  obtain ⟨b, hb, hl⟩ := h
  rintro ⟨d, hd⟩
  obtain ⟨hs, hd⟩ := World.finds_iff.1 hd
  have hfound : ∃ s, w.Finds .itself p s := by
    rcases hd.itself with hd | ⟨place, target, hd⟩
    · exact ⟨_, World.finds_iff.2 ⟨hs, hd⟩⟩
    · exact ⟨_, World.finds_iff.2 ⟨hs, hd⟩⟩
  obtain ⟨s, b', hb', hs⟩ := hfound
  obtain rfl : b = b' := Except.ok.inj (hb.symm.trans hb')
  exact absurd (hl.symm.trans hs) (by simp)

/-- Where there is nothing, but perhaps a place for something, there is no directory. -/
theorem not_hasDirectoryAt_of_misses_or_vacant
    (h : w.Misses p ∨ ∃ place, w.Finds .itself p (.vacant place)) : ¬ w.HasDirectoryAt p := by
  rcases h with h | ⟨place, hf⟩
  · exact not_hasDirectoryAt_of_misses h
  · rintro ⟨d, hd⟩
    exact absurd ((hf.denoted (by simp)).unique hd) (by simp)

theorem ensureNames_zero (names : List Component) (mode : Nat) (w : World) :
    ensureNames anchor 0 names mode w = .error .tooDeep w := rfl

/-- Where even the directory above is missing, that one comes first. -/
theorem ensureNames_cons_of_misses (h : w.Misses (pathOf anchor (name :: above)))
    (depth mode : Nat) :
    ensureNames anchor (depth + 1) (name :: above) mode w =
      (ensureNames anchor depth above sharedDirectoryMode >>= fun _ =>
        ensureOne (pathOf anchor (name :: above)) mode) w := by
  obtain ⟨b, hb, hl⟩ := h
  have hm : makeDirectory (pathOf anchor (name :: above)) mode w =
      .error (.refused ⟨.notFound, some (pathOf anchor (name :: above))⟩) w := by
    rw [makeDirectory, change_eq hb, FileTree.makeDirectory, hl]
    rfl
  rw [ensureNames]
  exact StoreM.onRefusal_of_refused hm _

theorem ensureNames_cons_of_not_misses (h : ¬ w.Misses (pathOf anchor (name :: above)))
    (depth mode : Nat) :
    ensureNames anchor (depth + 1) (name :: above) mode w =
      ensureOne (pathOf anchor (name :: above)) mode w := by
  rw [ensureNames, ensureOne]
  rcases makeDirectory_cases w (pathOf anchor (name :: above)) mode with
    ⟨place, hf, hm⟩ | ⟨fault, hm, hn⟩ | ⟨f, hm, hne⟩
  · rw [StoreM.onRefusal_of_ok hm]
    exact StoreM.onRefusal_of_ok hm _
  · rw [StoreM.onRefusal_of_refused hm]
    refine (StoreM.onRefusal_of_refused hm _).trans ?_
    have hfault : fault ≠ .notFound := fun he => h (hn he)
    exact congrFun (if_neg hfault) w
  · rw [StoreM.onRefusal_of_error hm hne]
    exact StoreM.onRefusal_of_error hm hne _

/-- Nothing is done to a directory that is there. -/
theorem ensureNames_of_hasDirectoryAt (names : List Component)
    (h : w.HasDirectoryAt (pathOf anchor names)) (depth mode : Nat) :
    ensureNames anchor (depth + 1) names mode w = .ok () w := by
  cases names with
  | nil => exact ensureOne_of_hasDirectoryAt h
  | cons name above =>
    rw [ensureNames_cons_of_not_misses (fun hm => not_hasDirectoryAt_of_misses hm h)]
    exact ensureOne_of_hasDirectoryAt h

/-- An operation that makes a directory and perhaps those above it: it goes well exactly if the
directory is there in the end, and on the way no directory and no link is touched. -/
structure Ensures (x : StoreM Unit) (p : FilePath) (w : World) : Prop where
  keeps : w.Keeps (w.after x)
  ok : (w.after x).HasDirectoryAt p → x w = .ok () (w.after x)
  error : ¬ (w.after x).HasDirectoryAt p → ∃ f, x w = .error f (w.after x)

namespace Ensures

variable {x y : StoreM Unit} {v : World}

theorem of_ok (hk : w.Keeps v) (hd : v.HasDirectoryAt p) (h : x w = .ok () v) :
    Ensures x p w := by
  obtain rfl : w.after x = v := World.after_of_ok h
  exact ⟨hk, fun _ => h, fun hn => absurd hd hn⟩

theorem of_error (hk : w.Keeps v) (hd : ¬ v.HasDirectoryAt p) {f : Failure}
    (h : x w = .error f v) : Ensures x p w := by
  obtain rfl : w.after x = v := World.after_of_error h
  exact ⟨hk, fun hn => absurd hn hd, fun _ => ⟨f, h⟩⟩

/-- What has been done before does not matter if it touched no directory and no link. -/
theorem of_eq (hy : Ensures y p v) (hk : w.Keeps v) (h : x w = y v) : Ensures x p w := by
  have ha : w.after x = v.after y := by rw [World.after, h, World.after]
  refine ⟨?_, ?_, ?_⟩
  · rw [ha]
    exact hk.trans hy.keeps
  · rw [ha, h]
    exact hy.ok
  · rw [ha, h]
    exact hy.error

end Ensures

theorem ensures_ensureOne (hw : w.IsSound) (p : FilePath) (mode : Nat) :
    Ensures (ensureOne p mode) p w := by
  rcases ensureOne_cases w p mode with ⟨hd, h⟩ | ⟨place, hf, h⟩ | ⟨hd, -, f, h⟩
  · exact .of_ok (.refl w) hd h
  · have hvacant := hf.denoted (by simp)
    exact .of_ok (keeps_graftDirectory (hf.isIn hw) mode) ⟨_, finds_graftDirectory hw hvacant⟩ h
  · exact .of_error (.refl w) hd h

theorem not_hasDirectoryAt_pathOf_cons (h : ¬ w.HasDirectoryAt (pathOf anchor above)) :
    ¬ w.HasDirectoryAt (pathOf anchor (name :: above)) := by
  rintro ⟨d, hd⟩
  rw [pathOf_cons] at hd
  exact h (hd.parent name.valid)

/-- **Making directories goes well exactly if the last of them is there in the end.** -/
theorem ensures_ensureNames (hw : w.IsSound) (anchor : Anchor) (depth : Nat)
    (names : List Component) (mode : Nat) :
    Ensures (ensureNames anchor (depth + 1) names mode) (pathOf anchor names) w := by
  induction depth generalizing names mode with
  | zero =>
    cases names with
    | nil => exact ensures_ensureOne hw _ _
    | cons name above =>
      by_cases hm : w.Misses (pathOf anchor (name :: above))
      · refine .of_error (.refl w) (not_hasDirectoryAt_of_misses hm) (f := .tooDeep) ?_
        rw [ensureNames_cons_of_misses hm]
        exact StoreM.bind_of_error (ensureNames_zero above _ w) _
      · exact (ensures_ensureOne hw _ _).of_eq (.refl w) (ensureNames_cons_of_not_misses hm _ _)
  | succ depth ih =>
    cases names with
    | nil => exact ensures_ensureOne hw _ _
    | cons name above =>
      by_cases hm : w.Misses (pathOf anchor (name :: above))
      · have ha : Ensures (ensureNames anchor (depth + 1) above sharedDirectoryMode) _ w :=
          ih above sharedDirectoryMode
        by_cases hd : (w.after (ensureNames anchor (depth + 1) above
            sharedDirectoryMode)).HasDirectoryAt (pathOf anchor above)
        · refine (ensures_ensureOne (ha.keeps.isSound hw) _ mode).of_eq ha.keeps ?_
          rw [ensureNames_cons_of_misses hm, StoreM.bind_of_ok (ha.ok hd)]
        · obtain ⟨f, hf⟩ := ha.error hd
          refine .of_error ha.keeps (not_hasDirectoryAt_pathOf_cons hd) (f := f) ?_
          rw [ensureNames_cons_of_misses hm, StoreM.bind_of_error hf]
      · exact (ensures_ensureOne hw _ _).of_eq (.refl w) (ensureNames_cons_of_not_misses hm _ _)

/-- Where one directory could not be made, nothing has happened. -/
theorem exists_ensureOne_eq_error (hw : w.IsSound)
    (hd : ¬ (w.after (ensureOne p mode)).HasDirectoryAt p) :
    ∃ f, ensureOne p mode w = .error f w := by
  rcases ensureOne_cases w p mode with ⟨h, ho⟩ | ⟨place, hf, ho⟩ | ⟨-, -, hf⟩
  · rw [World.after_of_ok ho] at hd
    exact absurd h hd
  · rw [World.after_of_ok ho] at hd
    exact absurd ⟨_, finds_graftDirectory hw (hf.denoted (by simp))⟩ hd
  · exact hf

/-- Where there is no directory above, one directory cannot be made. -/
theorem exists_ensureOne_eq_error_of_above (hd : ¬ w.HasDirectoryAt (pathOf anchor above)) :
    ∃ f, ensureOne (pathOf anchor (name :: above)) mode w = .error f w := by
  rcases ensureOne_cases w (pathOf anchor (name :: above)) mode with ⟨h, -⟩ | ⟨place, hf, -⟩ | h
  · exact absurd h (not_hasDirectoryAt_pathOf_cons hd)
  · rw [pathOf_cons] at hf
    exact absurd (hf.parent name.valid) hd
  · exact h.2.2

/-- An operation that left the world as it was leaves it so again. -/
theorem after_after_of_after_eq {x : StoreM Unit} (h : w.after x = w) :
    (w.after x).after x = w.after x := by
  rw [h, h]

/-- Where the last directory alone cannot be made, trying again changes nothing. -/
theorem ensureNames_of_ensureOne {f : Failure} (hd : w.HasDirectoryAt (pathOf anchor above))
    (hf : ensureOne (pathOf anchor (name :: above)) mode w = .error f w) (depth : Nat) :
    ensureNames anchor (depth + 2) (name :: above) mode w = .error f w := by
  by_cases hm : w.Misses (pathOf anchor (name :: above))
  · have ha := ensureNames_of_hasDirectoryAt above hd depth sharedDirectoryMode
    rw [ensureNames_cons_of_misses hm, StoreM.bind_of_ok ha, hf]
  · rw [ensureNames_cons_of_not_misses hm, hf]

/-- Where those above cannot be made, trying again changes nothing. -/
theorem exists_ensureNames_eq_error (hw : w.IsSound)
    (hd : ¬ w.HasDirectoryAt (pathOf anchor above))
    (ha : w.after (ensureNames anchor (depth + 1) above sharedDirectoryMode) = w) :
    ∃ f, ensureNames anchor (depth + 2) (name :: above) mode w = .error f w := by
  by_cases hm : w.Misses (pathOf anchor (name :: above))
  · have he := ensures_ensureNames hw anchor depth above sharedDirectoryMode
    rw [← ha] at hd
    obtain ⟨f, hf⟩ := he.error hd
    rw [ha] at hf
    refine ⟨f, ?_⟩
    rw [ensureNames_cons_of_misses hm, StoreM.bind_of_error hf]
  · obtain ⟨f, hf⟩ := exists_ensureOne_eq_error_of_above hd
    exact ⟨f, (ensureNames_cons_of_not_misses hm _ _).trans hf⟩

/-- **Making directories twice is making them once**, also if they cannot be made. -/
theorem after_after_ensureNames (hw : w.IsSound) (anchor : Anchor) (depth : Nat)
    (names : List Component) (mode : Nat) :
    (w.after (ensureNames anchor depth names mode)).after (ensureNames anchor depth names mode) =
      w.after (ensureNames anchor depth names mode) := by
  induction depth generalizing names mode with
  | zero => rfl
  | succ depth ih =>
    by_cases hd : (w.after (ensureNames anchor (depth + 1) names mode)).HasDirectoryAt
        (pathOf anchor names)
    · exact World.after_of_ok (ensureNames_of_hasDirectoryAt names hd depth mode)
    cases names with
    | nil =>
      obtain ⟨f, hf⟩ := exists_ensureOne_eq_error hw hd
      exact after_after_of_after_eq (World.after_of_error hf)
    | cons name above =>
      by_cases hm : w.Misses (pathOf anchor (name :: above))
      case neg =>
        have ha := World.after_congr (ensureNames_cons_of_not_misses hm depth mode)
        rw [ha] at hd
        obtain ⟨f, hf⟩ := exists_ensureOne_eq_error hw hd
        exact after_after_of_after_eq (ha.trans (World.after_of_error hf))
      have heq := ensureNames_cons_of_misses hm depth mode
      cases depth with
      | zero =>
        refine after_after_of_after_eq (World.after_of_error (f := .tooDeep) ?_)
        exact heq.trans (StoreM.bind_of_error (ensureNames_zero above _ w) _)
      | succ depth =>
        have hv := ensures_ensureNames hw anchor depth above sharedDirectoryMode
        have hsound := hv.keeps.isSound hw
        by_cases hda : (w.after (ensureNames anchor (depth + 1) above
            sharedDirectoryMode)).HasDirectoryAt (pathOf anchor above)
        · have ha := World.after_congr (heq.trans (StoreM.bind_of_ok (hv.ok hda) _))
          rw [ha] at hd
          obtain ⟨f, hf⟩ := exists_ensureOne_eq_error hsound hd
          rw [ha, World.after_of_error hf]
          exact World.after_of_error (ensureNames_of_ensureOne hda hf depth)
        · obtain ⟨f, hf⟩ := hv.error hda
          rw [World.after_of_error (heq.trans (StoreM.bind_of_error hf _))]
          obtain ⟨g, hg⟩ := exists_ensureNames_eq_error hsound hda (ih above sharedDirectoryMode)
          exact World.after_of_error hg

/-! ### New directories -/

end Disk

namespace World

variable {w : World} {p : FilePath} {t : Text} {d : Nat}

/-- The path is one of a directory without anything in it. -/
def IsEmptyAt (w : World) (p : FilePath) : Prop :=
  ∃ d, w.Finds .denoted p (.directory d) ∧ ∀ name, w.tree.node? ⟨d, name⟩ = none

/-- Where the parent is a directory, a child is something, or at least it could be. -/
theorem not_hasDirectoryAt_of_misses_child (h : isComponent t) (hm : w.Misses (p.child t)) :
    ¬ w.HasDirectoryAt p := by
  rintro ⟨d, hd⟩
  obtain ⟨b, hb, hl⟩ := hm
  have he := (FilePath.bytes_eq_ok_iff.1 hb).1
  have hlt : b.length < pathLengthBound := FilePath.length_lt_of_locate (by rw [hl]; simp)
  obtain ⟨name, hn⟩ := exists_encode?_of_isShort_child h ⟨b, hb, hlt⟩
  obtain ⟨j, hj⟩ := hd.exists_walk_child h hn
  rw [FilePath.locate_eq_walk he hlt, hj] at hl
  rcases name_cases name with hi | rfl | hp
  · rw [walk_idle hi, walk_nil] at hl
    contradiction
  · rw [walk_back, walk_nil] at hl
    contradiction
  · rw [walk_plain hp, if_neg (by simp)] at hl
    split at hl
    · contradiction
    · simp only [List.isEmpty_nil, if_true, and_self, walk_nil] at hl
      split at hl <;> contradiction

/-- Below a path at which there is nothing, not even a place can be found. -/
theorem locate_child (h : isComponent t) (hs : (p.child t).IsShort)
    (hp : w.Misses p ∨ ∃ place, w.Finds .itself p (.vacant place)) (aim : Aim) :
    ∃ b, (p.child t).bytes = .ok b ∧ w.tree.locate w.here aim b = .error .notFound := by
  obtain ⟨b, hb, hlt⟩ := id hs
  obtain ⟨name, hn⟩ := exists_encode?_of_isShort_child h hs
  have hne : name ≠ [] := Component.bytes_ne_nil (c := ⟨t, h⟩) hn
  refine ⟨b, hb, ?_⟩
  rw [FilePath.locate_eq_walk (FilePath.bytes_eq_ok_iff.1 hb).1 hlt, FilePath.names_child h hn,
    FilePath.start_child h]
  rcases hp with ⟨b', hb', hl⟩ | ⟨place, hf⟩
  · obtain ⟨b'', hb'', hlt'⟩ := FilePath.isShort_of_child h hs
    obtain rfl : b' = b'' := Except.ok.inj (hb'.symm.trans hb'')
    rw [FilePath.locate_eq_walk (FilePath.bytes_eq_ok_iff.1 hb').1 hlt'] at hl
    exact walk_append_of_error hne _ _ _ hl
  · exact (finds_iff.1 hf).2.walk_append_of_vacant hne

theorem misses_child (h : isComponent t) (hs : (p.child t).IsShort)
    (hp : w.Misses p ∨ ∃ place, w.Finds .itself p (.vacant place)) : w.Misses (p.child t) :=
  locate_child h hs hp .itself

/-- In an empty directory every place is vacant. -/
theorem IsEmptyAt.eq_vacant {c : Component} (he : w.IsEmptyAt p) (hc : FilePath.isBack c = false)
    {aim : Aim} {s : Spot} (hf : w.Finds aim (p.child c.text) s) : ∃ place, s = .vacant place := by
  obtain ⟨d, hd, hempty⟩ := he
  have hs := (finds_iff.1 hf).1
  obtain ⟨b, hb⟩ := exists_encode?_of_isShort_child c.valid hs
  obtain ⟨j, hj⟩ := finds_child_iff c.valid hd hs hb
  have hp := Component.isPlain hb hc
  have hl := (hj _ _).1 hf
  cases hl with
  | idle hi => exact absurd hi hp.not_idle
  | back => exact absurd rfl hp.not_back
  | enter _ _ _ hnode => exact absurd ((hempty b).symm.trans hnode) (by simp)
  | follow _ _ _ hnode => exact absurd ((hempty b).symm.trans hnode) (by simp)
  | vacant => exact ⟨_, rfl⟩
  | file _ _ hnode => exact absurd ((hempty b).symm.trans hnode) (by simp)
  | link _ _ hnode => exact absurd ((hempty b).symm.trans hnode) (by simp)

end World

namespace Disk

variable {w w' : World} {p : FilePath} {mode : Nat} {anchor : Anchor}

/-- A directory that was not there is made where there is a place for it. -/
theorem exists_vacant_of_ensureOne (hd : ¬ w.HasDirectoryAt p)
    (h : ensureOne p mode w = .ok () w') :
    ∃ place, w.Finds .itself p (.vacant place) ∧
      w' = { w with tree := w.tree.graftDirectory place mode } := by
  rcases ensureOne_cases w p mode with ⟨h', -⟩ | ⟨place, hf, ho⟩ | ⟨-, -, f, ho⟩
  · exact absurd h' hd
  · injection ho.symm.trans h with _ hw'
    exact ⟨place, hf, hw'.symm⟩
  · exact absurd (ho.symm.trans h) (by simp)

theorem eq_of_ensureOne_eq_error {f : Failure} (h : ensureOne p mode w = .error f w') :
    w = w' := by
  rcases ensureOne_cases w p mode with ⟨-, ho⟩ | ⟨place, -, ho⟩ | ⟨-, -, f', ho⟩
  · exact absurd (ho.symm.trans h) (by simp)
  · exact absurd (ho.symm.trans h) (by simp)
  · injection ho.symm.trans h

/-- Where a directory can be made that was not there, nothing was there. -/
theorem misses_or_vacant_of_ensureNames {depth : Nat} {names : List Component}
    (hd : ¬ w.HasDirectoryAt (pathOf anchor names))
    (h : ensureNames anchor depth names mode w = .ok () w') :
    w.Misses (pathOf anchor names) ∨
      ∃ place, w.Finds .itself (pathOf anchor names) (.vacant place) := by
  have hone {p : FilePath} (hd : ¬ w.HasDirectoryAt p) (h : ensureOne p mode w = .ok () w') :
      ∃ place, w.Finds .itself p (.vacant place) :=
    (exists_vacant_of_ensureOne hd h).imp fun _ h => h.1
  cases depth with
  | zero => contradiction
  | succ depth =>
    cases names with
    | nil => exact .inr (hone hd h)
    | cons name above =>
      by_cases hm : w.Misses (pathOf anchor (name :: above))
      · exact .inl hm
      · rw [ensureNames_cons_of_not_misses hm] at h
        exact .inr (hone hd h)

theorem isEmptyAt_graftDirectory {place : Place} (hw : w.IsSound)
    (hf : w.Finds .itself p (.vacant place)) (mode : Nat) :
    World.IsEmptyAt { w with tree := w.tree.graftDirectory place mode } p :=
  ⟨_, finds_graftDirectory hw (hf.denoted (by simp)), node?_graftDirectory_size (hf.isIn hw)⟩

/-- **A directory that was not there is made last**, where there is a place for it by then, unless
the path leads back. -/
theorem exists_vacant_of_ensureNames (hw : w.IsSound) {depth : Nat} {names : List Component}
    (hback : ∀ c ∈ names, FilePath.isBack c = false)
    (hd : ¬ w.HasDirectoryAt (pathOf anchor names))
    (h : ensureNames anchor depth names mode w = .ok () w') :
    ∃ (v : World) (place : Place), v.IsSound ∧ v.Finds .itself (pathOf anchor names) (.vacant place) ∧
      w' = { v with tree := v.tree.graftDirectory place mode } := by
  induction depth generalizing names mode w' with
  | zero => contradiction
  | succ depth ih =>
    cases names with
    | nil => exact ⟨w, (exists_vacant_of_ensureOne hd h).imp fun _ h => ⟨hw, h⟩⟩
    | cons name above =>
      by_cases hm : w.Misses (pathOf anchor (name :: above))
      case neg =>
        rw [ensureNames_cons_of_not_misses hm] at h
        exact ⟨w, (exists_vacant_of_ensureOne hd h).imp fun _ h => ⟨hw, h⟩⟩
      rw [ensureNames_cons_of_misses hm] at h
      obtain ⟨_, u, hv, h⟩ := StoreM.exists_of_bind_ok h
      have hda := World.not_hasDirectoryAt_of_misses_child name.valid (pathOf_cons .. ▸ hm)
      obtain ⟨v, place, hs, hf, rfl⟩ :=
        ih (fun c hc => hback c (List.mem_cons_of_mem _ hc)) hda hv
      -- what is above is new and empty, so that there is still no directory
      have hempty := isEmptyAt_graftDirectory hs hf sharedDirectoryMode
      have hdu : ¬ World.HasDirectoryAt
          { v with tree := v.tree.graftDirectory place sharedDirectoryMode }
          (pathOf anchor (name :: above)) := by
        rintro ⟨d, hd⟩
        rw [pathOf_cons] at hd
        obtain ⟨_, he⟩ := hempty.eq_vacant (hback name (by simp)) hd
        contradiction
      have hsu := (keeps_graftDirectory (hf.isIn hs) sharedDirectoryMode).isSound hs
      exact ⟨_, (exists_vacant_of_ensureOne hdu h).imp fun _ h => ⟨hsu, h⟩⟩

/-- **A directory that was not there is empty** once it is made, unless the path leads back. -/
theorem isEmptyAt_of_ensureNames (hw : w.IsSound) {depth : Nat} {names : List Component}
    (hback : ∀ c ∈ names, FilePath.isBack c = false)
    (hd : ¬ w.HasDirectoryAt (pathOf anchor names))
    (h : ensureNames anchor depth names mode w = .ok () w') :
    w'.IsEmptyAt (pathOf anchor names) := by
  obtain ⟨v, place, hs, hf, rfl⟩ := exists_vacant_of_ensureNames hw hback hd h
  exact isEmptyAt_graftDirectory hs hf mode

/-- **Where a directory cannot be made**, nothing has happened, or at least there is nothing at its
path, unless the path leads back. -/
theorem ensureNames_error_cases (hw : w.IsSound) {depth : Nat} {names : List Component}
    (hback : ∀ c ∈ names, FilePath.isBack c = false) {f : Failure}
    (h : ensureNames anchor depth names mode w = .error f w') :
    w = w' ∨ ∀ s, w'.Finds .denoted (pathOf anchor names) s → ∃ place, s = .vacant place := by
  cases depth with
  | zero =>
    injection h with _ hw'
    exact .inl hw'
  | succ depth =>
    cases names with
    | nil => exact .inl (eq_of_ensureOne_eq_error h)
    | cons name above =>
      by_cases hm : w.Misses (pathOf anchor (name :: above))
      case neg =>
        rw [ensureNames_cons_of_not_misses hm] at h
        exact .inl (eq_of_ensureOne_eq_error h)
      rw [ensureNames_cons_of_misses hm] at h
      rw [pathOf_cons] at hm ⊢
      have hda := World.not_hasDirectoryAt_of_misses_child name.valid hm
      rcases StoreM.bind_error_cases h with h | ⟨_, u, hu, h⟩
      · cases depth with
        | zero =>
          injection h with _ hw'
          exact .inl hw'
        | succ depth =>
          -- the directory above is not there either
          refine .inr fun s hs => ?_
          have he := (ensures_ensureNames hw anchor depth above sharedDirectoryMode).ok
          rw [World.after_of_error h] at he
          exact absurd (h.symm.trans (he (hs.parent name.valid))) (by simp)
      · obtain rfl := eq_of_ensureOne_eq_error h
        have hempty := isEmptyAt_of_ensureNames hw
          (fun c hc => hback c (List.mem_cons_of_mem _ hc)) hda hu
        exact .inr fun s hs => hempty.eq_vacant (hback name (by simp)) hs

/-! ### Quietness -/

theorem isQuiet_ask {α : Type} (p : FilePath) (f : FileTree → Nat → Bytes → Except Fault α) :
    (ask p f).IsQuiet := by
  intro w j
  cases hb : p.bytes with
  | error e =>
    rw [ask_of_bytes hb, ask_of_bytes hb]
    rfl
  | ok b =>
    rw [ask_eq hb, ask_eq hb]
    cases f w.tree w.here b <;> rfl

theorem isQuiet_change {α : Type} (p : FilePath)
    (g : FileTree → Nat → Bytes → Except Fault (α × FileTree)) : (change p g).IsQuiet := by
  rw [change]
  exact .bind (isQuiet_ask p g) fun r _ _ => rfl

theorem isQuiet_isDirectory (p : FilePath) : (isDirectory p).IsQuiet := by
  intro w j
  cases hb : p.bytes with
  | error e =>
    rw [isDirectory, hb]
    rfl
  | ok b =>
    rw [isDirectory_eq hb, isDirectory_eq hb]
    cases w.tree.locate w.here .denoted b with
    | ok spot => rfl
    | error fault => cases fault <;> rfl

theorem isQuiet_unlessDirectory (p : FilePath) (r : Refusal) : (unlessDirectory p r).IsQuiet := by
  rw [unlessDirectory]
  refine .bind (isQuiet_isDirectory p) ?_
  intro b
  cases b with
  | true => exact .pure ()
  | false => exact .throw _

/-- Nothing is told about directories that are made. -/
theorem isQuiet_ensureNames (anchor : Anchor) (depth : Nat) (names : List Component) (mode : Nat) :
    (ensureNames anchor depth names mode).IsQuiet := by
  induction depth generalizing names mode with
  | zero => exact .throw _
  | succ depth ih =>
    cases names with
    | nil => exact .onRefusal (isQuiet_change _ _) (isQuiet_unlessDirectory _)
    | cons name above =>
      refine .onRefusal (isQuiet_change _ _) ?_
      intro r
      split
      · exact .bind (ih above _) fun _ =>
          .onRefusal (isQuiet_change _ _) (isQuiet_unlessDirectory _)
      · exact isQuiet_unlessDirectory _ r

/-! ### By path -/

section ByPath

variable {w w' : World} {p : FilePath} {mode : Nat}

theorem pathOf_reverse (p : FilePath) : pathOf p.anchor p.components.reverse = p := by
  rw [pathOf, List.reverse_reverse]

theorem isQuiet_ensureDirectory (p : FilePath) (mode : Nat) : (ensureDirectory p mode).IsQuiet :=
  isQuiet_ensureNames _ _ _ _

theorem ensures_ensureDirectory (hw : w.IsSound) (p : FilePath) (mode : Nat) :
    Ensures (ensureDirectory p mode) p w := by
  have h := ensures_ensureNames hw p.anchor (maxDepth - 1) p.components.reverse mode
  rwa [pathOf_reverse] at h

theorem keeps_of_ensureDirectory (hw : w.IsSound) (h : ensureDirectory p mode w = .ok () w') :
    w.Keeps w' := by
  have hk := (ensures_ensureDirectory hw p mode).keeps
  rwa [World.after_of_ok h] at hk

/-- A directory that was made is there. -/
theorem hasDirectoryAt_of_ensureDirectory (hw : w.IsSound)
    (h : ensureDirectory p mode w = .ok () w') : w'.HasDirectoryAt p := by
  have he := (ensures_ensureDirectory hw p mode).error
  rw [World.after_of_ok h] at he
  by_contra hno
  obtain ⟨f, hf⟩ := he hno
  exact absurd (hf.symm.trans h) (by simp)

/-- Nothing is done to a directory that is there. -/
theorem ensureDirectory_of_hasDirectoryAt (h : w.HasDirectoryAt p) :
    ensureDirectory p mode w = .ok () w := by
  rw [← pathOf_reverse p] at h
  exact ensureNames_of_hasDirectoryAt _ h _ _

/-- Where the parent is there, only the directory itself is made. -/
theorem ensureDirectory_child_of_hasDirectoryAt {t : Text} (ht : isComponent t)
    (h : w.HasDirectoryAt p) :
    ensureDirectory (p.child t) mode w = ensureOne (p.child t) mode w := by
  have hm : ¬ w.Misses (p.child t) := fun hm => World.not_hasDirectoryAt_of_misses_child ht hm h
  rw [FilePath.child_eq ht] at hm ⊢
  rw [ensureDirectory, List.reverse_append, List.reverse_singleton, List.singleton_append]
  have hpath : pathOf p.anchor (⟨t, ht⟩ :: p.components.reverse) =
      ⟨p.anchor, p.components ++ [⟨t, ht⟩]⟩ := by
    rw [pathOf, List.reverse_cons, List.reverse_reverse]
  rw [← hpath] at hm ⊢
  exact ensureNames_cons_of_not_misses hm _ _

/-- Where there is a place for it, only the directory itself is made. -/
theorem ensureDirectory_of_vacant {place : Place} (h : w.Finds .itself p (.vacant place)) :
    ensureDirectory p mode w = .ok () { w with tree := w.tree.graftDirectory place mode } := by
  rw [← pathOf_reverse p] at h
  have hm : makeDirectory (pathOf p.anchor p.components.reverse) mode w =
      .ok () { w with tree := w.tree.graftDirectory place mode } :=
    change_of_finds h fun b hb => by
      rw [FileTree.makeDirectory, hb]
      rfl
  rw [ensureDirectory, maxDepth]
  generalize p.components.reverse = names at hm
  cases names with
  | nil => exact StoreM.onRefusal_of_ok hm _
  | cons name above => exact StoreM.onRefusal_of_ok hm _

/-- **Making a directory twice is making it once**, also if it cannot be made. -/
theorem after_after_ensureDirectory (hw : w.IsSound) (p : FilePath) (mode : Nat) :
    (w.after (ensureDirectory p mode)).after (ensureDirectory p mode) =
      w.after (ensureDirectory p mode) :=
  after_after_ensureNames hw _ _ _ _

/-- Where a directory can be made that was not there, nothing was there. -/
theorem misses_or_vacant_of_ensureDirectory (hd : ¬ w.HasDirectoryAt p)
    (h : ensureDirectory p mode w = .ok () w') :
    w.Misses p ∨ ∃ place, w.Finds .itself p (.vacant place) := by
  rw [← pathOf_reverse p] at hd ⊢
  exact misses_or_vacant_of_ensureNames hd h

/-- **A directory that was not there is made last**, unless its path leads back. -/
theorem exists_vacant_of_ensureDirectory (hw : w.IsSound)
    (hback : ∀ c ∈ p.components, FilePath.isBack c = false) (hd : ¬ w.HasDirectoryAt p)
    (h : ensureDirectory p mode w = .ok () w') :
    ∃ (v : World) (place : Place), v.IsSound ∧ v.Finds .itself p (.vacant place) ∧
      w' = { v with tree := v.tree.graftDirectory place mode } := by
  rw [← pathOf_reverse p] at hd ⊢
  exact exists_vacant_of_ensureNames hw (by simpa using hback) hd h

/-- **A directory that was not there is empty** once it is made, unless its path leads back. -/
theorem isEmptyAt_of_ensureDirectory (hw : w.IsSound)
    (hback : ∀ c ∈ p.components, FilePath.isBack c = false) (hd : ¬ w.HasDirectoryAt p)
    (h : ensureDirectory p mode w = .ok () w') : w'.IsEmptyAt p := by
  obtain ⟨v, place, hs, hf, rfl⟩ := exists_vacant_of_ensureDirectory hw hback hd h
  exact isEmptyAt_graftDirectory hs hf mode

/-- **Where a directory cannot be made**, nothing has happened, or at least there is nothing at its
path, unless the path leads back. -/
theorem ensureDirectory_error_cases (hw : w.IsSound)
    (hback : ∀ c ∈ p.components, FilePath.isBack c = false) {f : Failure}
    (h : ensureDirectory p mode w = .error f w') :
    w = w' ∨ ∀ s, w'.Finds .denoted p s → ∃ place, s = .vacant place := by
  rw [← pathOf_reverse p]
  exact ensureNames_error_cases hw (by simpa using hback) h

end ByPath

end Disk

end ClientStore
