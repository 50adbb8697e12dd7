import ClientStore.Proofs.Directories

/-!
# What is added to a file tree

Making directories and opening files adds to a file tree and takes nothing away. What was there
stays as it was, and of every new node it can be said where it comes from: it is a directory on the
way to some path, at which there was no directory before, or it is the empty file at a path.

## Main definitions

* `World.Adds` — a later world with the same nodes and some new ones.
* `World.IsPlaceOf` — the place that a path is for.
* `World.IsNewDirectory`, `World.IsNewFile` — the new nodes that there are.

## Main results

* `World.Adds.finds` — what a path leads to is still there.
* `Disk.adds_ensureDirectory`, `Disk.adds_create` — what is added.
-/

namespace ClientStore

open FileTree

/-- The path is the second one, or it is above it. -/
def FilePath.IsOnWayTo (p q : FilePath) : Prop :=
  p.anchor = q.anchor ∧ p.components <+: q.components

theorem FilePath.IsOnWayTo.refl (p : FilePath) : p.IsOnWayTo p := ⟨rfl, List.prefix_rfl⟩

theorem FilePath.IsOnWayTo.trans {p q r : FilePath} (h : p.IsOnWayTo q) (h' : q.IsOnWayTo r) :
    p.IsOnWayTo r :=
  ⟨h.1.trans h'.1, h.2.trans h'.2⟩

theorem FilePath.isOnWayTo_child {t : Text} (h : isComponent t) (p : FilePath) :
    p.IsOnWayTo (p.child t) := by
  rw [child_eq h]
  exact ⟨rfl, List.prefix_append _ _⟩

/-- A vacant place at which a walk for one name ends has that name. -/
theorem FileTree.Leads.eq_of_vacant {t : FileTree} {k d : Nat} {b : Bytes} {place : Place}
    (h : Leads t .itself k d [b] (.vacant place)) : place = ⟨d, b⟩ := by
  cases h with
  | vacant => rfl
  | idle _ h => cases h
  | back h => cases h
  | enter _ _ _ _ h => cases h
  | follow _ _ _ _ ha => exact absurd ⟨rfl, rfl⟩ ha

namespace World

/-- Everything in `w` is in `w'` as it was, directories have their modes, and what is new is
allowed. -/
structure Adds (w w' : World) (allowed : Place → Node → Prop) : Prop where
  keeps : w.Keeps w'
  node : ∀ q node, w.tree.node? q = some node → w'.tree.node? q = some node
  mode : ∀ n, w.tree.HasDirectory n → w'.tree.mode? n = w.tree.mode? n
  added : ∀ q node, w'.tree.node? q = some node → w.tree.node? q = some node ∨ allowed q node

/-- Nothing is at the path, not even a link. -/
def HasNothingAt (w : World) (p : FilePath) : Prop :=
  ∀ s, w.Finds .itself p s → ∃ place, s = .vacant place

/-- The place is the one that the path is for: under its last name, where its parent leads. -/
def IsPlaceOf (w : World) (p : FilePath) (place : Place) : Prop :=
  w.Finds .denoted p.parent (.directory place.directory) ∧
    ∃ name ∈ p.components.getLast?, Utf8.encode? name.text = some place.name

/-- A directory at the place of a path at which there was nothing before, on the way to `p`. -/
def IsNewDirectory (w w' : World) (p : FilePath) (place : Place) (node : Node) : Prop :=
  ∃ n q, node = .directory n ∧ q.IsOnWayTo p ∧ w.HasNothingAt q ∧ w'.IsPlaceOf q place ∧
    w'.Finds .itself q (.directory n)

/-- An empty file to which the path leads in `w'`, and could not be read before. -/
def IsNewFile (w w' : World) (p : FilePath) (place : Place) (node : Node) : Prop :=
  ∃ serial mode, node = .file serial mode [] ∧ (∀ c, ¬ w.Holds p c) ∧
    w'.Finds .denoted p (.file place serial mode [])

variable {w w' w'' : World} {p q : FilePath} {allowed allowed' : Place → Node → Prop}

namespace Adds

theorem refl (w : World) (allowed : Place → Node → Prop) : w.Adds w allowed :=
  ⟨.refl w, fun _ _ h => h, fun _ _ => rfl, fun _ _ h => .inl h⟩

theorem mono (h : w.Adds w' allowed) (hi : ∀ q node, allowed q node → allowed' q node) :
    w.Adds w' allowed' :=
  ⟨h.keeps, h.node, h.mode, fun q node hn => (h.added q node hn).imp_right (hi q node)⟩

/-- What is added in two steps. -/
theorem trans {allowed'' : Place → Node → Prop} (h : w.Adds w' allowed) (h' : w'.Adds w'' allowed')
    (hi : ∀ q node, allowed q node → allowed'' q node)
    (hi' : ∀ q node, allowed' q node → allowed'' q node) : w.Adds w'' allowed'' where
  keeps := h.keeps.trans h'.keeps
  node q node hn := h'.node q node (h.node q node hn)
  mode n hn := by rw [h'.mode n (h.keeps.tree.grows n hn), h.mode n hn]
  added q node hn := by
    rcases h'.added q node hn with ho | ho
    · exact (h.added q node ho).imp_right (hi q node)
    · exact .inr (hi' q node ho)

/-- **What a path leads to is still there, as it was.** -/
theorem finds {aim : Aim} {s : Spot} (h : w.Adds w' allowed) (hw : w.IsSound)
    (hf : w.Finds aim p s) (hs : ∀ place, s ≠ .vacant place) : w'.Finds aim p s := by
  have hsame : s.seenIn w'.tree = s := by
    cases s with
    | directory n => rfl
    | link place target => rfl
    | file place serial mode c =>
      have hn : w.tree.node? place = some (.file serial mode c) := hf.isIn hw
      rw [Spot.seenIn, h.node _ _ hn]
    | vacant place => exact absurd rfl (hs place)
  exact hsame ▸ h.keeps.finds hw hf

/-- A file that could be read still can be. -/
theorem holds {c : Bytes} (h : w.Adds w' allowed) (hw : w.IsSound) (hc : w.Holds p c) :
    w'.Holds p c := by
  obtain ⟨handle, mode, hf⟩ := Disk.holds_iff.1 hc
  exact Disk.holds_iff.2 ⟨handle, mode, h.finds hw hf (by simp)⟩

end Adds

theorem IsNewFile.earlier {place : Place} {node : Node} (h : w'.IsNewFile w'' p place node)
    (hw : w.IsSound) (ha : w.Adds w' allowed) : w.IsNewFile w'' p place node := by
  obtain ⟨serial, mode, rfl, hno, hf⟩ := h
  exact ⟨serial, mode, rfl, fun c hc => hno c (ha.holds hw hc), hf⟩

/-- A vacant place is that of the path which leads to it. -/
theorem Finds.isPlaceOf {place : Place} (h : w.Finds .itself p (.vacant place)) :
    w.IsPlaceOf p place := by
  rcases List.eq_nil_or_concat p.components with hnil | ⟨front, name, hname⟩
  · have hl := (finds_iff.1 h).2
    rw [FilePath.names, hnil] at hl
    cases hl
  rw [List.concat_eq_append] at hname
  have hchild : p = FilePath.child ⟨p.anchor, front⟩ name.text := by
    rw [FilePath.child_eq name.valid]
    exact congrArg (FilePath.mk p.anchor) hname
  have hparent : p.parent = ⟨p.anchor, front⟩ := by
    rw [FilePath.parent, hname, List.dropLast_concat]
  have hlast : name ∈ p.components.getLast? := by
    rw [hname, List.getLast?_concat]
    rfl
  rw [hchild] at h
  obtain ⟨b, hb⟩ := exists_encode?_of_isShort_child name.valid (finds_iff.1 h).1
  obtain ⟨d, hd⟩ := h.parent name.valid
  obtain ⟨j, hj⟩ := finds_child_iff name.valid hd (finds_iff.1 h).1 hb
  rw [((hj _ _).1 h).eq_of_vacant]
  exact ⟨hparent ▸ hd, name, hlast, hb⟩

theorem IsPlaceOf.of_keeps {place : Place} (h : w.IsPlaceOf p place) (hw : w.IsSound)
    (hk : w.Keeps w') : w'.IsPlaceOf p place :=
  ⟨hk.finds hw h.1, h.2⟩

theorem hasNothingAt_of_vacant {place : Place} (h : w.Finds .itself p (.vacant place)) :
    w.HasNothingAt p := fun _ hs => ⟨place, hs.unique h⟩

/-- Where there is nothing after something has been added, there was nothing before. -/
theorem HasNothingAt.of_adds (h : w'.HasNothingAt p) (hw : w.IsSound) (ha : w.Adds w' allowed) :
    w.HasNothingAt p := by
  intro s hs
  by_contra hne
  obtain ⟨place, rfl⟩ := h s (ha.finds hw hs fun place he => hne ⟨place, he⟩)
  exact hne ⟨place, rfl⟩

theorem IsNewDirectory.later {place : Place} {node : Node} (h : w.IsNewDirectory w' p place node)
    (hw : w'.IsSound) (hk : w'.Keeps w'') (hp : p.IsOnWayTo q) :
    w.IsNewDirectory w'' q place node := by
  obtain ⟨n, r, rfl, hr, hno, hplace, hf⟩ := h
  exact ⟨n, r, rfl, hr.trans hp, hno, hplace.of_keeps hw hk, hk.finds hw hf⟩

theorem IsNewDirectory.earlier {place : Place} {node : Node}
    (h : w'.IsNewDirectory w'' p place node) (hw : w.IsSound) (ha : w.Adds w' allowed) :
    w.IsNewDirectory w'' p place node := by
  obtain ⟨n, r, rfl, hr, hno, hplace, hf⟩ := h
  exact ⟨n, r, rfl, hr, hno.of_adds hw ha, hplace, hf⟩

/-- Only directories on the way to the path are new. -/
abbrev AddsDirectories (w w' : World) (p : FilePath) : Prop :=
  w.Adds w' (w.IsNewDirectory w' p)

/-- Directories are made on the way to one path and then on that to another one further on. -/
theorem AddsDirectories.trans (h : w.AddsDirectories w' p) (h' : w'.AddsDirectories w'' q)
    (hw : w.IsSound) (hp : p.IsOnWayTo q) : w.AddsDirectories w'' q :=
  Adds.trans h h' (fun _ _ hn => hn.later (h.keeps.isSound hw) h'.keeps hp)
    fun _ _ hn => hn.earlier hw h

end World

namespace Disk

variable {w : World} {p : FilePath}

/-! ### Directories -/

theorem adds_graftDirectory {place : Place} (hw : w.IsSound)
    (hf : w.Finds .itself p (.vacant place)) (mode : Nat) :
    w.AddsDirectories { w with tree := w.tree.graftDirectory place mode } p := by
  have hv : w.tree.isVacant place = true := hf.isIn hw
  refine ⟨keeps_graftDirectory hv mode, fun q node hn => ?_, fun n hn => mode?_graftDirectory hv hn,
    fun q node hn => ?_⟩
  · rw [node?_graftDirectory hv, if_neg, hn]
    rintro rfl
    rw [((w.tree.isVacant_iff q).1 hv).2.2] at hn
    contradiction
  · rw [node?_graftDirectory hv] at hn
    split at hn
    · next hq =>
      subst hq
      exact .inr ⟨_, p, (Option.some.inj hn).symm, .refl p, World.hasNothingAt_of_vacant hf,
        hf.isPlaceOf.of_keeps hw (keeps_graftDirectory hv mode), finds_graftDirectory hw hf⟩
    · exact .inl hn

theorem adds_ensureOne (hw : w.IsSound) (p : FilePath) (mode : Nat) :
    w.AddsDirectories (w.after (ensureOne p mode)) p := by
  rcases ensureOne_cases w p mode with ⟨-, h⟩ | ⟨place, hf, h⟩ | ⟨-, -, f, h⟩
  · rw [World.after_of_ok h]
    exact .refl w _
  · rw [World.after_of_ok h]
    exact adds_graftDirectory hw hf mode
  · rw [World.after_of_error h]
    exact .refl w _

/-- **Making directories adds only those that are missing on the way**, also if it fails. -/
theorem adds_ensureNames (hw : w.IsSound) (anchor : Anchor) (depth : Nat) (names : List Component)
    (mode : Nat) :
    w.AddsDirectories (w.after (ensureNames anchor depth names mode)) (pathOf anchor names) := by
  induction depth generalizing names mode with
  | zero => exact .refl w _
  | succ depth ih =>
    cases names with
    | nil => exact adds_ensureOne hw _ _
    | cons name above =>
      by_cases hm : w.Misses (pathOf anchor (name :: above))
      case neg =>
        rw [World.after_congr (ensureNames_cons_of_not_misses hm depth mode)]
        exact adds_ensureOne hw _ _
      have heq := ensureNames_cons_of_misses hm depth mode
      have habove := ih above sharedDirectoryMode
      have hway : (pathOf anchor above).IsOnWayTo (pathOf anchor (name :: above)) := by
        rw [pathOf_cons]
        exact FilePath.isOnWayTo_child name.valid _
      rcases StoreM.ok_or_error (ensureNames anchor depth above sharedDirectoryMode) w with
        ⟨_, hx⟩ | ⟨f, hx⟩
      · rw [World.after_congr (heq.trans (StoreM.bind_of_ok hx _))]
        exact habove.trans (adds_ensureOne (habove.keeps.isSound hw) _ _) hw hway
      · rw [World.after_of_error (heq.trans (StoreM.bind_of_error hx _))]
        exact World.AddsDirectories.trans habove (.refl _ _) hw hway

theorem adds_ensureDirectory (hw : w.IsSound) (p : FilePath) (mode : Nat) :
    w.AddsDirectories (w.after (ensureDirectory p mode)) p := by
  have h := adds_ensureNames hw p.anchor maxDepth p.components.reverse mode
  rwa [pathOf_reverse] at h

/-! ### Files -/

/-- A new file is added to the tree, and nothing else. -/
theorem adds_create {place : Place} (hw : w.IsSound) (hf : w.Finds .creation p (.vacant place))
    (mode : Nat) :
    w.Adds { w with tree := (w.tree.create place mode).2 }
      (w.IsNewFile { w with tree := (w.tree.create place mode).2 } p) := by
  have hv : w.tree.isVacant place = true := hf.isIn hw
  have hd := hf.denoted (by simp)
  refine ⟨keeps_create hv mode, fun q node hn => ?_, fun n _ => mode?_graft n, fun q node hn => ?_⟩
  · rw [node?_create hv, if_neg, hn]
    rintro rfl
    rw [((w.tree.isVacant_iff q).1 hv).2.2] at hn
    contradiction
  · rw [node?_create hv] at hn
    split at hn
    · next hq =>
      subst hq
      have hno := (lacks_iff.1 (lacks_of_vacant hd)).2
      exact .inr ⟨_, mode, (Option.some.inj hn).symm, hno, finds_create hw hd⟩
    · exact .inl hn

end Disk

end ClientStore
