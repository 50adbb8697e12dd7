import ClientStore.Proofs.Additions

/-!
# Modes

Who may look into a file or a directory is settled when it is made. No operation changes the mode of
anything later: a tree gets new nodes with modes of their own, files get other content, and a node
that is taken away takes its mode with it.

Most operations do not even do that. What a world looks like apart from the content of files is its
shape, and modes are a matter of the shape alone.

## Main definitions

* `World.HasMode`, `World.mode?` — the mode of what a path denotes, and the same as a value.
* `World.shape` — a world without its journal and what is in its files.
* `World.KeepsModes` — a later world in which everything is there with its mode.

## Main results

* `World.KeepsModes.hasMode` — the paths have the modes that they had.
* `Disk.hasMode_of_prune` — where something is taken away, no path gets a mode.
-/

namespace ClientStore

open FileTree

variable {w w' w'' : World} {p : FilePath} {m m' : Nat}

/-! ### The mode of a path -/

/-- The mode of what is at the end of a path. -/
def FileTree.Spot.mode? (t : FileTree) : Spot → Option Nat
  | .directory n => t.mode? n
  | .file _ _ mode _ => some mode
  | _ => none

namespace World

/-- The path denotes a file or a directory with the mode. -/
def HasMode (w : World) (p : FilePath) (mode : Nat) : Prop :=
  ∃ s, w.Finds .denoted p s ∧ s.mode? w.tree = some mode

/-- The mode of what a path denotes, if it denotes anything. -/
def mode? (w : World) (p : FilePath) : Option Nat :=
  match p.bytes with
  | .ok b => (w.tree.denoted? w.here b).bind (Spot.mode? w.tree)
  | .error _ => none

theorem mode?_eq_some_iff : w.mode? p = some m ↔ w.HasMode p m := by
  rw [mode?, HasMode]
  cases hb : p.bytes with
  | error f => simp [Finds, hb]
  | ok b =>
    cases hl : w.tree.locate w.here .denoted b with
    | error fault => simp [Finds, hb, hl, denoted?, Except.toOption]
    | ok s => simp [Finds, hb, hl, denoted?, Except.toOption]

theorem HasMode.unique (h : w.HasMode p m) (h' : w.HasMode p m') : m = m' := by
  obtain ⟨s, hf, hs⟩ := h
  obtain ⟨s', hf', hs'⟩ := h'
  obtain rfl := hf.unique hf'
  exact Option.some.inj (hs.symm.trans hs')

/-- Where there is a directory, there is a mode. -/
theorem HasDirectoryAt.exists_hasMode (h : w.HasDirectoryAt p) (hw : w.IsSound) :
    ∃ m, w.HasMode p m := by
  obtain ⟨d, hd⟩ := h
  obtain ⟨m, hm⟩ := Option.isSome_iff_exists.1 (hasDirectory_iff_isSome_mode?.1 (hd.isIn hw))
  exact ⟨m, _, hd, hm⟩

/-! ### Later worlds -/

/-- In the world `w'`, everything that is in `w` is there with the mode that it had. -/
structure KeepsModes (w w' : World) : Prop where
  keeps : w.Keeps w'
  node : ∀ q node, w.tree.node? q = some node →
    ∃ c, w'.tree.node? q = some (node.withContent c)
  mode : ∀ n, w.tree.HasDirectory n → w'.tree.mode? n = w.tree.mode? n

/-- What a world is apart from its journal and what is in its files. -/
def shape (w : World) : ((Place → Option Node) × (Nat → Option Place) × (Nat → Option Nat)) × Nat :=
  (w.tree.shape, w.here)

theorem keepsModes_of_shape_eq (h : w.shape = w'.shape) : w.KeepsModes w' :=
  have ht : w.tree.shape = w'.tree.shape := congrArg Prod.fst h
  ⟨⟨keeps_of_shape_eq ht, (congrArg Prod.snd h).symm⟩, fun _ _ => exists_node?_of_shape_eq ht,
    fun n _ => mode?_of_shape_eq ht n⟩

theorem Adds.keepsModes {allowed : Place → Node → Prop} (h : w.Adds w' allowed) :
    w.KeepsModes w' := by
  refine ⟨h.keeps, fun q node hn => ?_, h.mode⟩
  obtain ⟨c, hc⟩ := node.exists_eq_withContent_self
  exact ⟨c, by rw [← hc, h.node q node hn]⟩

namespace KeepsModes

theorem refl (w : World) : w.KeepsModes w := keepsModes_of_shape_eq rfl

theorem trans (h : w.KeepsModes w') (h' : w'.KeepsModes w'') : w.KeepsModes w'' where
  keeps := h.keeps.trans h'.keeps
  node q node hn := by
    obtain ⟨c, hc⟩ := h.node q node hn
    obtain ⟨c', hc'⟩ := h'.node q _ hc
    exact ⟨c', by rw [hc', Node.withContent_withContent]⟩
  mode n hn := by rw [h'.mode n (h.keeps.tree.grows n hn), h.mode n hn]

/-- **Every path has the mode that it had.** -/
theorem hasMode (h : w.KeepsModes w') (hw : w.IsSound) (hm : w.HasMode p m) : w'.HasMode p m := by
  obtain ⟨s, hf, hs⟩ := hm
  refine ⟨_, h.keeps.finds hw hf, ?_⟩
  cases s with
  | directory n => exact (h.mode n (hf.isIn hw)).trans hs
  | file place serial mode content =>
    obtain ⟨c, hc⟩ := h.node _ _ (hf.isIn hw)
    rw [Spot.seenIn, hc]
    exact hs
  | link place target => contradiction
  | vacant place => contradiction

end KeepsModes

/-- Modes are a matter of the shape. -/
theorem hasMode_congr (h : w.shape = w'.shape) (hw : w.IsSound) :
    w.HasMode p m ↔ w'.HasMode p m :=
  have hk := keepsModes_of_shape_eq h
  ⟨hk.hasMode hw, (keepsModes_of_shape_eq h.symm).hasMode (hk.keeps.isSound hw)⟩

end World

/-! ### What is taken away -/

/-- **Where something is taken away, no path gets a mode** that it did not have. -/
theorem Disk.hasMode_of_prune {place : Place}
    (h : World.HasMode { w with tree := w.tree.prune place } p m) : w.HasMode p m := by
  obtain ⟨s, ⟨b, hb, hl⟩, hs⟩ := h
  rcases locate_of_prune hl with hl | ⟨q, rfl⟩
  · refine ⟨s, ⟨b, hb, hl⟩, ?_⟩
    cases s with
    | directory n => exact (mode?_prune n).symm.trans hs
    | _ => exact hs
  · contradiction

/-! ### Operations that keep the shape -/

namespace StoreM

variable {α : Type}

/-- What depends on the shape only is not touched by an operation that keeps the shape. -/
theorem Preserves.maintains {γ : Type} {f : World → γ} {P : World → Prop} {x : StoreM α}
    (hx : x.Preserves f) (hP : ∀ w w', f w = f w' → P w → P w') : x.Maintains P :=
  fun w hw => hP w _ (hx w).symm hw

theorem LeavesFiles.preserves_shape {x : StoreM α} (hx : x.LeavesFiles) :
    x.Preserves World.shape := by
  intro w
  rw [World.shape, World.shape, (hx w).1, (hx w).2]

end StoreM

namespace Disk

theorem shape_refill (w : World) (place : Place) (c : Bytes) :
    w.shape = World.shape { w with tree := w.tree.refill place c } :=
  Prod.ext (FileTree.shape_refill w.tree place c).symm rfl

theorem preserves_shape_write (h : Handle) (offset : Nat) (data : Bytes) :
    (write h offset data).Preserves World.shape := fun w =>
  Prod.ext (shape_write w.tree h offset data) rfl

theorem preserves_shape_append (h : Handle) (data : Bytes) :
    (append h data).Preserves World.shape := fun w => Prod.ext (shape_append w.tree h data) rfl

end Disk

end ClientStore
