import ClientStore.FileTree.Operations
import ClientStore.Proofs.OrderedMap

/-!
# What a change changes

A file tree is seen through three questions: which node is at a place, where a directory is, and
which numbers are those of directories. Every change is settled here by its answers to them, and
after that no proof looks into a table again.

## Main definitions

* `FileTree.HasDirectory` — the numbers of directories.
* `FileTree.Keeps` — one tree comes out of another without a directory or a link being touched,
  which is all that a walk depends on until its last step.
* `FileTree.shape` — a tree without what is in its files.

## Main results

* `node?_graft`, `node?_graftDirectory`, `node?_prune`, `node?_refill`.
* `keeps_graft`, `keeps_graftDirectory`, `keeps_prune`, `keeps_refill`.
-/

namespace ClientStore

/-- The node with other content, if it is a file. -/
def Node.withContent (content : Bytes) : Node → Node
  | .file serial mode _ => .file serial mode content
  | node => node

namespace Node

theorem isFile_withContent (content : Bytes) (node : Node) :
    (node.withContent content).isFile = node.isFile := by
  cases node <;> rfl

theorem withContent_withContent (c c' : Bytes) (node : Node) :
    (node.withContent c).withContent c' = node.withContent c' := by
  cases node <;> rfl

theorem withContent_of_isFile_eq_false {node : Node} (h : node.isFile = false)
    (content : Bytes) : node.withContent content = node := by
  cases node with
  | file serial mode old => contradiction
  | _ => rfl

/-- Nodes that differ in their content only. -/
theorem exists_eq_withContent {node other : Node} (h : node.withContent [] = other.withContent []) :
    ∃ c, other = node.withContent c := by
  cases other with
  | file serial mode c => exact ⟨c, by rw [← withContent_withContent [], h]; rfl⟩
  | directory n => exact ⟨[], h.symm⟩
  | link target => exact ⟨[], h.symm⟩

theorem exists_eq_withContent_self (node : Node) : ∃ c, node = node.withContent c :=
  exists_eq_withContent rfl

end Node

namespace FileTree

open Directory

/-- The number is one of a directory. -/
def HasDirectory (t : FileTree) (n : Nat) : Prop := n < t.directories.size

theorem hasDirectory_root (t : FileTree) : t.HasDirectory root := t.rooted

/-- The numbers of directories are those with a mode. -/
theorem hasDirectory_iff_isSome_mode? {t : FileTree} {n : Nat} :
    t.HasDirectory n ↔ (t.mode? n).isSome := by
  simp [HasDirectory, mode?]

theorem hasDirectory_of_node? {t : FileTree} {p : Place} {node : Node}
    (h : t.node? p = some node) : t.HasDirectory p.directory := lt_size_of_nodeIn h

theorem hasDirectory_of_node?_eq_directory {t : FileTree} {p : Place} {n : Nat}
    (h : t.node? p = some (.directory n)) : t.HasDirectory n :=
  lt_size_of_placeIn ((t.located p n).1 h)

theorem hasDirectory_above {t : FileTree} {n : Nat} (h : t.HasDirectory n) :
    t.HasDirectory (t.above n) := by
  rw [above]
  cases hp : t.place? n with
  | none => exact h
  | some p => exact Nat.lt_trans (t.nested n p hp) h

theorem isVacant_iff (t : FileTree) (p : Place) :
    t.isVacant p = true ↔
      t.HasDirectory p.directory ∧ isFileName p.name = true ∧ t.node? p = none := by
  simp [isVacant, HasDirectory, and_assoc]

/-! ### Listing -/

/-- A directory lists what is in it. -/
theorem mem_names_iff (t : FileTree) (n : Nat) (e : Bytes × Node) :
    e ∈ t.names n ↔ t.node? ⟨n, e.1⟩ = some e.2 := by
  rw [names, node?, nodeIn]
  cases t.directories[n]? with
  | none => simp
  | some d => exact List.mem_mergeSort.trans (d.entries.get?_eq_some_iff e.1 e.2).symm

/-- No name is listed twice. -/
theorem nodup_names (t : FileTree) (n : Nat) : ((t.names n).map Prod.fst).Nodup := by
  rw [names]
  cases t.directories[n]? with
  | none => exact List.nodup_nil
  | some d =>
    refine (List.Perm.map Prod.fst (List.mergeSort_perm _ _)).nodup_iff.2 ?_
    exact d.entries.distinct

/-! ### Modes of directories -/

/-- Other entries do not change the mode of a directory. -/
theorem map_mode_editIn (ds : Array Directory) (n m : Nat)
    (f : OrderedMap Bytes Node → OrderedMap Bytes Node) :
    (editIn ds n f)[m]?.map Directory.mode = ds[m]?.map Directory.mode := by
  rw [editIn, Array.getElem?_modify]
  split
  · cases ds[m]? <;> rfl
  · rfl

/-! ### Grafting a file or a link -/

section Graft

variable {t : FileTree} {p : Place} {node : Node}

theorem node?_graft (h : t.isVacant p = true) (hn : node.isDirectory = false) (q : Place) :
    (t.graft p node).node? q = if q = p then some node else t.node? q := by
  rw [graft, dif_pos ⟨h, by simp [hn]⟩]
  exact nodeIn_setIn ((t.isVacant_iff p).1 h).1 node q

theorem place?_graft (n : Nat) : (t.graft p node).place? n = t.place? n := by
  rw [graft]
  split
  · exact placeIn_editIn ..
  · rfl

theorem hasDirectory_graft (n : Nat) : (t.graft p node).HasDirectory n ↔ t.HasDirectory n := by
  rw [graft]
  split
  · simp [HasDirectory, setIn, size_editIn]
  · rfl

theorem mode?_graft (n : Nat) : (t.graft p node).mode? n = t.mode? n := by
  rw [graft]
  split
  · exact map_mode_editIn ..
  · rfl

end Graft

/-! ### Grafting a directory -/

section GraftDirectory

variable {t : FileTree} {p : Place} {mode : Nat}

theorem node?_graftDirectory (h : t.isVacant p = true) (q : Place) :
    (t.graftDirectory p mode).node? q =
      if q = p then some (.directory t.directories.size) else t.node? q := by
  rw [graftDirectory, dif_pos h]
  show nodeIn (addTo _ p mode) q = _
  rw [nodeIn_addTo]
  exact nodeIn_setIn ((t.isVacant_iff p).1 h).1 _ q

/-- A new directory is empty. -/
theorem node?_graftDirectory_size (h : t.isVacant p = true) (name : Bytes) :
    (t.graftDirectory p mode).node? ⟨t.directories.size, name⟩ = none := by
  have hlt := ((t.isVacant_iff p).1 h).1
  rw [node?_graftDirectory h, if_neg fun he => absurd hlt (by rw [← he]; exact Nat.lt_irrefl _)]
  cases hn : t.node? ⟨t.directories.size, name⟩ with
  | none => rfl
  | some node => exact absurd (hasDirectory_of_node? hn) (Nat.lt_irrefl _)

theorem place?_graftDirectory (h : t.isVacant p = true) (n : Nat) :
    (t.graftDirectory p mode).place? n =
      if n = t.directories.size then some p else t.place? n := by
  rw [graftDirectory, dif_pos h]
  show placeIn (addTo _ p mode) n = _
  rw [placeIn_addTo, setIn, size_editIn, placeIn_editIn]
  rfl

theorem size_graftDirectory (h : t.isVacant p = true) :
    (t.graftDirectory p mode).directories.size = t.directories.size + 1 := by
  rw [graftDirectory, dif_pos h]
  simp [addTo, setIn, size_editIn]

/-- The directories that were there have the modes that they had. -/
theorem mode?_graftDirectory {n : Nat} (h : t.isVacant p = true) (hn : t.HasDirectory n) :
    (t.graftDirectory p mode).mode? n = t.mode? n := by
  rw [graftDirectory, dif_pos h]
  show (addTo _ p mode)[n]?.map Directory.mode = _
  have hlt : n ≠ (setIn t.directories p (.directory t.directories.size)).size := by
    rw [setIn, size_editIn]
    exact Nat.ne_of_lt hn
  rw [addTo, Array.getElem?_push, if_neg hlt]
  exact map_mode_editIn ..

/-- A new directory has the mode that it is made with. -/
theorem mode?_graftDirectory_size (h : t.isVacant p = true) :
    (t.graftDirectory p mode).mode? t.directories.size = some mode := by
  rw [graftDirectory, dif_pos h]
  show (addTo _ p mode)[t.directories.size]?.map Directory.mode = _
  rw [addTo, Array.getElem?_push, setIn, size_editIn, if_pos rfl]
  rfl

end GraftDirectory

/-! ### Pruning -/

section Prune

variable {t : FileTree} {p : Place}

theorem node?_prune (h : (t.node? p).any Node.isDirectory = false) (q : Place) :
    (t.prune p).node? q = if q = p then none else t.node? q := by
  rw [prune, dif_neg (by simp [h])]
  exact nodeIn_clearIn t.directories p q

theorem place?_prune (n : Nat) : (t.prune p).place? n = t.place? n := by
  rw [prune]
  split
  · rfl
  · exact placeIn_editIn ..

theorem hasDirectory_prune (n : Nat) : (t.prune p).HasDirectory n ↔ t.HasDirectory n := by
  rw [prune]
  split
  · rfl
  · simp [HasDirectory, clearIn, size_editIn]

theorem mode?_prune (n : Nat) : (t.prune p).mode? n = t.mode? n := by
  rw [prune]
  split
  · rfl
  · exact map_mode_editIn ..

/-- Whatever is in a pruned tree was there before. -/
theorem node?_of_prune {q : Place} {node : Node} (h : (t.prune p).node? q = some node) :
    t.node? q = some node := by
  rw [prune] at h
  split at h
  · exact h
  · rw [node?, nodeIn_clearIn] at h
    split at h
    · contradiction
    · exact h

end Prune

/-! ### Other content in a file -/

section Refill

variable {t : FileTree} {p : Place} {content : Bytes}

/-- A tree is refilled by setting a node, or not at all. -/
theorem refill_cases (t : FileTree) (p : Place) (content : Bytes) :
    (∃ serial mode old, t.node? p = some (.file serial mode old) ∧
      (t.refill p content).directories = setIn t.directories p (.file serial mode content)) ∨
    (((t.node? p).map (Node.withContent content) = t.node? p) ∧ t.refill p content = t) := by
  rw [refill]
  split
  · next serial mode old h => exact .inl ⟨serial, mode, old, h, rfl⟩
  · next h =>
    refine .inr ⟨?_, rfl⟩
    rw [node?]
    match hn : nodeIn t.directories p with
    | none => rfl
    | some (.directory _) => rfl
    | some (.link _) => rfl
    | some (.file serial mode old) => exact absurd hn (h serial mode old)

theorem node?_refill (q : Place) :
    (t.refill p content).node? q =
      if q = p then (t.node? p).map (Node.withContent content) else t.node? q := by
  rcases refill_cases t p content with ⟨serial, mode, old, h, hd⟩ | ⟨hm, ht⟩
  · rw [node?, hd, nodeIn_setIn (lt_size_of_nodeIn h), h]
    rfl
  · rw [ht, hm]
    split
    · next he => rw [he]
    · rfl

theorem place?_refill (n : Nat) : (t.refill p content).place? n = t.place? n := by
  rcases refill_cases t p content with ⟨serial, mode, old, h, hd⟩ | ⟨-, ht⟩
  · rw [place?, hd]
    exact placeIn_editIn ..
  · rw [ht]

theorem mode?_refill (n : Nat) : (t.refill p content).mode? n = t.mode? n := by
  rcases refill_cases t p content with ⟨serial, mode, old, h, hd⟩ | ⟨-, ht⟩
  · rw [mode?, hd]
    exact map_mode_editIn ..
  · rw [ht]

end Refill

/-! ### Trees that keep their directories and links -/

/-- The directories and links of `t` are in `t'` as they were, and the links are no others. Files
may have gone, come or changed, and there may be new directories. -/
structure Keeps (t t' : FileTree) : Prop where
  node : ∀ p node, t.node? p = some node → node.isFile = false → t'.node? p = some node
  link : ∀ p target, t'.node? p = some (.link target) → t.node? p = some (.link target)
  place : ∀ n, t.HasDirectory n → t'.place? n = t.place? n
  grows : ∀ n, t.HasDirectory n → t'.HasDirectory n

namespace Keeps

variable {t t' t'' : FileTree}

theorem refl (t : FileTree) : t.Keeps t :=
  ⟨fun _ _ h _ => h, fun _ _ h => h, fun _ _ => rfl, fun _ h => h⟩

theorem trans (h : t.Keeps t') (h' : t'.Keeps t'') : t.Keeps t'' where
  node p node hp hn := h'.node p node (h.node p node hp hn) hn
  link p target hp := h.link p target (h'.link p target hp)
  place n hn := by rw [h'.place n (h.grows n hn), h.place n hn]
  grows n hn := h'.grows n (h.grows n hn)

theorem above (h : t.Keeps t') {n : Nat} (hn : t.HasDirectory n) : t'.above n = t.above n := by
  rw [FileTree.above, h.place n hn, FileTree.above]

end Keeps

section Keeping

variable {t : FileTree} {p : Place}

theorem keeps_graft {serial mode : Nat} {content : Bytes} (h : t.isVacant p = true) :
    t.Keeps (t.graft p (.file serial mode content)) where
  node q other hq _ := by
    rw [node?_graft h rfl]
    split
    · next he =>
      rw [he, ((t.isVacant_iff p).1 h).2.2] at hq
      contradiction
    · exact hq
  link q target hq := by
    rw [node?_graft h rfl] at hq
    split at hq
    · simp at hq
    · exact hq
  place n _ := place?_graft n
  grows n := (hasDirectory_graft n).2

theorem keeps_graftDirectory {mode : Nat} (h : t.isVacant p = true) :
    t.Keeps (t.graftDirectory p mode) where
  node q other hq _ := by
    rw [node?_graftDirectory h]
    split
    · next he =>
      rw [he, ((t.isVacant_iff p).1 h).2.2] at hq
      contradiction
    · exact hq
  link q target hq := by
    rw [node?_graftDirectory h] at hq
    split at hq
    · simp at hq
    · exact hq
  place n hn := by
    rw [place?_graftDirectory h, if_neg (Nat.ne_of_lt hn)]
  grows n hn := by
    rw [HasDirectory, size_graftDirectory h]
    exact Nat.lt_succ_of_lt hn

theorem keeps_prune {serial mode : Nat} {content : Bytes}
    (h : t.node? p = some (.file serial mode content)) : t.Keeps (t.prune p) where
  node q other hq hf := by
    rw [node?_prune (by rw [h]; rfl)]
    split
    · next he =>
      rw [he, h] at hq
      cases hq
      contradiction
    · exact hq
  link q target hq := by
    rw [node?_prune (by rw [h]; rfl)] at hq
    split at hq
    · contradiction
    · exact hq
  place n _ := place?_prune n
  grows n := (hasDirectory_prune n).2

end Keeping

/-! ### Trees of one shape -/

/-- What a tree is without what is in its files. -/
def shape (t : FileTree) : (Place → Option Node) × (Nat → Option Place) × (Nat → Option Nat) :=
  (fun p => (t.node? p).map (Node.withContent []), t.place?, t.mode?)

theorem shape_refill (t : FileTree) (p : Place) (content : Bytes) :
    (t.refill p content).shape = t.shape := by
  refine Prod.ext (funext fun q => ?_) (Prod.ext (funext place?_refill) (funext mode?_refill))
  show ((t.refill p content).node? q).map _ = (t.node? q).map _
  rw [node?_refill]
  split
  · next hq =>
    rw [hq, Option.map_map]
    exact congrArg (Option.map · _) (funext (Node.withContent_withContent content []))
  · rfl

section Shape

variable {t t' : FileTree} (h : t.shape = t'.shape)

include h

/-- In a tree of the same shape, the nodes can differ in their content only. -/
theorem exists_node?_of_shape_eq {p : Place} {node : Node} (hn : t.node? p = some node) :
    ∃ c, t'.node? p = some (node.withContent c) := by
  have hp : (t.node? p).map (Node.withContent []) = (t'.node? p).map (Node.withContent []) :=
    congrFun (congrArg Prod.fst h) p
  rw [hn] at hp
  obtain ⟨other, ho, he⟩ := Option.map_eq_some_iff.1 hp.symm
  obtain ⟨c, rfl⟩ := Node.exists_eq_withContent he.symm
  exact ⟨c, ho⟩

theorem mode?_of_shape_eq (n : Nat) : t'.mode? n = t.mode? n :=
  (congrFun (congrArg (·.2.2) h) n).symm

/-- Trees of one shape have the same directories and links. -/
theorem keeps_of_shape_eq : t.Keeps t' where
  node p node hp hf := by
    obtain ⟨c, hn⟩ := exists_node?_of_shape_eq h hp
    rwa [Node.withContent_of_isFile_eq_false hf] at hn
  link p target hp := by
    obtain ⟨c, hn⟩ := exists_node?_of_shape_eq h.symm hp
    exact hn
  place n _ := (congrFun (congrArg (·.2.1) h) n).symm
  grows n hn := by
    rw [hasDirectory_iff_isSome_mode?] at hn ⊢
    rwa [mode?_of_shape_eq h]

end Shape

theorem keeps_refill (t : FileTree) (p : Place) (content : Bytes) :
    t.Keeps (t.refill p content) :=
  keeps_of_shape_eq (shape_refill t p content).symm

/-! ### Files by handle -/

section Handles

variable {t : FileTree} {p : Place} {mode : Nat}

theorem node?_create (h : t.isVacant p = true) (q : Place) :
    (t.create p mode).2.node? q =
      if q = p then some (.file t.nextSerial mode []) else t.node? q :=
  node?_graft h rfl q

theorem content?_of_node? {h : Handle} {old : Bytes}
    (hn : t.node? h.place = some (.file h.serial mode old)) : t.content? h = some old := by
  rw [content?, hn]
  exact if_pos rfl

theorem append_of_node? {h : Handle} {old : Bytes}
    (hn : t.node? h.place = some (.file h.serial mode old)) (data : Bytes) :
    t.append h data = t.refill h.place (old ++ data) := by
  rw [append, content?_of_node? hn]

/-- What is written within a file is put over what was there. -/
theorem write_append_of_node? {h : Handle} {front rest : Bytes}
    (hn : t.node? h.place = some (.file h.serial mode (front ++ rest))) (data : Bytes) :
    t.write h front.length data =
      t.refill h.place (front ++ data ++ rest.drop data.length) := by
  rw [write, content?_of_node? hn]
  show t.refill h.place (overlay (front ++ rest) front.length data) = _
  cases data with
  | nil => simp [overlay]
  | cons b data => simp [overlay, List.drop_length_add_append]

/-- What is written at the end of a file is appended to it. -/
theorem write_of_node? {h : Handle} {old : Bytes}
    (hn : t.node? h.place = some (.file h.serial mode old)) (data : Bytes) :
    t.write h old.length data = t.refill h.place (old ++ data) := by
  rw [← List.append_nil old] at hn
  rw [write_append_of_node? hn, List.drop_nil, List.append_nil]

/-- Writing does nothing to a tree but refill a file. -/
theorem shape_write (t : FileTree) (h : Handle) (offset : Nat) (data : Bytes) :
    (t.write h offset data).shape = t.shape := by
  rw [write]
  split
  · exact shape_refill ..
  · rfl

theorem shape_append (t : FileTree) (h : Handle) (data : Bytes) :
    (t.append h data).shape = t.shape := by
  rw [append]
  split
  · exact shape_refill ..
  · rfl

theorem keeps_create (h : t.isVacant p = true) : t.Keeps (t.create p mode).2 :=
  have hk : t.Keeps (t.graft p (.file t.nextSerial mode [])) := keeps_graft h
  ⟨hk.node, hk.link, hk.place, hk.grows⟩

end Handles

end FileTree

end ClientStore
