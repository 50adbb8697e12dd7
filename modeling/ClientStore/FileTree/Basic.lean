import ClientStore.OrderedMap
import ClientStore.Failure
import ClientStore.FileTree.NameHash

/-!
# File trees

A file tree is a table of directories. Each has a number, its position in the table, and holds
nodes under names; number 0 is the root. A node is a file, a link, or the number of a directory
below. So a node is at a place, which is a name and the number of the directory that holds it, and
going one step along a path looks at one directory only.

A tree changes in four ways only: a file or link is put at a vacant place, a new directory is, a
node that is no directory is taken away, or a regular file gets other content. What each of them
keeps is part of the type: nodes have names that a path can spell, a directory is at the one place
that it knows of, and that place is in a directory that was there before. The root is nowhere.

A regular file carries the serial number it got when it was created, so that an open handle goes on
denoting its own file when another one takes the place.

## Main definitions

* `Place`, `Node`, `Directory`, `isFileName`, `FileTree`.
* `FileTree.node?`, `FileTree.place?` — what is at a place, and where a directory is.
* `FileTree.graft`, `FileTree.graftDirectory`, `FileTree.prune`, `FileTree.refill` — the changes.
* `FileTree.names`, `FileTree.nodes` — what is in a directory, and in the whole tree.
* `overlay` — bytes written over other bytes.
-/

namespace ClientStore

/-- Where a node can be: under a name in the directory with a number. -/
structure Place where
  directory : Nat
  name : Bytes
  deriving DecidableEq, Repr

/-- What is at a place. -/
inductive Node where
  | directory (number : Nat)
  | file (serial : Nat) (mode : Nat) (content : Bytes)
  | link (target : Bytes)
  deriving DecidableEq

namespace Node

def isDirectory : Node → Bool
  | directory _ => true
  | _ => false

def isFile : Node → Bool
  | file .. => true
  | _ => false

end Node

/-- A directory in a table. -/
structure Directory where
  /-- Where it is, unless it is the root. -/
  place : Option Place
  mode : Nat
  entries : OrderedMap Bytes Node

/-- The longest name that a directory can hold. -/
def maxNameLength : Nat := 255

/-- The names that a directory can hold. -/
def isFileName (name : Bytes) : Bool :=
  !name.isEmpty && name != [0x2E] && name != [0x2E, 0x2E] && !name.contains 0x2F &&
    name.length ≤ maxNameLength

/-! ## Tables of directories -/

namespace Directory

/-- The node at a place in a table. -/
def nodeIn (ds : Array Directory) (p : Place) : Option Node :=
  ds[p.directory]?.bind fun d => d.entries.get? p.name

/-- The place of a directory in a table. -/
def placeIn (ds : Array Directory) (n : Nat) : Option Place := ds[n]?.bind Directory.place

/-- The table with other entries in one directory. -/
def editIn (ds : Array Directory) (n : Nat) (f : OrderedMap Bytes Node → OrderedMap Bytes Node) :
    Array Directory :=
  ds.modify n fun d => { d with entries := f d.entries }

/-- The table with a node set at a place. -/
def setIn (ds : Array Directory) (p : Place) (node : Node) : Array Directory :=
  editIn ds p.directory (·.insert p.name node)

/-- The table with nothing at a place. -/
def clearIn (ds : Array Directory) (p : Place) : Array Directory :=
  editIn ds p.directory (·.erase p.name)

/-- The table with a new directory, which nothing leads to yet. -/
def addTo (ds : Array Directory) (p : Place) (mode : Nat) : Array Directory :=
  ds.push ⟨some p, mode, .empty⟩

theorem size_editIn (ds : Array Directory) (n : Nat)
    (f : OrderedMap Bytes Node → OrderedMap Bytes Node) : (editIn ds n f).size = ds.size := by
  simp [editIn]

theorem placeIn_editIn (ds : Array Directory) (n m : Nat)
    (f : OrderedMap Bytes Node → OrderedMap Bytes Node) :
    placeIn (editIn ds n f) m = placeIn ds m := by
  unfold placeIn editIn
  rw [Array.getElem?_modify]
  split
  · cases ds[m]? <;> rfl
  · rfl

theorem nodeIn_editIn (ds : Array Directory) (n : Nat)
    (f : OrderedMap Bytes Node → OrderedMap Bytes Node) (q : Place) :
    nodeIn (editIn ds n f) q =
      if n = q.directory then ds[q.directory]?.bind fun d => (f d.entries).get? q.name
      else nodeIn ds q := by
  unfold nodeIn editIn
  rw [Array.getElem?_modify]
  split
  · cases ds[q.directory]? <;> rfl
  · rfl

/-- Setting a node changes what is at its place, and nothing else. -/
theorem nodeIn_setIn {ds : Array Directory} {p : Place} (h : p.directory < ds.size) (node : Node)
    (q : Place) : nodeIn (setIn ds p node) q = if q = p then some node else nodeIn ds q := by
  obtain ⟨n, name⟩ := p
  obtain ⟨m, name'⟩ := q
  rw [setIn, nodeIn_editIn]
  by_cases hn : n = m
  · subst hn
    have hd : ds[n]? = some ds[n] := Array.getElem?_eq_getElem h
    by_cases hname : name' = name
    · simp [hd, OrderedMap.get?_insert, hname]
    · simp [hd, OrderedMap.get?_insert, hname, nodeIn]
  · have hm : ¬ m = n := fun h' => hn h'.symm
    simp [hn, hm]

/-- Clearing a place changes what is there, and nothing else. -/
theorem nodeIn_clearIn (ds : Array Directory) (p q : Place) :
    nodeIn (clearIn ds p) q = if q = p then none else nodeIn ds q := by
  obtain ⟨n, name⟩ := p
  obtain ⟨m, name'⟩ := q
  rw [clearIn, nodeIn_editIn]
  by_cases hn : n = m
  · subst hn
    by_cases hname : name' = name <;> cases hd : ds[n]? <;>
      simp [hd, OrderedMap.get?_erase, hname, nodeIn]
  · have hm : ¬ m = n := fun h' => hn h'.symm
    simp [hn, hm]

/-- A new directory holds nothing and changes no other. -/
theorem nodeIn_addTo (ds : Array Directory) (p : Place) (mode : Nat) (q : Place) :
    nodeIn (addTo ds p mode) q = nodeIn ds q := by
  unfold nodeIn addTo
  rw [Array.getElem?_push]
  split
  · next h => simp [h, OrderedMap.get?, OrderedMap.empty]
  · rfl

theorem placeIn_addTo (ds : Array Directory) (p : Place) (mode n : Nat) :
    placeIn (addTo ds p mode) n = if n = ds.size then some p else placeIn ds n := by
  unfold placeIn addTo
  rw [Array.getElem?_push]
  split <;> rfl

theorem lt_size_of_placeIn {ds : Array Directory} {n : Nat} {p : Place}
    (h : placeIn ds n = some p) : n < ds.size := by
  refine Nat.lt_of_not_le fun hle => ?_
  simp [placeIn, Array.getElem?_eq_none hle] at h

theorem lt_size_of_nodeIn {ds : Array Directory} {p : Place} {node : Node}
    (h : nodeIn ds p = some node) : p.directory < ds.size := by
  refine Nat.lt_of_not_le fun hle => ?_
  simp [nodeIn, Array.getElem?_eq_none hle] at h

end Directory

/-! ## Trees -/

/-- A finite tree of named nodes. -/
structure FileTree where
  /-- The directories by their numbers. -/
  directories : Array Directory
  /-- The serial number of the next file. -/
  nextSerial : Nat
  rooted : 0 < directories.size
  /-- Every node has a name. -/
  named : ∀ p node, Directory.nodeIn directories p = some node → isFileName p.name
  /-- A directory is where it knows it is, and nowhere else. -/
  located : ∀ p n, Directory.nodeIn directories p = some (.directory n) ↔
    Directory.placeIn directories n = some p
  /-- A directory is in one that was there before. -/
  nested : ∀ n p, Directory.placeIn directories n = some p → p.directory < n

/-- The content that writing `data` at `offset` leaves. A gap before `offset` is filled with
zeros, and writing nothing changes nothing. -/
def overlay (old : Bytes) (offset : Nat) (data : Bytes) : Bytes :=
  if data.isEmpty then old
  else old.take offset ++ List.replicate (offset - old.length) 0 ++ data ++
    old.drop (offset + data.length)

namespace FileTree

open Directory

/-- The number of the root. -/
def root : Nat := 0

/-- The mode of the root. -/
def rootMode : Nat := 0o755

/-- The tree that has only its root. -/
def empty : FileTree where
  directories := #[⟨none, rootMode, .empty⟩]
  nextSerial := 0
  rooted := by simp
  named := by
    rintro ⟨n, name⟩ node h
    cases n <;> simp [nodeIn, OrderedMap.get?, OrderedMap.empty] at h
  located := by
    rintro ⟨m, name⟩ n
    cases m <;> cases n <;> simp [nodeIn, placeIn, OrderedMap.get?, OrderedMap.empty]
  nested := by
    intro n p h
    cases n <;> simp [placeIn] at h

instance : Inhabited FileTree := ⟨empty⟩

/-- The node at a place. -/
def node? (t : FileTree) (p : Place) : Option Node := nodeIn t.directories p

/-- The place of a directory. -/
def place? (t : FileTree) (n : Nat) : Option Place := placeIn t.directories n

/-- The mode of a directory. -/
def mode? (t : FileTree) (n : Nat) : Option Nat := t.directories[n]?.map Directory.mode

/-- The directory that contains a directory. The root contains itself. -/
def above (t : FileTree) (n : Nat) : Nat := ((t.place? n).map Place.directory).getD n

/-- Whether a place is one where a new node can go. -/
def isVacant (t : FileTree) (p : Place) : Bool :=
  p.directory < t.directories.size && isFileName p.name && (t.node? p).isNone

/-! ## Changes -/

/-- The tree with a new file or link, provided that the place is vacant. -/
def graft (t : FileTree) (p : Place) (node : Node) : FileTree :=
  if h : t.isVacant p ∧ ¬ node.isDirectory then
    { t with
      directories := setIn t.directories p node
      rooted := by
        rw [setIn, size_editIn]
        exact t.rooted
      named := by
        simp only [isVacant, Bool.and_eq_true, decide_eq_true_eq] at h
        intro q n hq
        rw [nodeIn_setIn h.1.1.1] at hq
        split at hq
        · next he => exact he ▸ h.1.1.2
        · exact t.named q n hq
      located := by
        simp only [isVacant, node?, Bool.and_eq_true, decide_eq_true_eq, Option.isNone_iff_eq_none]
          at h
        intro q n
        rw [nodeIn_setIn h.1.1.1, setIn, placeIn_editIn, ← t.located]
        split
        · next he =>
          subst he
          rw [h.1.2]
          constructor
          · intro hn
            cases node <;> simp_all [Node.isDirectory]
          · exact fun hn => nomatch hn
        · rfl
      nested := by
        intro n q hq
        rw [setIn, placeIn_editIn] at hq
        exact t.nested n q hq }
  else t

/-- The tree with a new directory, provided that the place is vacant. -/
def graftDirectory (t : FileTree) (p : Place) (mode : Nat) : FileTree :=
  if h : t.isVacant p then
    { t with
      directories := addTo (setIn t.directories p (.directory t.directories.size)) p mode
      rooted := by simp [addTo]
      named := by
        simp only [isVacant, Bool.and_eq_true, decide_eq_true_eq] at h
        intro q n hq
        rw [nodeIn_addTo, nodeIn_setIn h.1.1] at hq
        split at hq
        · next he => exact he ▸ h.1.2
        · exact t.named q n hq
      located := by
        simp only [isVacant, node?, Bool.and_eq_true, decide_eq_true_eq, Option.isNone_iff_eq_none]
          at h
        intro q n
        rw [nodeIn_addTo, nodeIn_setIn h.1.1, placeIn_addTo, setIn, size_editIn, placeIn_editIn]
        by_cases hq : q = p
        · subst hq
          by_cases hn : n = t.directories.size
          · simp [hn]
          · have hp : ¬ placeIn t.directories n = some q := by
              rw [← t.located, h.2]
              exact fun hn => nomatch hn
            have hn' : ¬ t.directories.size = n := fun h' => hn h'.symm
            simp [hn, hn', hp]
        · by_cases hn : n = t.directories.size
          · have hp : ¬ nodeIn t.directories q = some (.directory n) := by
              rw [t.located]
              exact fun h' => Nat.lt_irrefl _ (hn ▸ lt_size_of_placeIn h')
            have hq' : ¬ p = q := fun h' => hq h'.symm
            simp [hn, hq, hq', hn ▸ hp]
          · simp [hn, hq, t.located]
      nested := by
        simp only [isVacant, Bool.and_eq_true, decide_eq_true_eq] at h
        intro n q hq
        rw [placeIn_addTo, setIn, size_editIn, placeIn_editIn] at hq
        split at hq
        · next hn =>
          cases hq
          exact hn ▸ h.1.1
        · exact t.nested n q hq }
  else t

/-- The tree without the node at a place, provided that it is no directory. -/
def prune (t : FileTree) (p : Place) : FileTree :=
  if h : (t.node? p).any Node.isDirectory then t
  else
    { t with
      directories := clearIn t.directories p
      rooted := by
        rw [clearIn, size_editIn]
        exact t.rooted
      named := by
        intro q n hq
        rw [nodeIn_clearIn] at hq
        split at hq
        · exact nomatch hq
        · exact t.named q n hq
      located := by
        intro q n
        rw [nodeIn_clearIn, clearIn, placeIn_editIn, ← t.located]
        split
        · next he =>
          subst he
          constructor
          · exact fun hn => nomatch hn
          · intro hn
            simp [node?, hn, Node.isDirectory] at h
        · rfl
      nested := by
        intro n q hq
        rw [clearIn, placeIn_editIn] at hq
        exact t.nested n q hq }

/-- The tree with other content in the file at a place, provided that there is one. -/
def refill (t : FileTree) (p : Place) (content : Bytes) : FileTree :=
  match h : nodeIn t.directories p with
  | some (.file serial mode _) =>
    { t with
      directories := setIn t.directories p (.file serial mode content)
      rooted := by
        rw [setIn, size_editIn]
        exact t.rooted
      named := by
        intro q n hq
        rw [nodeIn_setIn (lt_size_of_nodeIn h)] at hq
        split at hq
        · next he => exact he ▸ t.named p _ h
        · exact t.named q n hq
      located := by
        intro q n
        rw [nodeIn_setIn (lt_size_of_nodeIn h), setIn, placeIn_editIn, ← t.located]
        split
        · next he =>
          subst he
          simp [h]
        · rfl
      nested := by
        intro n q hq
        rw [setIn, placeIn_editIn] at hq
        exact t.nested n q hq }
  | _ => t

/-! ## Listings -/

/-- The names in a directory, with their nodes, in the order in which they are listed. -/
def names (t : FileTree) (n : Nat) : List (Bytes × Node) :=
  match t.directories[n]? with
  | some d => d.entries.entries.mergeSort fun e e' => NameHash.rank e.1 ≤ NameHash.rank e'.1
  | none => []

/-- The names that lead to a place, the innermost first. -/
def namesTo (t : FileTree) (p : Place) : List Bytes :=
  p.name ::
    match h : t.place? p.directory with
    | some above =>
      have _before : above.directory < p.directory := t.nested _ _ h
      t.namesTo above
    | none => []
  termination_by p.directory

/-- All nodes below the root with their places, a directory before what is in it. -/
def nodes (t : FileTree) : List (Place × Node) :=
  t.directories.toList.zipIdx.flatMap fun (d, n) =>
    d.entries.entries.map fun (name, node) => (⟨n, name⟩, node)

end FileTree

end ClientStore
