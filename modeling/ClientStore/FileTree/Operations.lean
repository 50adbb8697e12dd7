import ClientStore.FileTree.Lookup

/-!
# Operations on a file tree

What the stores ask of the file tree. Every operation either refuses and says why, or gives an
answer and the tree that it leaves; a refusal leaves the tree as it was.

## Main definitions

* `FileTree.read`, `FileTree.openEmptied`, `FileTree.openKept`, `FileTree.makeDirectory`,
  `FileTree.remove`, `FileTree.makeLink`, `FileTree.openDirectory`: by path.
* `Handle`, `FileTree.write`, `FileTree.append` — by open file.
-/

namespace ClientStore

/-- An open file: where it was found, and which file it is. -/
structure Handle where
  place : Place
  serial : Nat
  deriving DecidableEq, Repr

namespace FileTree

/-- The content of the file at a path. -/
def read (t : FileTree) (here : Nat) (path : Bytes) : Except Fault Bytes :=
  match t.locate here .denoted path with
  | .error fault => .error fault
  | .ok (.file _ _ _ content) => .ok content
  | .ok (.directory _) | .ok (.link _ _) => .error .isDirectory
  | .ok (.vacant _) => .error .notFound

/-- A new file without content. -/
def create (t : FileTree) (p : Place) (mode : Nat) : Handle × FileTree :=
  (⟨p, t.nextSerial⟩,
    { t.graft p (.file t.nextSerial mode []) with nextSerial := t.nextSerial + 1 })

/-- The file at a path, emptied, or a new one. A link is followed, also to where there is nothing
yet. -/
def openEmptied (t : FileTree) (here : Nat) (path : Bytes) (mode : Nat) :
    Except Fault (Handle × FileTree) :=
  match t.locate here .creation path with
  | .error fault => .error fault
  | .ok (.file p serial _ _) => .ok (⟨p, serial⟩, t.refill p [])
  | .ok (.directory _) | .ok (.link _ _) => .error .isDirectory
  | .ok (.vacant p) => .ok (t.create p mode)

/-- The file at a path with the content it has, or a new one. -/
def openKept (t : FileTree) (here : Nat) (path : Bytes) (mode : Nat) :
    Except Fault (Handle × FileTree) :=
  match t.locate here .creation path with
  | .error fault => .error fault
  | .ok (.file p serial _ _) => .ok (⟨p, serial⟩, t)
  | .ok (.directory _) | .ok (.link _ _) => .error .isDirectory
  | .ok (.vacant p) => .ok (t.create p mode)

/-- The content of an open file, unless it has been removed. -/
def content? (t : FileTree) (h : Handle) : Option Bytes :=
  match t.node? h.place with
  | some (.file serial _ content) => if serial = h.serial then some content else none
  | _ => none

/-- Writes into an open file. What is written to a removed file is lost. -/
def write (t : FileTree) (h : Handle) (offset : Nat) (data : Bytes) : FileTree :=
  match t.content? h with
  | some content => t.refill h.place (overlay content offset data)
  | none => t

/-- Writes to the end of an open file. -/
def append (t : FileTree) (h : Handle) (data : Bytes) : FileTree :=
  match t.content? h with
  | some content => t.refill h.place (content ++ data)
  | none => t

/-- Makes a directory where nothing is, not even a link that leads nowhere. -/
def makeDirectory (t : FileTree) (here : Nat) (path : Bytes) (mode : Nat) :
    Except Fault FileTree :=
  match t.locate here .itself path with
  | .error fault => .error fault
  | .ok (.vacant p) => .ok (t.graftDirectory p mode)
  | .ok _ => .error .exists

/-- Makes a link where nothing is. What could not be a path cannot be a target. -/
def makeLink (t : FileTree) (here : Nat) (path target : Bytes) : Except Fault FileTree :=
  if target.isEmpty then .error .notFound
  else if pathLengthBound ≤ target.length then .error .nameTooLong
  else
    match t.locate here .itself path with
    | .error fault => .error fault
    | .ok (.vacant p) => .ok (t.graft p (.link target))
    | .ok _ => .error .exists

/-- Takes away the file or the link at a path, the link itself and not what it leads to. -/
def remove (t : FileTree) (here : Nat) (path : Bytes) : Except Fault FileTree :=
  match t.locate here .itself path with
  | .error fault => .error fault
  | .ok (.directory _) => .error .isDirectory
  | .ok (.file p _ _ _) | .ok (.link p _) => .ok (t.prune p)
  | .ok (.vacant _) => .error .notFound

/-- The directory at a path. -/
def openDirectory (t : FileTree) (here : Nat) (path : Bytes) : Except Fault Nat :=
  match t.locate here .denoted path with
  | .error fault => .error fault
  | .ok (.directory number) => .ok number
  | .ok (.file ..) | .ok (.link _ _) => .error .notDirectory
  | .ok (.vacant _) => .error .notFound

end FileTree

end ClientStore
