import ClientStore.FileTree.Basic

/-!
# Finding the place of a path

A path is walked one name at a time. `..` leads to the directory that contains the one reached so
far, wherever the links on the way have led; a symbolic link is replaced by its target; and the
last name may be vacant, which is where a new node can go. A slash at the end of a path asks for a
directory.

## Main definitions

* `FileTree.Spot` — what the end of a path is.
* `FileTree.Aim` — what a path is walked for.
* `FileTree.walk` — the walk with a bound on the number of links.
* `FileTree.locate` — the end of a path.
-/

namespace ClientStore.FileTree

/-- The end of a path. -/
inductive Spot where
  | directory (number : Nat)
  | file (p : Place) (serial : Nat) (mode : Nat) (content : Bytes)
  | link (p : Place) (target : Bytes)
  /-- There is nothing, but in a directory that can take it. -/
  | vacant (p : Place)
  deriving DecidableEq

namespace Spot

def isDirectory : Spot → Bool
  | directory _ => true
  | _ => false

def isFile : Spot → Bool
  | file .. => true
  | _ => false

end Spot

/-- What a path is walked for. -/
inductive Aim where
  /-- For the node at its end, even if that is a link. -/
  | itself
  /-- For what it denotes. A link at the end is followed. -/
  | denoted
  /-- For a file, which is made if there is none. A link at the end is followed. -/
  | creation
  deriving DecidableEq, Repr

/-- A path of so many bytes is too long. -/
def pathLengthBound : Nat := 4096

/-- The number of links after which a walk gives up. -/
def maxLinks : Nat := 40

/-- The pieces of a path between its slashes. -/
def namePieces : Bytes → List Bytes
  | [] => [[]]
  | b :: rest =>
    if b = 0x2F then [] :: namePieces rest
    else match namePieces rest with
      | [] => [[b]]
      | piece :: others => (b :: piece) :: others

/-- The names along a path. After a slash at the end there is one more, which is empty. -/
def namesAlong (path : Bytes) : List Bytes :=
  (namePieces path).filter (!·.isEmpty) ++ if path.getLast? = some 0x2F then [[]] else []

/-- The directory where the walk along a path begins, if it is asked for at `dir`. -/
def origin (dir : Nat) (path : Bytes) : Nat := if path.head? = some 0x2F then root else dir

/-- The walk from the directory `dir` along some names. A link that has to be followed is left to
`follow`, which gets the directory where its target begins and the names that are left with the
target in front of them. A file is not made at a path that asks for a directory. -/
def walkWith (t : FileTree) (follow : Nat → List Bytes → Except Fault Spot) (aim : Aim)
    (dir : Nat) : List Bytes → Except Fault Spot
  | [] => .ok (.directory dir)
  | name :: rest =>
    if name = [] ∨ name = [0x2E] then walkWith t follow aim dir rest
    else if name = [0x2E, 0x2E] then walkWith t follow aim (t.above dir) rest
    else if aim = .creation ∧ rest = [[]] then .error .isDirectory
    else if maxNameLength < name.length then .error .nameTooLong
    else
      match t.node? ⟨dir, name⟩ with
      | none => if rest.isEmpty then .ok (.vacant ⟨dir, name⟩) else .error .notFound
      | some (.directory number) => walkWith t follow aim number rest
      | some (.file serial mode content) =>
        if rest.isEmpty then .ok (.file ⟨dir, name⟩ serial mode content)
        else .error .notDirectory
      | some (.link target) =>
        if rest = [] ∧ aim = .itself then .ok (.link ⟨dir, name⟩ target)
        else if target.isEmpty then .error .notFound
        else follow (origin dir target) (namesAlong target ++ rest)

/-- The walk that follows at most `links` links. -/
def walk (t : FileTree) (aim : Aim) : (links : Nat) → (dir : Nat) → List Bytes → Except Fault Spot
  | 0, dir, names => walkWith t (fun _ _ => .error .tooManyLinks) aim dir names
  | links + 1, dir, names => walkWith t (walk t aim links) aim dir names

/-- The end of a path asked for at the directory `here`. -/
def locate (t : FileTree) (here : Nat) (aim : Aim) (path : Bytes) : Except Fault Spot :=
  if path.isEmpty then .error .notFound
  else if pathLengthBound ≤ path.length then .error .nameTooLong
  else walk t aim maxLinks (origin here path) (namesAlong path)

/-- What a path denotes once all links are followed. -/
def denoted? (t : FileTree) (here : Nat) (path : Bytes) : Option Spot :=
  (t.locate here .denoted path).toOption

end ClientStore.FileTree
