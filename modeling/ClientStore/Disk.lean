import ClientStore.Text.Utf8
import ClientStore.World

/-!
# Files by path

The operations on the file tree of the world, by path. A path goes to the file tree as bytes; one
without bytes, or with a null character, fails before the tree is asked.

## Main definitions

* `Text.systemBytes`, `FilePath.bytes` — what the file tree is asked about.
* `Disk.read`, `Disk.openEmptied`, `Disk.openKept`, `Disk.remove`, `Disk.makeDirectory`.
* `Disk.ensureDirectory` — a directory and the directories above it.
-/

namespace ClientStore

/-- The bytes of a text outside the program, where a null character would end it. -/
def Text.systemBytes (t : Text) : Except Failure Bytes :=
  match Utf8.encode? t with
  | none => .error .unencodable
  | some bytes => if bytes.contains 0 then .error .nullInPath else .ok bytes

/-- The bytes of a path that the file tree can be asked about. -/
def FilePath.bytes (p : FilePath) : Except Failure Bytes := p.toText.systemBytes

namespace Disk

/-- The mode of a directory that others may look into. -/
def sharedDirectoryMode : Nat := 0o755

/-- The mode of a directory for its owner alone. -/
def privateDirectoryMode : Nat := 0o700

/-- The mode of a file that others may read. -/
def sharedFileMode : Nat := 0o644

/-- The mode of a file for its owner alone. -/
def privateFileMode : Nat := 0o600

/-- Asks the file tree about a path. -/
def ask {α : Type} (path : FilePath) (f : FileTree → Nat → Bytes → Except Fault α) :
    StoreM α := do
  let bytes ← path.bytes
  let w ← get
  match f w.tree w.here bytes with
  | .ok a => return a
  | .error fault => throw (.refused ⟨fault, path⟩)

/-- Changes the file tree at a path. -/
def change {α : Type} (path : FilePath)
    (f : FileTree → Nat → Bytes → Except Fault (α × FileTree)) : StoreM α := do
  let (a, tree) ← ask path f
  modify fun w => { w with tree }
  return a

/-- The content of a file. -/
def read (path : FilePath) : StoreM Bytes := ask path FileTree.read

/-- The file at a path, emptied, or a new one. -/
def openEmptied (path : FilePath) (mode : Nat) : StoreM Handle :=
  change path (FileTree.openEmptied · · · mode)

/-- The file at a path as it is, or a new one. -/
def openKept (path : FilePath) (mode : Nat) : StoreM Handle :=
  change path (FileTree.openKept · · · mode)

/-- Takes away a file or a link. -/
def remove (path : FilePath) : StoreM Unit :=
  change path fun t here bytes => (t.remove here bytes).map ((), ·)

/-- Makes a directory whose parent is there. -/
def makeDirectory (path : FilePath) (mode : Nat) : StoreM Unit :=
  change path fun t here bytes => (t.makeDirectory here bytes mode).map ((), ·)

/-- Whether a path denotes a directory. One that leads nowhere does not; of one that cannot be
followed it is not known. -/
def isDirectory (path : FilePath) : StoreM Bool := do
  let bytes ← path.bytes
  let w ← get
  match w.tree.locate w.here .denoted bytes with
  | .ok spot => return spot.isDirectory
  | .error fault => if fault.leadsNowhere then return false else throw (.refused ⟨fault, path⟩)

/-- Writes into an open file. -/
def write (h : Handle) (offset : Nat) (data : Bytes) : StoreM Unit :=
  modify fun w => { w with tree := w.tree.write h offset data }

/-- Writes to the end of an open file. -/
def append (h : Handle) (data : Bytes) : StoreM Unit :=
  modify fun w => { w with tree := w.tree.append h data }

/-- A refusal to make a directory does not matter where there is one. -/
def unlessDirectory (path : FilePath) (r : Refusal) : StoreM Unit := do
  if ← isDirectory path then return else throw (.refused r)

/-- The number of directories that can be made together, each in the one before. -/
def maxDepth : Nat := 986

/-- Makes the directory with the given names, innermost first, unless it is there. Missing
directories above it are made first, open to others; nothing is made if there are more of them than
`depth` allows. -/
def ensureNames (anchor : Anchor) :
    (depth : Nat) → (names : List Component) → (mode : Nat) → StoreM Unit
  | 0, _, _ => throw .tooDeep
  | _ + 1, [], mode =>
    let path : FilePath := ⟨anchor, []⟩
    (makeDirectory path mode).onRefusal (unlessDirectory path)
  | depth + 1, name :: above, mode =>
    let path : FilePath := ⟨anchor, (name :: above).reverse⟩
    (makeDirectory path mode).onRefusal fun r =>
      if r.fault = .notFound then do
        ensureNames anchor depth above sharedDirectoryMode
        (makeDirectory path mode).onRefusal (unlessDirectory path)
      else unlessDirectory path r

/-- Makes a directory and the missing directories above it, unless it is there. -/
def ensureDirectory (path : FilePath) (mode : Nat) : StoreM Unit :=
  ensureNames path.anchor maxDepth path.components.reverse mode

end Disk

end ClientStore
