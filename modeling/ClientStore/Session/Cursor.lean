import ClientStore.Disk
import ClientStore.ProfileName

/-!
# Listing profiles

A cursor goes through the names in a directory and gives the profiles that the regular files show
as. A link counts if it leads to a regular file. A directory that cannot be opened gives a cursor at
whose end one is at once.

The entries of the directory are fetched together when the first name is asked for. The kind of an
entry is known from then on; only where a link leads is found out when its turn comes.

## Main definitions

* `Cursor`, `Cursor.start`, `Cursor.next`, `Cursor.finish`.
* `Cursor.rest` — all the names that are left.
-/

namespace ClientStore

/-- A position in a listing. -/
inductive Cursor where
  /-- The directory is open and nothing has been fetched. -/
  | opened (path : Bytes) (number : Nat)
  /-- These entries are left. -/
  | fetched (path : Bytes) (entries : List (Bytes × Node))
  /-- There is nothing to list, or the listing was given up. -/
  | finished

namespace Cursor

/-- A cursor before the first name in a directory, whose path is taken as it is spelled. -/
def start (directory : Text) : StoreM Cursor := do
  let path ← directory.systemBytes
  let w ← get
  match w.tree.openDirectory w.here path with
  | .ok number => return .opened path number
  | .error _ => return .finished

/-- The path of the entry with a name in the directory at a path. -/
def entryPath (path name : Bytes) : Bytes :=
  if path.getLast? = some 0x2F then path ++ name else path ++ 0x2F :: name

/-- Whether an entry is a regular file once its link, if it is one, is followed. -/
def isRegular (w : World) (path : Bytes) (entry : Bytes × Node) : Bool :=
  match entry.2 with
  | .file .. => true
  | .directory _ => false
  | .link _ => (w.tree.denoted? w.here (entryPath path entry.1)).any FileTree.Spot.isFile

/-- The name of the profile that an entry shows as. -/
def nameOf (entry : Bytes × Node) : Except Failure Text :=
  match ProfileName.listed? (Utf8.decode entry.1) with
  | some name => .ok name
  | none => .error .unencodable

/-- The first name among some entries, and the entries after it. -/
def advance (w : World) (path : Bytes) :
    List (Bytes × Node) → Except Failure (Option Text × List (Bytes × Node))
  | [] => .ok (none, [])
  | entry :: rest =>
    if isRegular w path entry then (nameOf entry).map fun name => (some name, rest)
    else advance w path rest

/-- The next name, if there is one, and the cursor behind it. -/
def next : Cursor → StoreM (Option Text × Cursor)
  | .finished => return (none, .finished)
  | .opened path number => do
    let w ← get
    let (name, rest) ← (advance w path (w.tree.names number) : Except Failure _)
    return (name, .fetched path rest)
  | .fetched path entries => do
    let w ← get
    let (name, rest) ← (advance w path entries : Except Failure _)
    return (name, .fetched path rest)

/-- All the names among some entries. -/
def namesOf (w : World) (path : Bytes) (entries : List (Bytes × Node)) :
    Except Failure (List Text) :=
  (entries.filter (isRegular w path)).mapM nameOf

/-- The names that are left, and the cursor at their end. -/
def rest : Cursor → StoreM (List Text × Cursor)
  | .finished => return ([], .finished)
  | .opened path number => do
    let w ← get
    return (← namesOf w path (w.tree.names number), .fetched path [])
  | .fetched path entries => do
    let w ← get
    return (← namesOf w path entries, .fetched path [])

/-- Gives the listing up. -/
def finish : Cursor → Cursor := fun _ => .finished

end Cursor

end ClientStore
