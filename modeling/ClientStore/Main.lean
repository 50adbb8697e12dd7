import ClientStore.Command.Run

/-!
# The program

Runs a command on the disk. What the command may look at is read into a file tree, the command is
run on that tree, and what it has changed there is written back.
-/

namespace ClientStore.Program

/-- The names along an absolute path. -/
def namesOf (path : String) : List Bytes :=
  (FileTree.namePieces path.toUTF8.toList).filter fun name => !name.isEmpty && name ≠ [0x2E]

/-- One step along a path, from what some names lead to. They are given innermost first. -/
def stepTo (names : List Bytes) (name : Bytes) : List Bytes :=
  if name = [0x2E, 0x2E] then names.tail else name :: names

/-- The absolute path that some names make up, the innermost first. Names that are no text make
none. -/
def pathOf? (names : List Bytes) : Option String :=
  names.reverse.foldlM
    (fun path name => (String.fromUTF8? ⟨name.toArray⟩).map (path ++ "/" ++ ·)) ""

/-- The paths on the way to an absolute path, the outermost first. -/
def pathsAlong (path : String) : List String :=
  (((namesOf path).foldl (fun (names, seen) name => (stepTo names name, stepTo names name :: seen))
    (([] : List Bytes), [])).2.reverse).filterMap pathOf?

/-- Puts what is at an absolute path on the disk into a tree. Modes are not looked at, and a link
counts as what it leads to. -/
def loadNode (tree : FileTree) (path : String) : IO FileTree := do
  let whole := (← IO.currentDir) / path
  let bytes := path.toUTF8.toList
  if ← whole.isDir then
    match tree.makeDirectory FileTree.root bytes Disk.sharedDirectoryMode with
    | .ok made => return made
    | .error _ => return tree
  else if ← whole.pathExists then
    let content ← IO.FS.readBinFile path
    match tree.openEmptied FileTree.root bytes Disk.sharedFileMode with
    | .ok (handle, made) => return made.write handle 0 content.toList
    | .error _ => return tree
  else return tree

/-- Puts everything in a directory on the disk into a tree. -/
def loadDirectory (tree : FileTree) (path : String) : IO FileTree := do
  let whole := (← IO.currentDir) / path
  if ← whole.isDir then
    (← whole.readDir).toList.foldlM
      (fun tree entry => loadNode tree (path ++ "/" ++ entry.fileName)) tree
  else return tree

/-- The tree of everything that the stores under a root can look at. -/
def load (root : String) : IO FileTree := do
  let tree ← (pathsAlong root).foldlM loadNode .empty
  let tree ← ["sshhostkeys", "randomseed", "sessions"].foldlM
    (fun tree name => loadNode tree (root ++ "/" ++ name)) tree
  loadDirectory tree (root ++ "/sessions")

/-- The access that a mode gives. -/
def rights (mode : Nat) : IO.FileRight :=
  let access (n : Nat) : IO.AccessRight := ⟨n / 4 % 2 = 1, n / 2 % 2 = 1, n % 2 = 1⟩
  ⟨access (mode / 64 % 8), access (mode / 8 % 8), access (mode % 8)⟩

/-- Writes one node back to the disk, if it is new or has changed. -/
def saveNode (old new : FileTree) (p : Place) (node : Node) : IO Unit := do
  match pathOf? (new.namesTo p) with
  | none => return
  | some path =>
    match old.node? p, node with
    | none, .directory number =>
      IO.FS.createDir path
      IO.setAccessRights path (rights ((new.mode? number).getD Disk.privateDirectoryMode))
    | none, .file _ mode content =>
      IO.FS.writeBinFile path ⟨content.toArray⟩
      IO.setAccessRights path (rights mode)
    | some (.file _ _ before), .file _ _ content =>
      if before ≠ content then IO.FS.writeBinFile path ⟨content.toArray⟩
    | _, _ => return

/-- Writes the changes between two trees back to the disk, if one has come out of the other. -/
def save (old new : FileTree) : IO Unit := do
  for (p, node) in new.nodes do
    saveNode old new p node
  for (p, _) in old.nodes do
    if (new.node? p).isNone then
      if let some path := pathOf? (old.namesTo p) then
        IO.FS.removeFile path

/-- A text as the console shows it. -/
def shown (t : Text) : String := (t.toString?).getD ""

/-- The exit status of a run, after what has to be said about it. -/
def conclude : Ending → IO UInt32
  | .exit status => return .ofNat status
  | .usage interruption => do
    IO.eprintln "usage: termstore [--root ROOT] [-r RESOURCE] [-v] COMMAND ..."
    return .ofNat interruption.status
  | .failed failure => do
    IO.eprintln (shown failure.message)
    return 1

/-- Runs the program with some arguments. -/
def run (args : List String) : IO UInt32 := do
  let home := (← IO.getEnv "HOME").getD "/"
  let env : Environment := ⟨.ofString home, (← IO.getEnv "TERMSTORE_HOME").map .ofString⟩
  let args := args.map Text.ofString
  let here := (← IO.currentDir).toString
  let layout? := (Invocation.parse args).toOption.bind fun i => (i.layout env).toOption
  let root := match layout? with
    | some layout => shown ((FilePath.ofText (.ofString here)).append layout.root).toText
    | none => here
  let tree ← load root
  let start := (tree.openDirectory FileTree.root here.toUTF8.toList).toOption.getD FileTree.root
  let (report, world) := execute env args ⟨tree, start, []⟩
  save tree world.tree
  report.output.forM fun line => IO.println (shown line)
  report.complaints.forM fun line => IO.eprintln (shown line)
  conclude report.ending

end ClientStore.Program

def main (args : List String) : IO UInt32 := ClientStore.Program.run args
