import ClientStore.Disk
import ClientStore.ProfileName
import ClientStore.Text.Blank

/-!
# Layout of the storage

Everything is kept under one root: the session files in a directory of their own, the trust file
and the random seed. The root is the one that the user names, or else the one that the environment
names, or else a hidden directory in the home directory.

## Main definitions

* `Environment` — what the layout depends on.
* `FilePath.expandHome` — a path with `~` replaced.
* `Layout`, `Layout.ofRoot` — the places of all files.
* `Layout.ensureRoot`, `Layout.ensureSessions` — the directories.
-/

namespace ClientStore

/-! ## The environment -/

/-- The variables that decide where the storage is. -/
structure Environment where
  /-- The home directory. -/
  home : Text
  /-- The storage root, if the environment names one. -/
  storageRoot : Option Text

namespace Environment

/-- The value that a variable has once it is set to a text. The environment holds bytes, none of
them null. -/
def valueOf (t : Text) : Except Failure Text := t.systemBytes.map Utf8.decode

/-- The environment with the variables set to some texts. -/
def ofTexts (home : Text) (storageRoot : Option Text) : Except Failure Environment := do
  let home ← valueOf home
  match storageRoot with
  | none => return ⟨home, none⟩
  | some root => return ⟨home, some (← valueOf root)⟩

end Environment

namespace FilePath

/-- The path of the home directory. A home directory whose own name begins with a tilde is as good
as none. -/
def home (env : Environment) : Except Failure FilePath :=
  match env.home.trimEnd (· = '/') with
  | [] => .ok ⟨.root, []⟩
  | c :: rest => if c = '~' then .error .unknownHome else .ok (ofText (c :: rest))

/-- The path with a tilde at its front replaced by the home directory. Of the users whose home
directory may be asked for after the tilde, none is known. -/
def expandHome (p : FilePath) (env : Environment) : Except Failure FilePath :=
  match p.anchor, p.components with
  | .here, c :: rest =>
    match Text.dropPrefix? ['~'] c.text with
    | none => .ok p
    | some [] => (home env).map fun h => { h with components := h.components ++ rest }
    | some user => (Text.systemBytes user).bind fun _ => .error .unknownHome
  | _, _ => .ok p

end FilePath

/-! ## The layout -/

/-- The places of everything that is stored. -/
structure Layout where
  root : FilePath
  deriving DecidableEq

namespace Layout

/-- The root that the environment asks for. -/
def defaultRoot (env : Environment) : Except Failure FilePath :=
  match (env.storageRoot.getD []).trim CodePoint.isBlank with
  | [] => (FilePath.home env).map (·.child ".termstore")
  | root => (FilePath.ofText root).expandHome env

/-- The layout under the root that the user names, or else under the default root. -/
def ofRoot (env : Environment) (root : Option Text) : Except Failure Layout :=
  match root with
  | none => (defaultRoot env).map (⟨·⟩)
  | some root => ((FilePath.ofText root).expandHome env).map (⟨·⟩)

/-- The directory of the session files. -/
def sessions (l : Layout) : FilePath := l.root.child "sessions"

/-- The trust file. -/
def hostKeys (l : Layout) : FilePath := l.root.child "sshhostkeys"

/-- The file of the random seed. -/
def seed (l : Layout) : FilePath := l.root.child "randomseed"

/-- The file of a profile. -/
def session (l : Layout) (name : ProfileName) : Except Failure FilePath :=
  match name.stored? with
  | none => .error .unencodable
  | some stored => .ok (l.sessions.child stored)

/-- Makes the root, for its owner alone. -/
def ensureRoot (l : Layout) : StoreM Unit := Disk.ensureDirectory l.root Disk.privateDirectoryMode

/-- Makes the root and the directory of the session files. -/
def ensureSessions (l : Layout) : StoreM Unit := do
  l.ensureRoot
  Disk.ensureDirectory l.sessions Disk.privateDirectoryMode

end Layout

end ClientStore
