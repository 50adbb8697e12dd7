import ClientStore.Layout
import ClientStore.ResourceTable
import ClientStore.Session.Cursor
import ClientStore.Session.Writer

/-!
# Stored sessions

Every profile is a file of settings in the sessions directory. A profile that does not exist is no
failure: reading it gives no record, and a key that the record does not have is looked up in the
resource table.

A record is a copy. It does not change with the file, and it is empty once it is closed.

## Main definitions

* `SessionStore.openForWrite`, `SessionStore.save`.
* `SessionStore.openForRead`, `SessionStore.readText`, `SessionStore.readInteger`,
  `SessionStore.readFont`, `SessionStore.readPath`.
* `SessionStore.delete`, `SessionStore.list`.
-/

namespace ClientStore

/-- Reports a refusal as the failure of a purpose. -/
def StoreM.forPurpose {α : Type} (x : StoreM α) (purpose : Purpose) (path : FilePath) : StoreM α :=
  x.onRefusal fun r => throw (.store purpose path r)

/-- The settings of a profile as they were when it was opened. There is no record of a profile that
does not exist. -/
abbrev SessionRecord := Option Settings

/-- The record after it was closed. -/
def SessionRecord.close (record : SessionRecord) : SessionRecord := record.map fun _ => .empty

/-- The profiles under a root, with the resources that stand in for missing settings. -/
structure SessionStore where
  layout : Layout
  resources : ResourceTable

namespace SessionStore

/-- Begins to write a profile. What it held before is gone. -/
def openForWrite (s : SessionStore) (name : ProfileName) : StoreM SessionWriter := do
  let path ← s.layout.session name
  let handle ← StoreM.forPurpose
    (do s.layout.ensureSessions; Disk.openEmptied path Disk.sharedFileMode) .createSession path
  StoreM.log .debug
    ("Writing session " ++ name.quoted ++ (" to " : Text) ++ path.toText)
  return .new path handle

/-- Writes a whole profile. If a setting fails, the ones before it have been written. -/
def save (s : SessionStore) (name : ProfileName) (entries : List (Text × SettingValue)) :
    StoreM Unit := do
  let w ← s.openForWrite name
  w.writeAll entries

/-- What is known about a profile whose file cannot be read. -/
def unreadable (name : ProfileName) (path : FilePath) (r : Refusal) : StoreM SessionRecord := do
  if r.fault = .notFound then
    StoreM.log .debug ("No stored session " ++ name.quoted ++ (" at " : Text) ++ path.toText)
  else
    StoreM.log .warning
      ("Cannot read session file " ++ path.toText ++ (": " : Text) ++ r.message)
  return none

/-- The record of a profile. -/
def openForRead (s : SessionStore) (name : ProfileName) : StoreM SessionRecord := do
  let path ← s.layout.session name
  StoreM.onRefusal
    (do return some (Settings.ofText (Utf8.decode (← Disk.read path)))) (unreadable name path)

/-- The value of a key that no record has. -/
def fallback (s : SessionStore) (key : Text) : StoreM (Option Text) :=
  match s.resources.source key with
  | .explicit value => return some value
  | .asked answer => do
    StoreM.tell (.asked key)
    return answer
  | .nowhere => return none

/-- The value of a key in a record, or else in the resources. -/
def readText (s : SessionStore) (record : SessionRecord) (key : Text) : StoreM (Option Text) :=
  match record.bind (·.get? key) with
  | some value => return some value
  | none => s.fallback key

/-- The number at the beginning of the value of a key. -/
def readInteger (s : SessionStore) (record : SessionRecord) (key : Text) (default : Int) :
    StoreM Int := do
  match ← s.readText record key with
  | none => return default
  | some value => Decimal.leading value

/-- The font that the value of a key names. -/
def readFont (s : SessionStore) (record : SessionRecord) (key : Text) :
    StoreM (Option SettingValue) := do
  return (← s.readText record key).map .font

/-- The path that the value of a key is. -/
def readPath (s : SessionStore) (record : SessionRecord) (key : Text) :
    StoreM (Option SettingValue) := do
  return (← s.readText record key).map .file

/-- Whether a refusal to delete means that there was no file to delete. The names that denote
directories have none. -/
def meansNoFile (r : Refusal) : Bool := r.fault = .notFound || r.fault = .isDirectory

/-- Deletes a profile. -/
def delete (s : SessionStore) (name : ProfileName) : StoreM Unit := do
  let path ← s.layout.session name
  StoreM.onRefusal
    (do
      Disk.remove path
      StoreM.log .debug
        ("Deleted session " ++ name.quoted ++ (" (" : Text) ++ path.toText ++ (")" : Text)))
    fun r => if meansNoFile r then return else throw (.store .deleteSession path r)

/-- A cursor through the profiles. -/
def cursor (s : SessionStore) : StoreM Cursor := Cursor.start s.layout.sessions.toText

/-- The names of all profiles. -/
def list (s : SessionStore) : StoreM (List Text) := do
  let c ← s.cursor
  let (names, _) ← c.rest
  return names

end SessionStore

end ClientStore
