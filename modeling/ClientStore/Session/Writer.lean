import ClientStore.Decimal
import ClientStore.Disk
import ClientStore.Session.Buffer
import ClientStore.Settings

/-!
# Writing a session

A session is written once, from top to bottom, one line for every setting. A setting that cannot be
written fails and leaves nothing of itself in the file.

## Main definitions

* `SettingValue` — the kinds of values that a setting can have.
* `SessionWriter`, `SessionWriter.writeText`, `SessionWriter.write`, `SessionWriter.close`.
* `SessionWriter.writeAll` — a whole session.
-/

namespace ClientStore

/-- The value of a setting. -/
inductive SettingValue where
  | text (t : Text)
  | integer (i : Int)
  /-- The name of a font. -/
  | font (name : Text)
  /-- The name of a file. -/
  | file (path : Text)

/-- The form in which a value is kept. -/
def SettingValue.render : SettingValue → Except Failure Text
  | text t => .ok t
  | integer i => Decimal.render i
  | font name => .ok name
  | file path => .ok path

/-- A session file that is being written. -/
structure SessionWriter where
  path : FilePath
  handle : Handle
  /-- How much of the session is in the file. -/
  sent : Nat
  buffer : LineBuffer
  closed : Bool

namespace SessionWriter

/-- The writer of a file that was just opened. -/
def new (path : FilePath) (handle : Handle) : SessionWriter := ⟨path, handle, 0, .empty, false⟩

/-- Sends bytes to the file. -/
def send (w : SessionWriter) (bytes : Bytes) : StoreM SessionWriter := do
  Disk.write w.handle w.sent bytes
  return { w with sent := w.sent + bytes.length }

/-- Writes the line of a setting whose value is a text. -/
def writeText (w : SessionWriter) (key value : Text) : StoreM SessionWriter :=
  if w.closed then throw (.writerClosed w.path)
  else
    match Utf8.encode? (Settings.formatLine key value) with
    | none => throw .unencodable
    | some line =>
      let (out, buffer) := w.buffer.push line
      { w with buffer }.send out

/-- Writes the line of a setting. -/
def write (w : SessionWriter) (key : Text) (value : SettingValue) : StoreM SessionWriter := do
  let text ← value.render
  w.writeText key text

/-- Sends what is held back. Closing a closed writer does nothing. -/
def close (w : SessionWriter) : StoreM SessionWriter :=
  if w.closed then return w
  else { w with buffer := .empty, closed := true }.send w.buffer.held

/-- Writes some settings and closes the writer, also if one of the settings fails. -/
def writeAll (w : SessionWriter) : List (Text × SettingValue) → StoreM Unit
  | [] => do
    let _ ← w.close
  | (key, value) :: rest => do
    match ← (w.write key value).attempt with
    | .ok w => w.writeAll rest
    | .error failure =>
      let _ ← w.close
      throw failure

end SessionWriter

end ClientStore
