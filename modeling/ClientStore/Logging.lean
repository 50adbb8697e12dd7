import ClientStore.Layout

/-!
# Logging

Log messages go to the console and, if a file is named, to that file as well. A threshold decides
which of them do. Somebody who has arranged for logging already is left alone.

## Main definitions

* `LevelRequest` — a threshold as it is asked for.
* `Logging`, `Logging.configure`, `Logging.emit`.
* `Logging.line` — the written form of a message.
-/

namespace ClientStore

/-- The severity that a name in capitals stands for. Two of them have a second name. -/
def Severity.named : List (Text × Severity) :=
  [("CRITICAL", .critical), ("FATAL", .critical), ("ERROR", .error), ("WARNING", .warning),
    ("WARN", .warning), ("INFO", .info), ("DEBUG", .debug), ("NOTSET", .notset)]

/-- The severity of a name in capitals. -/
def Severity.ofName? (name : Text) : Option Severity := Severity.named.lookup name

/-- A threshold as it is asked for. -/
inductive LevelRequest where
  | name (t : Text)
  | number (n : Int)

/-- Where messages go. -/
inductive LogTarget where
  /-- Somebody else's, which was there before. -/
  | foreign
  | console
  | file (h : Handle)
  deriving DecidableEq, Repr

/-- How messages are logged. -/
structure Logging where
  threshold : Int
  targets : List LogTarget

namespace Logging

/-- The threshold where nobody has asked for one. -/
def defaultThreshold : Int := Severity.warning.rank

/-- The capital letters of a character. Only the characters that become capital letters of ASCII
matter for the names of levels. -/
def capitals (c : CodePoint) : Text :=
  let n := c.val
  if 0x61 ≤ n ∧ n ≤ 0x7A then [.ofNat (n - 0x20)]
  else if n = 0xDF then "SS"
  else if n = 0x131 then "I"
  else if n = 0x17F then "S"
  else if n = 0xFB00 then "FF"
  else if n = 0xFB01 then "FI"
  else if n = 0xFB02 then "FL"
  else if n = 0xFB03 then "FFI"
  else if n = 0xFB04 then "FFL"
  else if n = 0xFB05 ∨ n = 0xFB06 then "ST"
  else [c]

/-- The threshold that is asked for. A name is taken in capitals; one that stands for nothing gives
the default, and two stand for something that is no level. -/
def threshold? : LevelRequest → Except Failure Int
  | .number n => .ok n
  | .name t =>
    let name := t.flatMap capitals
    match Severity.ofName? name with
    | some severity => .ok severity.rank
    | none =>
      if name = Text.ofString "BASIC_FORMAT" then .error .unknownLevel
      else if name = Text.ofString "_STYLES" then .error .unusableLevel
      else .ok defaultThreshold

/-- Whether a message is let through. A message without severity never is. -/
def passes (threshold : Int) (severity : Severity) : Bool :=
  severity ≠ .notset && threshold ≤ severity.rank

/-- A message as it is written. -/
def line (severity : Severity) (message : Text) : Text :=
  .ofChar '[' :: severity.label ++ ("] " : Text) ++ message

/-- Arranges for logging, unless somebody `existing` has. The directory of the file is made along
the path as it is given; the file itself is then opened without any detours. -/
def configure (env : Environment) (existing : Bool) (level : LevelRequest)
    (file : Option FilePath) : StoreM Logging := do
  if existing then return ⟨defaultThreshold, [.foreign]⟩
  let targets ←
    match file with
    | none => pure [.console]
    | some path => do
      let path ← path.expandHome env
      Disk.ensureDirectory path.parent Disk.sharedDirectoryMode
      let handle ← Disk.openKept path.collapse Disk.sharedFileMode
      pure [.console, .file handle]
  return ⟨← threshold? level, targets⟩

/-- Sends a message to one target. A file takes only text that every encoder can write. -/
def send (severity : Severity) (message : Text) : LogTarget → StoreM Unit
  | .foreign => return
  | .console => StoreM.log severity message
  | .file handle => do
    let text := line severity message ++ [.ofChar '\n']
    if text.hasSurrogate then return
    match Utf8.encode? text with
    | some bytes => Disk.append handle bytes
    | none => return

/-- Logs a message. -/
def emit (l : Logging) (severity : Severity) (message : Text) : StoreM Unit :=
  if passes l.threshold severity then l.targets.forM (send severity message) else return

end Logging

end ClientStore
