import ClientStore.HostKey.Entry
import ClientStore.Layout

/-!
# The trust file

The known host keys are the lines of one file, which only grows. A key that is recorded again for
the same identity comes later in the file, and the earlier line goes on deciding.

## Main definitions

* `TrustFile.check`, `TrustFile.verify` — what the file says about a key.
* `TrustFile.record` — a key is added.
* `TrustFile.entries` — the keys in the file.
-/

namespace ClientStore.TrustFile

/-- What is done about a trust file that cannot be read. It counts as missing. -/
def unreadable (path : FilePath) (r : Refusal) : StoreM (Option (List Text)) := do
  if r.fault ≠ .notFound then
    StoreM.log .warning
      ("Cannot read host key file " ++ path.toText ++ (": " : Text) ++ r.message)
  return none

/-- The lines of the trust file, if it can be read. -/
def lines? (l : Layout) : StoreM (Option (List Text)) :=
  StoreM.onRefusal
    (do return some (Utf8.decode (← Disk.read l.hostKeys)).lines) (unreadable l.hostKeys)

/-- The warning about a key that differs from the recorded one. -/
def differs (identity : Text) : Text :=
  "Host key for " ++ identity ++ (" does not match the stored key" : Text)

/-- What the trust file says about an identity, if the recorded keys that are acceptable for it are
the ones that `agrees` tells. -/
def check (l : Layout) (identity : Except Failure Text) (agrees : Text → Bool) :
    StoreM HostKey.Verdict := do
  match ← lines? l with
  | none => return .absent
  | some lines =>
    let identity ← identity
    let verdict := HostKey.firstVerdict (identity ++ [.ofChar ' ']) agrees lines
    if verdict = .different then StoreM.log .warning (differs identity)
    return verdict

/-- What the trust file says about a key. -/
def verify (l : Layout) (k : HostKey) : StoreM HostKey.Verdict := check l k.identity (· = k.keydata)

/-- The trust file, open at its end. On a fresh install the root is made first. -/
def openAtEnd (l : Layout) : StoreM Handle :=
  (Disk.openKept l.hostKeys Disk.privateFileMode).onRefusal fun r =>
    if r.fault = .notFound then do
      l.ensureRoot
      Disk.openKept l.hostKeys Disk.privateFileMode
    else throw (.refused r)

/-- The message about a recorded key. -/
def recorded (k : HostKey) (port : Text) : Text :=
  "Stored " ++ k.keytype ++ (" host key for " : Text) ++ k.hostname ++ .ofChar ':' :: port

/-- Adds a key at the end of the trust file. The file is there before the line is put together, so
a key that cannot be written leaves an empty file on a fresh install. -/
def record (l : Layout) (k : HostKey) : StoreM Unit := do
  let handle ←
    (openAtEnd l).onRefusal fun r => throw (.store .recordHostKey l.hostKeys r)
  let line ← k.line
  match Utf8.encode? line with
  | none => throw .unencodable
  | some bytes =>
    Disk.append handle bytes
    StoreM.log .info (recorded k (← Decimal.render k.port))

/-- The keys in the trust file, in order. Lines that are not well formed are skipped. -/
def entries (l : Layout) : StoreM (List HostKey) := do
  match ← lines? l with
  | none => return []
  | some lines => return (← (lines.mapM HostKey.ofLine : Except Failure _)).filterMap id

end ClientStore.TrustFile
