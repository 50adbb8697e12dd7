import ClientStore.Decimal

/-!
# Host keys on a line

A known host key is a line `type@port:hostname keydata` of the trust file. The type, the port and
the name of the host are the identity of the key. Nothing is escaped, and a line is taken apart at
the first `@`, the first `:` after it and the first space after that.

## Main definitions

* `HostKey`, `HostKey.Identity`.
* `HostKey.ofLine` — the key on a line.
* `HostKey.line` — the line of a key.
* `HostKey.verdict` — what the lines of a trust file say about a key.
-/

namespace ClientStore

/-- The key of a host, as it is recorded. -/
structure HostKey where
  keytype : Text
  port : Int
  hostname : Text
  keydata : Text
  deriving DecidableEq

namespace HostKey

/-- The line feeds at the end of a line. -/
def isLineFeed (c : CodePoint) : Bool := c = '\n'

/-- A written identity. -/
def identityText (keytype port hostname : Text) : Text :=
  keytype ++ .ofChar '@' :: port ++ .ofChar ':' :: hostname

/-- The identity of a key as it is written. -/
def identity (k : HostKey) : Except Failure Text :=
  (Decimal.render k.port).map fun port => identityText k.keytype port k.hostname

/-- The line of a key. -/
def line (k : HostKey) : Except Failure Text :=
  k.identity.map fun identity => identity ++ .ofChar ' ' :: k.keydata ++ [.ofChar '\n']

/-- The four fields of a line, if it has all three separators. -/
def fields? (s : Text) : Option (Text × Text × Text × Text) := do
  let (keytype, rest) ← s.cut? '@'
  let (port, rest) ← rest.cut? ':'
  let (hostname, keydata) ← rest.cut? ' '
  return (keytype, port, hostname, keydata)

/-- The key on a line, if the line is well formed: the type and the name of the host are not empty,
and the port consists of ASCII digits. A port with too many digits is a failure. -/
def ofLine (t : Text) : Except Failure (Option HostKey) :=
  match fields? (t.trimEnd isLineFeed) with
  | none => .ok none
  | some (keytype, port, hostname, keydata) =>
    if keytype.isEmpty || hostname.isEmpty || port.isEmpty || !port.all CodePoint.isAsciiDigit then
      .ok none
    else (Decimal.natural port).map fun n => some ⟨keytype, n, hostname, keydata⟩

/-- The answers about a key. -/
inductive Verdict where
  /-- No line is about this identity. -/
  | absent
  /-- The first line about this identity has the same key. -/
  | same
  /-- The first line about this identity has another key. -/
  | different
  deriving DecidableEq, Repr

/-- The word for a verdict. -/
def Verdict.word : Verdict → Text
  | absent => "absent"
  | same => "match"
  | different => "mismatch"

/-- What the first of some lines that starts with `start` says about the rest of the line. -/
def firstVerdict (start : Text) (agrees : Text → Bool) : List Text → Verdict
  | [] => .absent
  | t :: rest =>
    match Text.dropPrefix? start (t.trimEnd isLineFeed) with
    | none => firstVerdict start agrees rest
    | some keydata => if agrees keydata then .same else .different

/-- What the lines of a trust file say about a key. -/
def verdict (lines : List Text) (k : HostKey) : Except Failure Verdict :=
  k.identity.map fun identity => firstVerdict (identity ++ [.ofChar ' ']) (· = k.keydata) lines

end HostKey

end ClientStore
