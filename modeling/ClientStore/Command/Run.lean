import ClientStore.Command.Arguments
import ClientStore.HostKey.Store
import ClientStore.Logging
import ClientStore.Seed
import ClientStore.Session.Store
import ClientStore.Text.Sanitize

/-!
# Running a command

A command acts on the stores under one root and tells the user about it: items on standard output,
one a line, and complaints and log messages on standard error. Names, keys and values on standard
output are made safe for a terminal. Standard output takes no surrogates; standard error spells
them out.

## Main definitions

* `Command.run` — what a command does.
* `Report`, `Invocation.execute`, `execute` — what a run of the program amounts to.
-/

namespace ClientStore

/-! ## What commands print -/

/-- Writes a line to standard output. -/
def StoreM.print (line : Text) : StoreM Unit :=
  if line.hasSurrogate then throw .unencodable else StoreM.tell (.printed line)

/-- What stands in the place of an argument that is needed. -/
def NeededArgument.take {α : Type} (a : NeededArgument) : Option α → Except Failure α
  | some x => .ok x
  | none => .error (.emptyArgument a)

namespace HostKeyArguments

/-- The text for a place that a separator left empty. -/
def emptyPlace : Text := "[]"

/-- The key that the arguments name. Without a port there is none. -/
def hostKey (a : HostKeyArguments) : Except Failure HostKey :=
  (NeededArgument.port.take a.port).map fun port =>
    ⟨a.keytype.getD emptyPlace, port, a.hostname.getD emptyPlace, a.keydata.getD emptyPlace⟩

/-- The written identity of the key. -/
def identity (a : HostKeyArguments) : Except Failure Text := a.hostKey.bind HostKey.identity

end HostKeyArguments

/-- The exit status for a verdict. -/
def HostKey.Verdict.status : HostKey.Verdict → Nat
  | same => 0
  | absent => 1
  | different => 2

namespace Command

/-- The key and the value in an argument, if there is a key. -/
def pair? (arg : Text) : Option (Text × Text) :=
  (arg.cut? '=').filter (!·.1.isEmpty)

/-- What is said about a profile that does not exist. -/
def noSession (name : Text) : Text := "No such session: " ++ name.sanitized

/-- What is said about an argument that is no pair. -/
def noPair (arg : Text) : Text := "Expected KEY=VALUE, got " ++ arg.quoted

/-- The line of a setting. -/
def settingLine (key value : Text) : Text := key.sanitized ++ .ofChar '=' :: value.sanitized

/-- Prints the settings of a profile that have a value. -/
def printSettings (s : SessionStore) (record : SessionRecord) (keys : List (Option Text)) :
    StoreM Unit :=
  keys.forM fun place => do
    let key ← NeededArgument.setting.take place
    match ← s.readText record key with
    | some value => StoreM.print (settingLine key value)
    | none => return

/-- Prints the keys on some lines of the trust file. -/
def printHostKeys (lines : List Text) : StoreM Unit :=
  lines.forM fun line => do
    match ← HostKey.ofLine line with
    | some key => StoreM.print ((← key.identity).sanitized ++ .ofChar ' ' :: key.keydata.sanitized)
    | none => return

/-! ## What commands do -/

/-- Does what is asked for, and gives the exit status. -/
def run (s : SessionStore) : Command → StoreM Nat
  | list => do
    (← s.list).forM fun name => StoreM.print name.sanitized
    return 0
  | «show» name keys => do
    let record ← s.openForRead (.text name)
    if record.isNone && keys.isEmpty then
      StoreM.tell (.complained (noSession name))
      return 1
    else
      let known := Text.sort ((record.getD .empty).keys)
      printSettings s record (if keys.isEmpty then known.map some else keys)
      return 0
  | set name pairs => do
    match pairs.find? (fun arg => (pair? arg).isNone) with
    | some arg =>
      StoreM.tell (.complained (noPair arg))
      return 2
    | none =>
      s.save (.text name) ((pairs.filterMap pair?).map fun e => (e.1, .text e.2))
      return 0
  | delete name => do
    s.delete (.text name)
    return 0
  | checkHostKey a => do
    let verdict ← TrustFile.check s.layout a.identity fun keydata => some keydata = a.keydata
    StoreM.print verdict.word
    return verdict.status
  | addHostKey a => do
    TrustFile.record s.layout (← a.hostKey)
    return 0
  | listHostKeys => do
    printHostKeys ((← TrustFile.lines? s.layout).getD [])
    return 0
  | seedSize => do
    let chunks ← Seed.read s.layout Seed.chunkSize
    StoreM.print (Decimal.digits chunks.flatten.length)
    return 0

end Command

/-- Logs what is wrong with some resource strings. -/
def Resource.complain (rejected : List Text) : StoreM Unit :=
  rejected.forM fun s => StoreM.log .warning (Resource.complaint s)

namespace Invocation

/-- The threshold for log messages. -/
def threshold (i : Invocation) : Int :=
  if i.verbosity = 0 then Severity.warning.rank
  else if i.verbosity = 1 then Severity.info.rank
  else Severity.debug.rank

/-- The front of a complaint about a store. -/
def complaintFront : Text := "termstore: "

/-- The layout that is asked for. -/
def layout (env : Environment) (i : Invocation) : Except Failure Layout :=
  (i.root.mapM NeededArgument.root.take).bind (Layout.ofRoot env)

/-- The table of the resource strings. The strings before the first empty place are looked at even
if there is one. -/
def resourceTable (i : Invocation) : StoreM ResourceTable := do
  let (table, rejected) :=
    ResourceTable.ofStrings ((i.resources.takeWhile Option.isSome).filterMap id) none
  Resource.complain rejected
  if i.resources.all Option.isSome then return table else throw (.emptyArgument .resource)

/-- Does what is asked for, and gives the exit status. A file that was needed and refused is a
complaint; every other failure goes through. -/
def run (env : Environment) (i : Invocation) : StoreM Nat := do
  let store : SessionStore := ⟨← i.layout env, ← i.resourceTable⟩
  match ← (i.command.run store).attempt with
  | .ok status => return status
  | .error (.store purpose path r) =>
    StoreM.tell (.complained (complaintFront ++ (Failure.store purpose path r).message))
    return 1
  | .error failure => throw failure

end Invocation

/-! ## Runs of the program -/

/-- How a run of the program ends. -/
inductive Ending where
  | exit (status : Nat)
  /-- Help was asked for, or the arguments were refused. What is said then is not modelled. -/
  | usage (interruption : Interruption)
  | failed (failure : Failure)

/-- The exit status after an interruption. -/
def Interruption.status : Interruption → Nat
  | help => 0
  | refused => 2

/-- What a run of the program amounts to. -/
structure Report where
  ending : Ending
  /-- The lines on standard output. -/
  output : List Text
  /-- The lines on standard error. -/
  complaints : List Text

/-- A code point on standard error: a surrogate is spelled out. -/
def spellSurrogate (c : CodePoint) : Text :=
  if c.isSurrogate then '\\' :: 'u' :: Hex.padded 4 c.val else [c]

/-- Lines with a line feed after each. -/
def joinLines (lines : List Text) : Text := lines.flatMap (· ++ [.ofChar '\n'])

/-- All of standard output. -/
def Report.stdout (r : Report) : Text := joinLines r.output

/-- All of standard error. -/
def Report.stderr (r : Report) : Text := joinLines r.complaints

/-- The line on standard output that an event is. -/
def Event.output? : Event → Option Text
  | printed line => some line
  | _ => none

/-- The line on standard error that an event is, if messages below a threshold are not shown. -/
def Event.complaint? (threshold : Int) : Event → Option Text
  | complained line => some (line.flatMap spellSurrogate)
  | logged severity message =>
    if Logging.passes threshold severity then
      some ((Logging.line severity message).flatMap spellSurrogate)
    else none
  | _ => none

/-- The report on an operation that told `events`. -/
def Report.ofEvents (threshold : Int) (ending : Ending) (events : List Event) : Report :=
  ⟨ending, events.filterMap Event.output?, events.filterMap (Event.complaint? threshold)⟩

/-- Runs an invocation in a world. -/
def Invocation.execute (env : Environment) (i : Invocation) (w : World) : Report × World :=
  match i.run env { w with journal := [] } with
  | .ok status w' =>
    (.ofEvents i.threshold (.exit status) w'.journal,
      { w' with journal := w.journal ++ w'.journal })
  | .error failure w' =>
    (.ofEvents i.threshold (.failed failure) w'.journal,
      { w' with journal := w.journal ++ w'.journal })

/-- Runs the program with some arguments in a world. -/
def execute (env : Environment) (args : List Text) (w : World) : Report × World :=
  match Invocation.parse args with
  | .ok i => i.execute env w
  | .error interruption => (⟨.usage interruption, [], []⟩, w)

end ClientStore
