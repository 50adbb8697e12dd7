import ClientStore.FileTree.Operations

/-!
# The world of the stores

The stores act on a file tree and tell what they do: they log messages, they ask a source of
defaults, and commands write lines for people. All of this goes into one journal, in order, so that
what an operation did is a value like any other.

An operation may end early with a `Failure`. What it has done to the world until then stays done.

## Main definitions

* `Severity`, `Event`, `World`.
* `StoreM` — operations on a world.
* `StoreM.onRefusal`, `StoreM.attempt` — what to do about a failure.
-/

namespace ClientStore

/-- How much a log message matters. -/
inductive Severity where
  | notset
  | debug
  | info
  | warning
  | error
  | critical
  deriving DecidableEq, Repr

/-- The number of a severity, by which messages are let through. -/
def Severity.rank : Severity → Int
  | notset => 0
  | debug => 10
  | info => 20
  | warning => 30
  | error => 40
  | critical => 50

/-- The word for a severity at the front of a message. -/
def Severity.label : Severity → Text
  | notset => "NOTSET"
  | debug => "DEBUG"
  | info => "INFO"
  | warning => "WARNING"
  | error => "ERROR"
  | critical => "CRITICAL"

/-- What an operation tells. -/
inductive Event where
  /-- A message was logged. -/
  | logged (severity : Severity) (message : Text)
  /-- The source of defaults was asked for a key. -/
  | asked (key : Text)
  /-- A line was written to standard output. -/
  | printed (line : Text)
  /-- A line was written to standard error. -/
  | complained (line : Text)
  deriving DecidableEq

/-- Everything that the stores act on. -/
structure World where
  tree : FileTree
  /-- The number of the working directory. -/
  here : Nat
  journal : List Event

/-- An operation on a world that may fail. -/
abbrev StoreM := EStateM Failure World

namespace StoreM

/-- The result of a computation that does not look at the world. -/
def ofExcept {α : Type} : Except Failure α → StoreM α
  | .ok a => pure a
  | .error f => throw f

instance : MonadLift (Except Failure) StoreM := ⟨ofExcept⟩

/-- Adds an event to the journal. -/
def tell (e : Event) : StoreM Unit := modify fun w => { w with journal := w.journal ++ [e] }

/-- Logs a message. -/
def log (severity : Severity) (message : Text) : StoreM Unit := tell (.logged severity message)

/-- Does `x`, and `handler` if the file tree refused it. Other failures go through. -/
def onRefusal {α : Type} (x : StoreM α) (handler : Refusal → StoreM α) : StoreM α := fun w =>
  match x w with
  | .error (.refused r) w' => handler r w'
  | result => result

/-- Does `x` and gives its failure as a value. -/
def attempt {α : Type} (x : StoreM α) : StoreM (Except Failure α) := fun w =>
  match x w with
  | .ok a w' => .ok (.ok a) w'
  | .error f w' => .ok (.error f) w'

end StoreM

end ClientStore
