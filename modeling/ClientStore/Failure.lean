import ClientStore.FilePath
import ClientStore.Text.Quoted

/-!
# Failures

Everything that can go wrong, by its cause. Data that is merely absent is never a failure; the
operations report it in their results. The wording of every failure is in `Failure.message`.

## Main definitions

* `Fault` — the refusals of the file tree.
* `Failure` — what ends an operation early.
* `Failure.message` — the text of a failure.
-/

namespace ClientStore

/-- Why the file tree refuses an operation. -/
inductive Fault where
  | notFound
  | exists
  | notDirectory
  | isDirectory
  | nameTooLong
  | tooManyLinks
  | inputOutput
  deriving DecidableEq, Repr

/-- The number by which a fault is known. -/
def Fault.number : Fault → Text
  | notFound => "2"
  | inputOutput => "5"
  | «exists» => "17"
  | notDirectory => "20"
  | isDirectory => "21"
  | nameTooLong => "36"
  | tooManyLinks => "40"

/-- The words for a fault. -/
def Fault.description : Fault → Text
  | notFound => "No such file or directory"
  | inputOutput => "Input/output error"
  | «exists» => "File exists"
  | notDirectory => "Not a directory"
  | isDirectory => "Is a directory"
  | nameTooLong => "File name too long"
  | tooManyLinks => "Too many levels of symbolic links"

/-- Whether a fault means that a path leads nowhere. -/
def Fault.leadsNowhere : Fault → Bool
  | notFound | notDirectory | tooManyLinks => true
  | _ => false

/-- A fault together with the path it is about, if it is about one. -/
structure Refusal where
  fault : Fault
  path : Option FilePath
  deriving DecidableEq

/-- The text of a refusal. -/
def Refusal.message (r : Refusal) : Text :=
  "[Errno " ++ r.fault.number ++ ("] " : Text) ++ r.fault.description ++
    match r.path with
    | some path => (": " : Text) ++ path.toText.quoted
    | none => []

/-- The operations whose refusals are reported under the name of their file. -/
inductive Purpose where
  | createSession
  | deleteSession
  | recordHostKey
  deriving DecidableEq, Repr

/-- What a purpose could not do. -/
def Purpose.complaint : Purpose → Text
  | createSession => "cannot create session file "
  | deleteSession => "cannot delete session file "
  | recordHostKey => "cannot record host key in "

/-- The arguments that are of no use without a word. -/
inductive NeededArgument where
  | root
  | resource
  | setting
  | port
  deriving DecidableEq, Repr

/-- The word for an argument. -/
def NeededArgument.word : NeededArgument → Text
  | root => "root"
  | resource => "resource"
  | setting => "key"
  | port => "port"

/-- What ends an operation early. -/
inductive Failure where
  /-- The file tree refused. -/
  | refused (refusal : Refusal)
  /-- The file tree refused, and the file at `path` was needed. -/
  | store (purpose : Purpose) (path : FilePath) (refusal : Refusal)
  /-- A line was written to a session writer after it was closed. -/
  | writerClosed (path : FilePath)
  /-- A number with more digits than may be converted. -/
  | tooManyDigits
  /-- A text with a surrogate that has no bytes. -/
  | unencodable
  /-- A path with a null character. -/
  | nullInPath
  /-- A home directory that nobody knows. -/
  | unknownHome
  /-- A directory that lies too far below what is there. -/
  | tooDeep
  /-- A chunk size below the one that means everything. -/
  | badChunkSize
  /-- A chunk size that is no size at all. -/
  | chunkSizeTooLarge
  /-- A chunk that memory cannot hold. -/
  | outOfMemory
  /-- A needed argument that a separator left empty. -/
  | emptyArgument (argument : NeededArgument)
  /-- A name that stands for something, but for no level. -/
  | unknownLevel
  /-- A name that stands for something that is not even comparable to a level. -/
  | unusableLevel
  deriving DecidableEq

/-- The text of a failure. -/
def Failure.message : Failure → Text
  | refused r => r.message
  | store purpose path r => purpose.complaint ++ path.toText ++ (": " : Text) ++ r.message
  | writerClosed path => "session writer for " ++ path.toText ++ (" is closed" : Text)
  | tooManyDigits => "a number has too many digits"
  | unencodable => "a surrogate cannot be encoded"
  | nullInPath => "embedded null byte"
  | unknownHome => "Could not determine home directory."
  | tooDeep => "too many directories are missing"
  | badChunkSize => "read length must be non-negative or -1"
  | chunkSizeTooLarge => "read length is too large"
  | outOfMemory => "out of memory"
  | emptyArgument argument => ("the " : Text) ++ argument.word ++ (" argument is empty" : Text)
  | unknownLevel => "unknown level"
  | unusableLevel => "not a level"

end ClientStore
