import ClientStore.Command.Grammar
import ClientStore.Decimal

/-!
# The commands and their arguments

What the user can ask for on the command line, and how it is written. Wherever a separator may
leave the place of an argument empty, the argument is optional, and `none` stands for the empty
place.

## Main definitions

* `Command`, `Invocation`.
* `Invocation.parse` — the invocation that some arguments spell.
-/

namespace ClientStore

/-- The arguments that name a host key. -/
structure HostKeyArguments where
  hostname : Option Text
  port : Option Int
  keytype : Option Text
  keydata : Option Text

/-- What the user asks for. -/
inductive Command where
  | list
  /-- The settings of a profile, only some keys if any are given. -/
  | show (name : Text) (keys : List (Option Text))
  /-- A profile made from `key=value` pairs. -/
  | set (name : Text) (pairs : List Text)
  | delete (name : Text)
  | checkHostKey (key : HostKeyArguments)
  | addHostKey (key : HostKeyArguments)
  | listHostKeys
  | seedSize

/-- A command with the options in front of it. -/
structure Invocation where
  /-- The root, if one is given. -/
  root : Option (Option Text)
  resources : List (Option Text)
  /-- How often more messages were asked for. -/
  verbosity : Nat
  command : Command

/-- The options of all commands. -/
inductive SwitchKey where
  | help
  | root
  | resource
  | verbose
  /-- A setting that is to be shown. -/
  | setting
  deriving DecidableEq, Repr

namespace Invocation

/-- Help, which every grammar has. -/
def help : Switch SwitchKey := ⟨.help, ["-h", "--help"], false⟩

/-- A grammar with some options besides help. -/
def grammar (switches : List (Switch SwitchKey)) (slots : List Slot) : Grammar SwitchKey :=
  ⟨help :: switches, slots, (· = .help)⟩

/-- A place for one word. -/
def word : Slot := ⟨.one, fun _ => true⟩

/-- A place for an integer. -/
def integer : Slot := ⟨.one, fun t => (Decimal.integer? t).isSome⟩

/-- What stands in front of a command, and the command with all its arguments. -/
def outer : Grammar SwitchKey :=
  grammar
    [⟨.root, ["--root"], true⟩, ⟨.resource, ["-r", "--resource"], true⟩,
      ⟨.verbose, ["-v", "--verbose"], false⟩]
    [⟨.remainder, fun _ => true⟩]

/-- The grammar of a command, and the command that a match with it stands for. -/
structure Form where
  grammar : Grammar SwitchKey
  build : Matched SwitchKey → Command

/-- The values of an option, in order. -/
def values (key : SwitchKey) (m : Matched SwitchKey) : List (Option Text) :=
  m.options.filterMap fun e => if e.1 = key then some e.2.head? else none

/-- The words in the place with a number. -/
def wordsAt (m : Matched SwitchKey) (place : Nat) : List Text := m.filled.getD place []

/-- The name of the profile, which is always in the first place. -/
def name (m : Matched SwitchKey) : Text := (wordsAt m 0).headD []

/-- A command that takes no arguments. -/
def plain (c : Command) : Form := ⟨grammar [] [], fun _ => c⟩

/-- A command about a host key. -/
def aboutHostKey (c : HostKeyArguments → Command) : Form where
  grammar := grammar [] [word, integer, word, word]
  build m := c
    { hostname := (wordsAt m 0).head?
      port := (wordsAt m 1).head?.bind Decimal.integer?
      keytype := (wordsAt m 2).head?
      keydata := (wordsAt m 3).head? }

/-- The commands by their names. -/
def forms : List (Text × Form) :=
  [("list", plain .list),
    ("show",
      ⟨grammar [⟨.setting, ["--key"], true⟩] [word], fun m => .show (name m) (values .setting m)⟩),
    ("set", ⟨grammar [] [word, ⟨.many, fun _ => true⟩], fun m => .set (name m) (wordsAt m 1)⟩),
    ("delete", ⟨grammar [] [word], fun m => .delete (name m)⟩),
    ("hostkey-check", aboutHostKey .checkHostKey),
    ("hostkey-add", aboutHostKey .addHostKey),
    ("hostkey-list", plain .listHostKeys),
    ("seed-size", plain .seedSize)]

/-- The invocation that some arguments spell. -/
def parse (args : List Text) : Except Interruption Invocation := do
  let m ← outer.interpret args
  match wordsAt m 0 with
  | [] => .error .refused
  | commandName :: rest =>
    match forms.lookup commandName with
    | none => .error .refused
    | some form =>
      let inner ← form.grammar.interpret rest
      if m.leftOver || inner.leftOver then .error .refused
      else
        return {
          root := (values .root m).getLast?
          resources := values .resource m
          verbosity := (values .verbose m).length
          command := form.build inner }

end Invocation

end ClientStore
