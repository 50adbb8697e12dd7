import ClientStore.OrderedMap
import ClientStore.Text.Basic

/-!
# Settings

The settings of a profile are a map from keys to values. On disk every setting is a line
`key=value`. Nothing is escaped: the first equals sign ends the key, the line feed ends the value,
and whatever stands between them is read back as it was written, except that a value loses the
carriage returns at its end.

Reading keeps the last value of a key that is written twice, at the position of the first.

## Main definitions

* `Settings`, `Settings.ofLines`, `Settings.ofText`.
* `Settings.parseLine?` — one line.
* `Settings.formatLine`, `Settings.formatEntries` — the written form.
-/

namespace ClientStore

/-- Keys and values, in the order in which the keys first came. -/
abbrev Settings := OrderedMap Text Text

namespace Settings

/-- The characters that a value loses at its end. -/
def isLineEnd (c : CodePoint) : Bool := c = '\r' || c = '\n'

/-- The key and the value on a line, if it has an equals sign. -/
def parseLine? (line : Text) : Option (Text × Text) :=
  (line.cut? '=').map (Prod.map id (Text.trimEnd isLineEnd))

/-- The settings on some lines. Lines without an equals sign are skipped. -/
def ofLines (lines : List Text) : Settings := .ofList (lines.filterMap parseLine?)

/-- The settings in a text. -/
def ofText (t : Text) : Settings := ofLines t.lines

/-- The line of one setting. -/
def formatLine (key value : Text) : Text := key ++ .ofChar '=' :: value ++ [.ofChar '\n']

/-- The lines of some settings, in order and with repetitions. -/
def formatEntries (entries : List (Text × Text)) : Text :=
  entries.flatMap fun e => formatLine e.1 e.2

end Settings

end ClientStore
