import ClientStore.OrderedMap
import ClientStore.Text.Blank
import ClientStore.Text.Quoted

/-!
# Resource tables

Settings that a profile does not have come from a table of resources. A resource is given as a
string such as `myterm.Hostname: example.org` or `*PortNumber: 2222`: the key is what stands
between the last dot or star before the first colon and that colon, and the value is the rest
without the whitespace in front of it.

Behind the table there may be a source of defaults, which is asked for the keys that the table does
not have.

## Main definitions

* `Resource.parse?` — one resource string.
* `ResourceTable`, `ResourceTable.ofStrings`.
* `ResourceTable.Source` — where the value of a key comes from.
-/

namespace ClientStore

namespace Resource

/-- The characters that separate the names in front of a key. -/
def isSeparator (c : CodePoint) : Bool := c = '.' || c = '*'

/-- The key at the end of what stands before the colon. -/
def key (t : Text) : Text := (t.reverse.takeWhile (!isSeparator ·)).reverse

/-- The key and the value in a resource string, if it has a colon. -/
def parse? (t : Text) : Option (Text × Text) :=
  (t.cut? ':').map (Prod.map key (List.dropWhile CodePoint.isBlank))

/-- What is said about a string that is no resource. -/
def complaint (t : Text) : Text :=
  "Expected a colon in resource string " ++ t.quoted ++ ("; ignored" : Text)

end Resource

/-- The values of keys that no profile sets. -/
structure ResourceTable where
  /-- The explicit values. -/
  values : OrderedMap Text Text
  /-- The source of defaults, if there is one. -/
  default? : Option (Text → Option Text)

namespace ResourceTable

/-- The table without values and without a source of defaults. -/
def empty : ResourceTable := ⟨.empty, none⟩

/-- The table of some resource strings, the last one for a key winning, and the strings that are
none, in order. -/
def ofStrings (strings : List Text) (default? : Option (Text → Option Text)) :
    ResourceTable × List Text :=
  (⟨.ofList (strings.filterMap Resource.parse?), default?⟩,
    strings.filter fun s => (Resource.parse? s).isNone)

/-- The table of some entries. -/
def ofEntries (entries : List (Text × Text)) (default? : Option (Text → Option Text)) :
    ResourceTable :=
  ⟨.ofList entries, default?⟩

/-- Where the value of a key comes from. -/
inductive Source where
  /-- The table has it. -/
  | explicit (value : Text)
  /-- The source of defaults was asked, and this is its answer. -/
  | asked (answer : Option Text)
  /-- There is neither. -/
  | nowhere

/-- The source of the value of a key. The defaults are asked only for keys that the table does not
have. -/
def source (r : ResourceTable) (key : Text) : Source :=
  match r.values.get? key with
  | some value => .explicit value
  | none =>
    match r.default? with
    | some answer => .asked (answer key)
    | none => .nowhere

end ResourceTable

end ClientStore
