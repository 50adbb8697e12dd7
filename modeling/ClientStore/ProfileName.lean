import ClientStore.Text.Percent
import ClientStore.Text.Quoted

/-!
# Profile names

The user chooses the names of profiles, and a name may hold anything. On disk every profile is one
file, named by the percent coding of the bytes of its name. A directory may also hold files that
somebody else named, and each of those shows as some profile too.

## Main definitions

* `ProfileName` — the default profile, a text or a byte string.
* `ProfileName.raw?` — the bytes of a name, which identify the profile.
* `ProfileName.stored?` — the name of its file.
* `ProfileName.listed?` — the text under which a file shows in a listing.
-/

namespace ClientStore

/-- The name of a profile. -/
inductive ProfileName where
  /-- The profile that is used when none is named. -/
  | default
  | text (t : Text)
  | bytes (b : Bytes)
  deriving DecidableEq

namespace ProfileName

/-- The name that the default profile has on disk. -/
def defaultText : Text := "Default Settings"

/-- The bytes of a name, unless it holds a surrogate that has none. -/
def raw? : ProfileName → Option Bytes
  | default => Utf8.encode? defaultText
  | text t => Utf8.encode? t
  | bytes b => some b

/-- The name of the file of a profile. -/
def stored? (name : ProfileName) : Option Text := name.raw?.map Percent.encode

/-- The name of the profile that a file shows as. -/
def listed? (stored : Text) : Option Text := (Percent.decode? stored).map Utf8.decode

/-- The name as log messages quote it. -/
def quoted : ProfileName → Text
  | default => "None"
  | text t => t.quoted
  | bytes b => 'b' :: Quoted.bytes b

end ProfileName

end ClientStore
