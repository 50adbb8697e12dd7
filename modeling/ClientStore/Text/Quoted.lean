import ClientStore.Text.Hex
import ClientStore.Text.Printable

/-!
# Quoted text

How a message shows a text that may hold anything: between quotes, with everything that is not
printable spelled out. The quotes are single unless the text holds a single quote and no double
one.

## Main definitions

* `Quoted.mark` — the quote that a text gets.
* `Quoted.escape` — the form of one code point between two such quotes.
* `Text.quoted` — the quoted text.
-/

namespace ClientStore

namespace Quoted

/-- The quote around a text. -/
def mark (t : Text) : CodePoint :=
  if t.contains (.ofChar '\'') && !t.contains (.ofChar '"') then '"' else '\''

/-- One code point between quotes `q`. -/
def escape (q c : CodePoint) : Text :=
  if c = q ∨ c = '\\' then ['\\', c]
  else if c = '\t' then ['\\', 't']
  else if c = '\n' then ['\\', 'n']
  else if c = '\r' then ['\\', 'r']
  else if c.isPrintable then [c]
  else if c.val < 0x100 then '\\' :: 'x' :: Hex.padded 2 c.val
  else if c.val < 0x10000 then '\\' :: 'u' :: Hex.padded 4 c.val
  else '\\' :: 'U' :: Hex.padded 8 c.val

/-- A byte string between quotes: what is not ASCII counts as not printable. -/
def bytes (b : Bytes) : Text :=
  let t : Text := b.map fun x => .ofNat x.toNat
  let q := mark t
  q :: t.flatMap (fun c =>
    if c.val < 0x7F then escape q c else '\\' :: 'x' :: Hex.padded 2 c.val) ++ [q]

end Quoted

/-- The text as a message quotes it. -/
def Text.quoted (t : Text) : Text :=
  let q := Quoted.mark t
  q :: t.flatMap (Quoted.escape q) ++ [q]

end ClientStore
