import ClientStore.Failure
import ClientStore.Text.Blank
import ClientStore.Text.Digit

/-!
# Decimal numbers

Integers are written in decimal without leading zeros. Converting between an integer and its
digits is refused above a fixed number of digits, in both directions, and leading zeros count.

## Main definitions

* `Decimal.numeral`, `Decimal.render` — an integer as text.
* `Decimal.natural` — the value of a run of ASCII digits.
* `Decimal.leading` — the integer at the beginning of a text, zero if there is none.
* `Decimal.integer?` — the integer that a whole text spells, in the generous form that arguments
  are given in.
-/

namespace ClientStore.Decimal

/-- The largest number of digits that is converted. -/
def maxDigits : Nat := 4300

/-- The digits of a natural number. -/
def digits (n : Nat) : Text := (Nat.toDigits 10 n).map .ofChar

/-- The integer as text, however many digits that takes. -/
def numeral (i : Int) : Text := if i < 0 then '-' :: digits i.natAbs else digits i.natAbs

/-- The integer as text. -/
def render (i : Int) : Except Failure Text :=
  if i.natAbs < Nat.pow 10 maxDigits then .ok (numeral i) else .error .tooManyDigits

/-- The value of ASCII digits. -/
def value (ds : Text) : Nat := ds.foldl (fun n d => 10 * n + (d.val - 0x30)) 0

/-- The value of ASCII digits, if there are not too many. -/
def natural (ds : Text) : Except Failure Nat :=
  if ds.length ≤ maxDigits then .ok (value ds) else .error .tooManyDigits

/-- The sign at the beginning of a text, as whether it is negative, and the rest. -/
def sign : Text → Bool × Text
  | [] => (false, [])
  | c :: rest =>
    if c = '-' then (true, rest) else if c = '+' then (false, rest) else (false, c :: rest)

/-- The integer with a sign and an absolute value. -/
def signed (negative : Bool) (n : Nat) : Int := if negative then -n else n

/-- The integer at the beginning of a text: after whitespace, a sign if there is one, and all the
ASCII digits that follow. Without a digit there it is zero. -/
def leading (t : Text) : Except Failure Int :=
  let (negative, rest) := sign (t.dropWhile CodePoint.isBlank)
  match rest.takeWhile CodePoint.isAsciiDigit with
  | [] => .ok 0
  | ds => (natural ds).map (signed negative)

/-- Whitespace around an argument that spells an integer. Of the ASCII controls only the blanks
count. -/
def isPadding (c : CodePoint) : Bool := c.isBlank && !(0x1C ≤ c.val && c.val ≤ 0x1F)

/-- The values of the digits of a text in which single underscores may stand between digits. -/
def groupedDigits? : Text → Option (List Nat)
  | [] => none
  | [c] => c.digitValue?.map ([·])
  | c :: d :: rest =>
    match c.digitValue? with
    | none => none
    | some n =>
      if d = '_' then (groupedDigits? rest).map (n :: ·)
      else (groupedDigits? (d :: rest)).map (n :: ·)

/-- The integer that a text spells: whitespace around it, a sign, and digits of any script with
single underscores between them. -/
def integer? (t : Text) : Option Int :=
  let (negative, rest) := sign (t.trim isPadding)
  match groupedDigits? rest with
  | none => none
  | some ds =>
    if ds.length ≤ maxDigits then some (signed negative (ds.foldl (fun n d => 10 * n + d) 0))
    else none

end ClientStore.Decimal
