import ClientStore.Text.Basic

/-!
# Hexadecimal digits

Bytes and code points are shown with a fixed number of hexadecimal digits: upper case in the
names of files, lower case in text for people.
-/

namespace ClientStore.Hex

/-- The digit of a value below sixteen, with the letters starting at `ten`. -/
def digit (ten : Char) (n : Nat) : CodePoint :=
  if n < 10 then .ofNat (0x30 + n) else .ofNat (ten.toNat + (n - 10))

/-- The upper-case digit of a value below sixteen. -/
def upper (n : Nat) : CodePoint := digit 'A' n

/-- The lower-case digit of a value below sixteen. -/
def lower (n : Nat) : CodePoint := digit 'a' n

/-- The last `width` lower-case digits of a number. -/
def padded : (width : Nat) → Nat → Text
  | 0, _ => []
  | width + 1, n => padded width (n / 16) ++ [lower (n % 16)]

/-- The value of a hexadecimal digit of either case. -/
def value? (c : CodePoint) : Option Nat :=
  let n := c.val
  if 0x30 ≤ n ∧ n ≤ 0x39 then some (n - 0x30)
  else if 0x41 ≤ n ∧ n ≤ 0x46 then some (n - 0x41 + 10)
  else if 0x61 ≤ n ∧ n ≤ 0x66 then some (n - 0x61 + 10)
  else none

end ClientStore.Hex
