import ClientStore.Text.Hex
import ClientStore.Text.Utf8

/-!
# Percent coding

Bytes are written with a small alphabet that is safe in a file name: the safe characters stand for
themselves, and every other byte is a percent sign followed by two upper-case hexadecimal digits.
The percent sign is not safe, so no two byte strings are written alike.

Reading is generous. A percent sign followed by two hexadecimal digits of either case is a byte;
everything else, lone percent signs included, stands for itself.

## Main definitions

* `Percent.isSafe` — the alphabet.
* `Percent.encode` — the written form of some bytes.
* `Percent.decode?` — the bytes of any text, or nothing if it holds a surrogate without bytes.
-/

namespace ClientStore.Percent

/-- The letters, the digits and `+-.@_`. -/
def isSafe (b : UInt8) : Bool :=
  (0x30 ≤ b && b ≤ 0x39) || (0x41 ≤ b && b ≤ 0x5A) || (0x61 ≤ b && b ≤ 0x7A) ||
    b = 0x2B || b = 0x2D || b = 0x2E || b = 0x40 || b = 0x5F

/-- The written form of one byte. -/
def encodeByte (b : UInt8) : Text :=
  if isSafe b then [.ofNat b.toNat]
  else ['%', Hex.upper (b.toNat / 16), Hex.upper (b.toNat % 16)]

/-- The written form of some bytes. -/
def encode (bytes : Bytes) : Text := bytes.flatMap encodeByte

/-- The byte that three code points spell, if they are an escape. -/
def escaped? (c high low : CodePoint) : Option UInt8 :=
  if c = '%' then
    match Hex.value? high, Hex.value? low with
    | some h, some l => some (.ofNat (16 * h + l))
    | _, _ => none
  else none

/-- The bytes that a text stands for. -/
def decode? : Text → Option Bytes
  | c :: high :: low :: rest =>
    match escaped? c high low with
    | some b => (decode? rest).map (b :: ·)
    | none =>
      (Utf8.encodePoint? c).bind fun bytes => (decode? (high :: low :: rest)).map (bytes ++ ·)
  | c :: rest => (Utf8.encodePoint? c).bind fun bytes => (decode? rest).map (bytes ++ ·)
  | [] => some []

end ClientStore.Percent
