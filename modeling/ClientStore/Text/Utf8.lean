import ClientStore.Text.Basic

/-!
# Bytes as text

Files hold UTF-8, but no file is refused for holding something else: reading takes the longest
well-formed sequences it can and turns every byte outside of them into a byte escape, and writing
turns the escapes back. A surrogate that is no byte escape has no bytes.

## Main definitions

* `Utf8.encodePoint?`, `Utf8.encode?` — the bytes of a code point and of a text.
* `Utf8.first` — the code point at the head of some bytes, and how many more bytes it takes.
* `Utf8.decode` — the text of some bytes. It never fails.
-/

namespace ClientStore.Utf8

/-- The bytes of a code point, if it has any. -/
def encodePoint? (c : CodePoint) : Option Bytes :=
  let n := c.val
  if n < 0x80 then some [.ofNat n]
  else if n < 0x800 then some [.ofNat (0xC0 + n / 0x40), .ofNat (0x80 + n % 0x40)]
  else if c.isByteEscape then some [.ofNat (n - 0xDC00)]
  else if c.isSurrogate then none
  else if n < 0x10000 then
    some [.ofNat (0xE0 + n / 0x1000), .ofNat (0x80 + n / 0x40 % 0x40), .ofNat (0x80 + n % 0x40)]
  else
    some [.ofNat (0xF0 + n / 0x40000), .ofNat (0x80 + n / 0x1000 % 0x40),
      .ofNat (0x80 + n / 0x40 % 0x40), .ofNat (0x80 + n % 0x40)]

/-- The bytes of a text, if every code point has some. -/
def encode? : Text → Option Bytes
  | [] => some []
  | c :: rest => (encodePoint? c).bind fun bytes => (encode? rest).map (bytes ++ ·)

/-- The byte escape of a byte. Below 0x80 a byte is a code point of its own and needs none. -/
def escape (b : UInt8) : CodePoint := .ofNat (0xDC00 + b.toNat)

/-- The bytes that may continue a sequence. -/
def isContinuation (b : UInt8) : Bool := 0x80 ≤ b && b ≤ 0xBF

/-- The bytes that may follow the first byte of a sequence of three. The bounds keep out the
overlong forms and the surrogates. -/
def isSecondOfThree (a b : UInt8) : Bool :=
  if a = 0xE0 then 0xA0 ≤ b && b ≤ 0xBF
  else if a = 0xED then 0x80 ≤ b && b ≤ 0x9F
  else isContinuation b

/-- The bytes that may follow the first byte of a sequence of four. The bounds keep out the
overlong forms and everything above the last code point. -/
def isSecondOfFour (a b : UInt8) : Bool :=
  if a = 0xF0 then 0x90 ≤ b && b ≤ 0xBF
  else if a = 0xF4 then 0x80 ≤ b && b ≤ 0x8F
  else isContinuation b

/-- The six payload bits of a continuation byte. -/
def payload (b : UInt8) : Nat := b.toNat % 0x40

/-- The code point that begins with `a` when `rest` follows, and the number of bytes of `rest`
that belong to it. A byte that begins no well-formed sequence is escaped by itself. -/
def first (a : UInt8) (rest : Bytes) : CodePoint × Nat :=
  if a < 0x80 then (.ofNat a.toNat, 0)
  else if 0xC2 ≤ a && a ≤ 0xDF then
    match rest with
    | b :: _ =>
      if isContinuation b then (.ofNat (a.toNat % 0x20 * 0x40 + payload b), 1)
      else (escape a, 0)
    | _ => (escape a, 0)
  else if 0xE0 ≤ a && a ≤ 0xEF then
    match rest with
    | b :: c :: _ =>
      if isSecondOfThree a b && isContinuation c then
        (.ofNat (a.toNat % 0x10 * 0x1000 + payload b * 0x40 + payload c), 2)
      else (escape a, 0)
    | _ => (escape a, 0)
  else if 0xF0 ≤ a && a ≤ 0xF4 then
    match rest with
    | b :: c :: d :: _ =>
      if isSecondOfFour a b && isContinuation c && isContinuation d then
        (.ofNat (a.toNat % 0x08 * 0x40000 + payload b * 0x1000 + payload c * 0x40 + payload d),
          3)
      else (escape a, 0)
    | _ => (escape a, 0)
  else (escape a, 0)

/-- The text of the bytes after the first `skip`, which an earlier code point has taken. -/
def decodeAfter : (skip : Nat) → Bytes → Text
  | _, [] => []
  | skip + 1, _ :: rest => decodeAfter skip rest
  | 0, a :: rest => (first a rest).1 :: decodeAfter (first a rest).2 rest

/-- The text of some bytes. -/
def decode (bytes : Bytes) : Text := decodeAfter 0 bytes

end ClientStore.Utf8
