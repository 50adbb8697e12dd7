import ClientStore.Text.Hex

/-!
# Text for a terminal

Stored values come from users and from the network. Before one is shown on a line of its own, the
terminal escape sequences in it are removed and the control characters that remain are spelled
out, so that it cannot colour the screen, move the cursor or begin a line.

An escape sequence is an escape character followed either by one character from `@` to `_` other
than `[`, or by `[`, parameter characters, intermediate characters and a final character. An escape
character that begins no whole sequence is a control character like any other.

## Main definitions

* `Sanitize.tailLength?` — how much of a text completes an escape sequence.
* `Sanitize.withoutSequences` — the text without its escape sequences.
* `Text.sanitized` — the text as it is shown.
-/

namespace ClientStore

namespace Sanitize

/-- The escape character. -/
def esc : CodePoint := .ofNat 0x1B

/-- The control characters of ASCII. -/
def isControl (c : CodePoint) : Bool := c.val < 0x20 || c.val = 0x7F

/-- The characters that form a sequence with the escape character alone. -/
def isShortFinal (c : CodePoint) : Bool := 0x40 ≤ c.val && c.val ≤ 0x5F && c.val ≠ 0x5B

/-- The parameter characters of a control sequence. -/
def isParameter (c : CodePoint) : Bool := 0x30 ≤ c.val && c.val ≤ 0x3F

/-- The intermediate characters of a control sequence. -/
def isIntermediate (c : CodePoint) : Bool := 0x20 ≤ c.val && c.val ≤ 0x2F

/-- The characters that end a control sequence. -/
def isFinal (c : CodePoint) : Bool := 0x40 ≤ c.val && c.val ≤ 0x7E

/-- How many code points complete the sequence that an escape character has begun. -/
def tailLength? : Text → Option Nat
  | [] => none
  | c :: rest =>
    if isShortFinal c then some 1
    else if c = '[' then
      let parameters := rest.takeWhile isParameter
      let afterParameters := rest.dropWhile isParameter
      let intermediates := afterParameters.takeWhile isIntermediate
      match afterParameters.dropWhile isIntermediate with
      | final :: _ =>
        if isFinal final then some (parameters.length + intermediates.length + 2) else none
      | [] => none
    else none

/-- The text after its first `skip` code points, without its escape sequences. -/
def withoutSequencesAfter : (skip : Nat) → Text → Text
  | _, [] => []
  | skip + 1, _ :: rest => withoutSequencesAfter skip rest
  | 0, c :: rest =>
    if c = esc then
      match tailLength? rest with
      | some n => withoutSequencesAfter n rest
      | none => c :: withoutSequencesAfter 0 rest
    else c :: withoutSequencesAfter 0 rest

/-- The text without its escape sequences. -/
def withoutSequences (t : Text) : Text := withoutSequencesAfter 0 t

/-- One code point on a line: a control character is spelled out. -/
def visible (c : CodePoint) : Text :=
  if isControl c then '\\' :: 'x' :: Hex.padded 2 c.val else [c]

end Sanitize

/-- The text as a line for people shows it. -/
def Text.sanitized (t : Text) : Text := (Sanitize.withoutSequences t).flatMap Sanitize.visible

end ClientStore
