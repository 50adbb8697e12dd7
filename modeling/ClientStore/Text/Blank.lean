import ClientStore.Text.Basic

/-!
# Whitespace

The code points that count as blank when a value is trimmed and when a number is looked for.
-/

namespace ClientStore.CodePoint

/-- Whitespace: the ASCII blanks, the information separators U+001C to U+001F, the next-line
control, and the space, line and paragraph separators of Unicode. -/
def isBlank (c : CodePoint) : Bool :=
  let n := c.val
  (0x09 ≤ n && n ≤ 0x0D) || (0x1C ≤ n && n ≤ 0x20) || n = 0x85 || n = 0xA0 || n = 0x1680 ||
    (0x2000 ≤ n && n ≤ 0x200A) || n = 0x2028 || n = 0x2029 || n = 0x202F || n = 0x205F || n = 0x3000

end ClientStore.CodePoint
