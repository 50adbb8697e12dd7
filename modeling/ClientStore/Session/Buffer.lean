import ClientStore.Text.Basic

/-!
# Buffering of session files

A session writer does not send every line to the file at once. Lines are gathered until there is
enough of them or the next one would make it more than enough. What has been gathered is then handed
on to a block, which is sent when it is full. Whatever is held back is always the end of what was
written, in order.

## Main definitions

* `LineBuffer`, `LineBuffer.held`.
* `LineBuffer.push` — a line goes in, and what goes to the file comes out.
-/

namespace ClientStore

/-- What has been written but not yet sent. -/
structure LineBuffer where
  /-- What waits to be sent, before everything that is still being gathered. -/
  block : Bytes
  /-- The lines that are being gathered. -/
  gathered : Bytes
  deriving DecidableEq

namespace LineBuffer

/-- The number of gathered bytes that is enough. -/
def enough : Nat := 8192

/-- The size of a block. -/
def blockSize : Nat := 4096

/-- The buffer that holds nothing. -/
def empty : LineBuffer := ⟨[], []⟩

/-- All that is held back, in the order in which it was written. -/
def held (b : LineBuffer) : Bytes := b.block ++ b.gathered

/-- What goes to the file and what stays in the block when data is added to a block. Data that is
larger than a block goes to the file at once. -/
def fill (block data : Bytes) : Bytes × Bytes :=
  if block.length + data.length ≤ blockSize then ([], block ++ data)
  else if blockSize < data.length then (block ++ data, [])
  else (block, data)

/-- What goes to the file and what is held back when what is gathered is handed on, if it is due. -/
def handOn (b : LineBuffer) (due : Bool) : Bytes × LineBuffer :=
  if due then ((fill b.block b.gathered).1, ⟨(fill b.block b.gathered).2, []⟩) else ([], b)

/-- What goes to the file and what is held back when a line is gathered. -/
def gather (b : LineBuffer) (line : Bytes) : Bytes × LineBuffer :=
  { b with gathered := b.gathered ++ line }.handOn (enough ≤ (b.gathered ++ line).length)

/-- What goes to the file and what is held back when a line is written. What is gathered does not
wait for a line that would make it more than enough. -/
def push (b : LineBuffer) (line : Bytes) : Bytes × LineBuffer :=
  let (before, room) := b.handOn (enough < (b.gathered ++ line).length)
  let (after, kept) := room.gather line
  (before ++ after, kept)

/-- Filling a block loses nothing and keeps the order. -/
theorem fill_append (block data : Bytes) :
    (fill block data).1 ++ (fill block data).2 = block ++ data := by
  unfold fill
  split
  · rfl
  · split <;> simp

/-- What is handed on was held before. -/
theorem handOn_append_held (b : LineBuffer) (due : Bool) :
    (b.handOn due).1 ++ (b.handOn due).2.held = b.held := by
  cases due <;> simp [handOn, held, ← List.append_assoc, fill_append]

/-- Gathering a line loses nothing and keeps the order. -/
theorem gather_append_held (b : LineBuffer) (line : Bytes) :
    (b.gather line).1 ++ (b.gather line).2.held = b.held ++ line := by
  rw [gather, handOn_append_held]
  simp [held]

/-- Nothing is lost and nothing changes its order: what is sent, followed by what is held, is what
was held, followed by the line. -/
theorem push_append_held (b : LineBuffer) (line : Bytes) :
    (b.push line).1 ++ (b.push line).2.held = b.held ++ line := by
  dsimp only [push]
  rw [List.append_assoc, gather_append_held, ← List.append_assoc, handOn_append_held]

end LineBuffer

end ClientStore
