import ClientStore.Layout

/-!
# The random seed

A seed is carried over from one run to the next. The bytes themselves mean nothing here. Reading
hands the file out in chunks; writing puts the new seed over the old one from the front, without
cutting the old one off first, so that whatever goes wrong never leaves less than there was. Losing
a seed is not worth failing over, and writing only ever warns.

## Main definitions

* `Seed.chunks`, `Seed.read`.
* `Seed.Attempt`, `Seed.Outlet` — how much the file takes at a time.
* `Seed.write`.
-/

namespace ClientStore.Seed

/-- The usual size of a chunk. -/
def chunkSize : Int := 512

/-- The chunks of `size` bytes, the last one perhaps shorter, of some content. -/
def chunks (size : Nat) (content : Bytes) : List Bytes :=
  if _h : size = 0 ∨ content = [] then []
  else content.take size :: chunks size (content.drop size)
termination_by content.length
decreasing_by
  have hc : content.length ≠ 0 := fun hn => _h (Or.inr (List.length_eq_zero_iff.1 hn))
  simp only [List.length_drop]
  omega

/-- The number of bytes that memory can hold. -/
def memory : Int := .ofNat (Nat.pow 2 35)

/-- The number that no size of anything reaches. -/
def sizeLimit : Int := .ofNat (Nat.pow 2 63)

/-- The number of bytes that are needed to note that a chunk is one. -/
def chunkOverhead : Int := 33

/-- The chunks of a size as it is asked for: minus one means everything at once. There has to be
room for a whole chunk, however short the content is. -/
def chunksOf (size : Int) (content : Bytes) : Except Failure (List Bytes) :=
  if size < -sizeLimit ∨ sizeLimit - chunkOverhead ≤ size then .error .chunkSizeTooLarge
  else if size < -1 then .error .badChunkSize
  else if size = -1 then .ok (chunks content.length content)
  else if memory ≤ size then .error .outOfMemory
  else .ok (chunks size.toNat content)

/-- Hands the seed out in chunks. Without a seed there are none. -/
def read (l : Layout) (size : Int) : StoreM (List Bytes) := do
  let content ← StoreM.onRefusal (some <$> Disk.read l.seed) fun r => do
    if r.fault ≠ .notFound then
      StoreM.log .debug
        ("Random seed " ++ l.seed.toText ++ (" unreadable: " : Text) ++ r.message)
    return none
  match content with
  | none => return []
  | some content => chunksOf size content

/-- What comes of an attempt to write. -/
inductive Attempt where
  /-- At most so many bytes are taken. -/
  | takes (n : Nat)
  /-- Nothing is taken, and an error is reported. -/
  | fails
  deriving DecidableEq, Repr

/-- What comes of every attempt, by its number and the number of bytes that are left. -/
abbrev Outlet := Nat → Nat → Attempt

namespace Outlet

/-- The outlet that takes everything at once. -/
def whole : Outlet := fun _ left => .takes left

/-- The outlet that follows a plan and stays at its end. -/
def ofPlan (first : Attempt) (plan : List Attempt) : Outlet := fun call _ =>
  (first :: plan).getD call ((first :: plan).getLast (by simp))

end Outlet

/-- Opens the seed without emptying it. On a fresh install the root is made first. -/
def openKept (l : Layout) : StoreM Handle :=
  (Disk.openKept l.seed Disk.privateFileMode).onRefusal fun r =>
    if r.fault = .notFound then do
      l.ensureRoot
      Disk.openKept l.seed Disk.privateFileMode
    else throw (.refused r)

/-- Writes what is left from `offset` on, and gives what was offered at every attempt. The writing
ends when nothing is left, when an attempt takes nothing and when one fails. -/
def writeFrom (l : Layout) (outlet : Outlet) (h : Handle) (call offset : Nat) (left : Bytes) :
    StoreM (List Bytes) :=
  if _hl : left = [] then return []
  else
    match outlet call left.length with
    | .fails => do
      StoreM.log .warning
        ("Random seed write to " ++ l.seed.toText ++ (" failed: " : Text) ++
          (Refusal.mk .inputOutput none).message)
      return [left]
    | .takes n =>
      if _hn : n = 0 then return [left]
      else do
        Disk.write h offset (left.take n)
        let later ← writeFrom l outlet h (call + 1) (offset + (left.take n).length) (left.drop n)
        return left :: later
termination_by left.length
decreasing_by
  have : left.length ≠ 0 := fun h => _hl (List.length_eq_zero_iff.1 h)
  simp only [List.length_drop]
  omega

/-- Saves a seed, and gives what was offered at every attempt to write. -/
def write (l : Layout) (outlet : Outlet) (data : Bytes) : StoreM (List Bytes) := do
  let handle ← StoreM.onRefusal (some <$> openKept l) fun r => do
    StoreM.log .warning
      ("Cannot save random seed to " ++ l.seed.toText ++ (": " : Text) ++ r.message)
    return none
  match handle with
  | none => return []
  | some handle => writeFrom l outlet handle 0 0 data

end ClientStore.Seed
