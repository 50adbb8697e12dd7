import ClientStore.Text.Basic

/-!
# The hash of a name

A directory that is indexed by a hash of the names in it is listed in the order of that hash, which
has nothing to do with the order in which the names came. The hash is MD4 cut down to half of its
steps and words: three rounds of eight steps mix a block of eight words into a state of four.

A name goes in as blocks of 32 bytes, four bytes to a word. A byte counts as a signed number, and
what is missing in the last block is filled up with the number of bytes that were left for it.

## Main definitions

* `NameHash.compress` — one block mixed into the state.
* `NameHash.digest` — the state after a whole name.
* `NameHash.rank` — the number by which names are listed.
-/

namespace ClientStore.NameHash

/-- The words that the blocks are mixed into. -/
structure State where
  a : UInt32
  b : UInt32
  c : UInt32
  d : UInt32
  deriving DecidableEq, Repr

/-- The state before the first block. -/
def start : State := ⟨0x67452301, 0xEFCDAB89, 0x98BADCFE, 0x10325476⟩

/-! ## Rounds -/

/-- The bits of `y` where `x` has ones, and those of `z` elsewhere. -/
def choose (x y z : UInt32) : UInt32 := z ^^^ (x &&& (y ^^^ z))

/-- The bits that most of the three words have. -/
def majority (x y z : UInt32) : UInt32 := (x &&& y) + ((x ^^^ y) &&& z)

/-- The bits that an odd number of the three words have. -/
def parity (x y z : UInt32) : UInt32 := x ^^^ y ^^^ z

/-- The bits of a word moved up by `n` places, those that fall out coming back below. -/
def rotate (x n : UInt32) : UInt32 := (x <<< n) ||| (x >>> (32 - n))

/-- One step: a word is mixed into the first one, and the next one becomes the first. -/
def step (mix : UInt32 → UInt32 → UInt32 → UInt32) (s : State) (word shift : UInt32) : State :=
  ⟨s.d, rotate (s.a + mix s.b s.c s.d + word) shift, s.b, s.c⟩

/-- One round: the words at some positions of a block, each with `key` added, one step each. The
shifts are those of the first four steps, and of the last four again. -/
def round (mix : UInt32 → UInt32 → UInt32 → UInt32) (key : UInt32) (shifts : List UInt32)
    (positions : List Nat) (block : List UInt32) (s : State) : State :=
  (positions.zip (shifts ++ shifts)).foldl
    (fun s (position, shift) => step mix s (block.getD position 0 + key) shift) s

/-- A block mixed into a state. -/
def compress (s : State) (block : List UInt32) : State :=
  let one := round choose 0 [3, 7, 11, 19] [0, 1, 2, 3, 4, 5, 6, 7] block s
  let two := round majority 0x5A827999 [3, 5, 9, 13] [1, 3, 5, 7, 0, 2, 4, 6] block one
  let three := round parity 0x6ED9EBA1 [3, 9, 11, 15] [3, 7, 2, 6, 1, 5, 0, 4] block two
  ⟨s.a + three.a, s.b + three.b, s.c + three.c, s.d + three.d⟩

/-! ## Names -/

/-- A byte as a signed number. -/
def signed (b : UInt8) : UInt32 := if b < 0x80 then b.toUInt32 else b.toUInt32 - 0x100

/-- The word of at most four bytes, if `fill` stands for those that are missing. -/
def word (fill : UInt32) (bytes : Bytes) : UInt32 :=
  bytes.foldl (fun word b => (word <<< 8) + signed b) fill

/-- The word that consists of the same number four times. -/
def filling (n : Nat) : UInt32 := UInt32.ofNat n * 0x01010101

/-- The block at the front of what is left of a name. -/
def blockOf (left : Bytes) : List UInt32 :=
  (List.range 8).map fun i => word (filling left.length) ((left.drop (4 * i)).take 4)

/-- The state after a name. -/
def digest (name : Bytes) : State :=
  (List.range ((name.length + 31) / 32)).foldl
    (fun s i => compress s (blockOf (name.drop (32 * i)))) start

/-- The number of a name in a listing: half of the second word, and where that decides nothing the
third one. -/
def rank (name : Bytes) : Nat :=
  let s := digest name
  s.b.toNat / 2 * 0x100000000 + s.c.toNat

end ClientStore.NameHash
