/-!
# Text

The program handles text that came from bytes it could not decode, so a text is a sequence of
arbitrary code points, surrogates included, and not a sequence of characters. Bytes that are no
part of a well-formed sequence travel through a text as *byte escapes*, the surrogates U+DC80 to
U+DCFF.

## Main definitions

* `CodePoint`, `Text`, `Bytes` — the three alphabets everything else is written over.
* `Text.cut?` — the parts before and after the first occurrence of a code point.
* `Text.trimEnd` — a text without the longest suffix from a class.
* `Text.lines` — the lines of a text, each with the line feed that ends it.
* `Text.le` — the order by code points.
-/

namespace ClientStore

/-- A code point of Unicode, surrogates included. -/
abbrev CodePoint := Fin 0x110000

/-- A sequence of code points. -/
abbrev Text := List CodePoint

/-- A sequence of bytes. -/
abbrev Bytes := List UInt8

namespace CodePoint

/-- The code point of a character. -/
def ofChar (c : Char) : CodePoint :=
  ⟨c.toNat, by
    have h := c.valid
    simp only [UInt32.isValidChar, Nat.isValidChar] at h
    show c.val.toNat < 0x110000
    omega⟩

instance : Coe Char CodePoint := ⟨ofChar⟩

/-- The code point with a number. Numbers that are too large wrap around; none is ever given. -/
def ofNat (n : Nat) : CodePoint := ⟨n % 0x110000, Nat.mod_lt n (by decide)⟩

/-- The surrogates, which no encoding of characters can write. -/
def isSurrogate (c : CodePoint) : Bool := 0xD800 ≤ c.val && c.val ≤ 0xDFFF

/-- The surrogates that stand for one undecodable byte. -/
def isByteEscape (c : CodePoint) : Bool := 0xDC80 ≤ c.val && c.val ≤ 0xDCFF

/-- The character of a code point that is not a surrogate. -/
def toChar? (c : CodePoint) : Option Char :=
  if h : c.val.isValidChar then some (Char.ofNatAux c.val h) else none

end CodePoint

namespace Text

/-- The text of a string. -/
def ofString (s : String) : Text := s.toList.map CodePoint.ofChar

instance : Coe String Text := ⟨ofString⟩

/-- The string with the same code points, unless the text holds a surrogate. -/
def toString? (t : Text) : Option String := (t.mapM CodePoint.toChar?).map String.ofList

/-- Whether some code point is a surrogate. -/
def hasSurrogate (t : Text) : Bool := t.any CodePoint.isSurrogate

/-- The parts before and after the first occurrence of `c`, if there is one. -/
def cut? (c : CodePoint) : Text → Option (Text × Text)
  | [] => none
  | x :: rest => if x = c then some ([], rest) else (cut? c rest).map (Prod.map (x :: ·) id)

theorem cut?_cons (c x : CodePoint) (rest : Text) :
    cut? c (x :: rest) =
      if x = c then some ([], rest) else (cut? c rest).map (Prod.map (x :: ·) id) := rfl

/-- The text without its longest suffix of code points in `p`. -/
def trimEnd (p : CodePoint → Bool) : Text → Text
  | [] => []
  | x :: rest =>
    let kept := trimEnd p rest
    if kept.isEmpty && p x then [] else x :: kept

@[simp] theorem trimEnd_nil (p : CodePoint → Bool) : trimEnd p [] = [] := rfl

theorem trimEnd_cons (p : CodePoint → Bool) (x : CodePoint) (rest : Text) :
    trimEnd p (x :: rest) =
      if (trimEnd p rest).isEmpty && p x then [] else x :: trimEnd p rest := rfl

/-- The text without its longest prefix and its longest suffix of code points in `p`. -/
def trim (p : CodePoint → Bool) (t : Text) : Text := trimEnd p (t.dropWhile p)

/-- The lines of a text: only a line feed ends one, and it belongs to the line it ends. -/
def lines : Text → List Text
  | [] => []
  | x :: rest =>
    if x = '\n' then [x] :: lines rest
    else match lines rest with
      | [] => [[x]]
      | line :: others => (x :: line) :: others

theorem lines_cons (x : CodePoint) (rest : Text) :
    lines (x :: rest) =
      if x = '\n' then [x] :: lines rest
      else match lines rest with
        | [] => [[x]]
        | line :: others => (x :: line) :: others := rfl

/-- The pieces between the occurrences of `c`. There is always one more piece than there are
occurrences. -/
def pieces (c : CodePoint) : Text → List Text
  | [] => [[]]
  | x :: rest =>
    if x = c then [] :: pieces c rest
    else match pieces c rest with
      | [] => [[x]]
      | piece :: others => (x :: piece) :: others

/-- What follows `start`, if the text begins with it. -/
def dropPrefix? : (start : Text) → Text → Option Text
  | [], t => some t
  | _ :: _, [] => none
  | a :: start, b :: t => if a = b then dropPrefix? start t else none

section Runs

variable {p : CodePoint → Bool} {run rest : Text}

theorem of_mem_takeWhile (p : CodePoint → Bool) (t : Text) : ∀ c ∈ t.takeWhile p, p c = true :=
  List.all_eq_true.1 List.all_takeWhile

theorem of_mem_head?_dropWhile (p : CodePoint → Bool) (t : Text) :
    ∀ c ∈ (t.dropWhile p).head?, p c = false := by
  intro c hc
  have hnot := List.head?_dropWhile_not p t
  rwa [hc] at hnot

/-- A run of code points in `p` goes on to the first one that is not. -/
theorem takeWhile_run (hrun : ∀ c ∈ run, p c = true) (hrest : ∀ c ∈ rest.head?, p c = false) :
    (run ++ rest).takeWhile p = run := by
  have hend : rest.takeWhile p = [] := by
    cases rest with
    | nil => rfl
    | cons c rest => exact List.takeWhile_cons_of_neg (by simp [hrest c rfl])
  rw [List.takeWhile_append_of_pos hrun, hend, List.append_nil]

theorem dropWhile_run (hrun : ∀ c ∈ run, p c = true) (hrest : ∀ c ∈ rest.head?, p c = false) :
    (run ++ rest).dropWhile p = rest := by
  have hsplit := List.takeWhile_append_dropWhile (p := p) (l := run ++ rest)
  rw [takeWhile_run hrun hrest] at hsplit
  exact List.append_cancel_left hsplit

end Runs

/-- The order by code points, a proper prefix coming first. -/
def le : Text → Text → Bool
  | [], _ => true
  | _ :: _, [] => false
  | a :: s, b :: t => a < b || (a = b && le s t)

/-- The texts in the order by code points. -/
def sort (ts : List Text) : List Text := ts.mergeSort le

end Text

end ClientStore
