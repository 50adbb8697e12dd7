import ClientStore.Session.Buffer
import Mathlib.Data.List.Induction

/-!
# How much is held back

Lines that are pushed into a buffer come out later, and always as whole lines: neither the block nor
what is gathered ever ends within a line. How many bytes are gathered depends on nothing but the
lengths of the lines. Short lines only pile up; a line that makes it exactly enough, or that is
enough by itself, takes everything before it along; and any other line that does not fit any more
sends the ones before it on without it.

## Main definitions

* `LineBuffer.after` — the buffer after some lines.
* `LineBuffer.levelsAfter` — how many bytes are held back after lines of some lengths.
* `LineBuffer.Lags` — how far what came out of a buffer is behind what was pushed into it.

## Main results

* `LineBuffer.exists_lags_after` — what is held back after any lines are some of the last ones.
-/

namespace ClientStore

namespace LineBuffer

variable {b : LineBuffer} {lines : List Bytes} {line block data : Bytes} {due : Bool}

/-- What is held back after some lines were pushed into an empty buffer. -/
def after (lines : List Bytes) : LineBuffer := lines.foldl (fun b line => (b.push line).2) .empty

theorem after_concat (lines : List Bytes) (line : Bytes) :
    after (lines ++ [line]) = ((after lines).push line).2 := by
  rw [after, List.foldl_append]
  rfl

/-! ### Whole lines -/

/-- The lines are what is held back, and some first ones of them are in the block. -/
def IsOf (lines : List Bytes) (b : LineBuffer) : Prop :=
  ∃ front back, front ++ back = lines ∧ b.block = front.flatten ∧ b.gathered = back.flatten

theorem IsOf.held_eq (h : IsOf lines b) : b.held = lines.flatten := by
  obtain ⟨front, back, rfl, hblock, hgathered⟩ := h
  rw [held, hblock, hgathered, List.flatten_append]

/-- When lines are handed on, some first ones of them come out. -/
theorem IsOf.handOn (h : IsOf lines b) (due : Bool) :
    ∃ out kept, out ++ kept = lines ∧ IsOf kept (b.handOn due).2 := by
  cases due with
  | false => exact ⟨[], lines, rfl, h⟩
  | true =>
    obtain ⟨front, back, rfl, hblock, hgathered⟩ := h
    have hkept : (b.handOn true).2 = ⟨(fill b.block b.gathered).2, []⟩ := rfl
    rw [hkept, fill]
    split
    · refine ⟨[], front ++ back, rfl, front ++ back, [], List.append_nil _, ?_, rfl⟩
      rw [hblock, hgathered, List.flatten_append]
    · split
      · exact ⟨front ++ back, [], List.append_nil _, [], [], rfl, rfl, rfl⟩
      · exact ⟨front, back, rfl, back, [], List.append_nil _, hgathered, rfl⟩

/-- A line that is pushed is the last of the lines that are held back, or nothing is. -/
theorem IsOf.push (h : IsOf lines b) (line : Bytes) :
    ∃ out kept, out ++ kept = lines ++ [line] ∧ IsOf kept (b.push line).2 := by
  obtain ⟨out, kept, rfl, front, back, rfl, hblock, hgathered⟩ :=
    h.handOn (enough < (b.gathered ++ line).length)
  have hroom : IsOf (front ++ (back ++ [line]))
      { (b.handOn (enough < (b.gathered ++ line).length)).2 with
        gathered := (b.handOn (enough < (b.gathered ++ line).length)).2.gathered ++ line } :=
    ⟨front, back ++ [line], rfl, hblock, by rw [List.flatten_concat, hgathered]⟩
  obtain ⟨out', kept', heq, hkept⟩ := hroom.handOn _
  exact ⟨out ++ out', kept', by rw [List.append_assoc, heq]; simp, hkept⟩

theorem exists_isOf_after (lines : List Bytes) :
    ∃ seen waiting, seen ++ waiting = lines ∧ IsOf waiting (after lines) := by
  induction lines using List.reverseRecOn with
  | nil => exact ⟨[], [], rfl, [], [], rfl, rfl, rfl⟩
  | append_singleton lines line ih =>
    obtain ⟨seen, waiting, rfl, h⟩ := ih
    obtain ⟨out, kept, heq, hkept⟩ := h.push line
    refine ⟨seen ++ out, kept, ?_, ?_⟩
    · rw [List.append_assoc, heq, List.append_assoc]
    · rwa [after_concat]

/-! ### Lengths -/

/-- How many bytes are in the block and how many are gathered. -/
def levels (b : LineBuffer) : Nat × Nat := (b.block.length, b.gathered.length)

/-- How many bytes stay in a block of `block` ones to which `gathered` ones are added. -/
def settle (block gathered : Nat) : Nat :=
  if block + gathered ≤ blockSize then block + gathered
  else if blockSize < gathered then 0
  else gathered

/-- The levels after a line of `n` bytes. -/
def rise : Nat × Nat → Nat → Nat × Nat
  | (block, gathered), n =>
    if gathered + n < enough then (block, gathered + n)
    else if gathered + n = enough ∨ enough ≤ n then (0, 0)
    else (settle block gathered, n)

/-- The levels after lines of some lengths. -/
def levelsAfter (lengths : List Nat) : Nat × Nat := lengths.foldl rise (0, 0)

theorem fill_of_lt (h : blockSize < data.length) : fill block data = (block ++ data, []) := by
  rw [fill, if_neg (by omega), if_pos h]

theorem length_fill (block data : Bytes) :
    (fill block data).2.length = settle block.length data.length := by
  rw [fill, settle]
  split
  · exact List.length_append
  · split <;> rfl

theorem settle_le (block gathered : Nat) : settle block gathered ≤ blockSize := by
  rw [settle]
  split
  · assumption
  · split
    · exact Nat.zero_le _
    · exact Nat.le_of_not_lt ‹_›

/-- A line after which there is not enough is only gathered. -/
theorem gather_of_lt (h : b.gathered.length + line.length < enough) :
    b.gather line = ([], ⟨b.block, b.gathered ++ line⟩) := by
  rw [← List.length_append] at h
  rw [gather, decide_eq_false (Nat.not_le_of_lt h)]
  rfl

/-- A line after which there is enough takes everything along. -/
theorem gather_of_le (h : enough ≤ b.gathered.length + line.length) :
    (b.gather line).2 = empty := by
  rw [← List.length_append] at h
  have hdata : blockSize < (b.gathered ++ line).length := Nat.lt_of_lt_of_le (by decide) h
  rw [gather, decide_eq_true h]
  show (⟨(fill b.block (b.gathered ++ line)).2, []⟩ : LineBuffer) = empty
  rw [fill_of_lt hdata]
  rfl

/-- A line that does not make it more than enough is gathered with the ones before it. -/
theorem push_of_le (h : b.gathered.length + line.length ≤ enough) :
    b.push line = b.gather line := by
  rw [← List.length_append] at h
  rw [push, decide_eq_false (Nat.not_lt_of_le h)]
  rfl

/-- The ones before it do not wait for a line that would make it more than enough. -/
theorem push_of_lt (h : enough < b.gathered.length + line.length) :
    (b.push line).2 = ((⟨(fill b.block b.gathered).2, []⟩ : LineBuffer).gather line).2 := by
  rw [← List.length_append] at h
  rw [push, decide_eq_true h]
  rfl

/-- What is held back when a line is pushed: it and all before it, or nothing, or only the line with
what fits into the block. -/
theorem push_cases (b : LineBuffer) (line : Bytes) :
    (b.gathered.length + line.length < enough ∧
      (b.push line).2 = ⟨b.block, b.gathered ++ line⟩) ∨
    ((b.gathered.length + line.length = enough ∨ enough ≤ line.length) ∧
      (b.push line).2 = empty) ∨
    (enough < b.gathered.length + line.length ∧ line.length < enough ∧
      (b.push line).2 = ⟨(fill b.block b.gathered).2, line⟩) := by
  rcases Nat.lt_trichotomy (b.gathered.length + line.length) enough with hlt | heq | hgt
  · exact .inl ⟨hlt, by rw [push_of_le (Nat.le_of_lt hlt), gather_of_lt hlt]⟩
  · refine .inr (.inl ⟨.inl heq, ?_⟩)
    rw [push_of_le (Nat.le_of_eq heq), gather_of_le (Nat.le_of_eq heq.symm)]
  · rw [push_of_lt hgt]
    have hlength : ([] : Bytes).length + line.length = line.length := Nat.zero_add _
    by_cases hline : enough ≤ line.length
    · exact .inr (.inl ⟨.inr hline, gather_of_le (hlength.symm ▸ hline)⟩)
    · have hlt := Nat.lt_of_not_le hline
      exact .inr (.inr ⟨hgt, hlt, by rw [gather_of_lt (hlength.symm ▸ hlt)]; rfl⟩)

theorem levels_push (b : LineBuffer) (line : Bytes) :
    (b.push line).2.levels = rise b.levels line.length := by
  rw [levels, levels, rise]
  rcases push_cases b line with ⟨hlt, heq⟩ | ⟨hdue, heq⟩ | ⟨hmore, hlt, heq⟩
  · rw [heq, if_pos hlt, List.length_append]
  · rw [heq, if_neg (by omega), if_pos hdue]
    rfl
  · rw [heq, if_neg (by omega), if_neg (by omega), length_fill]

theorem levels_after (lines : List Bytes) :
    (after lines).levels = levelsAfter (lines.map List.length) := by
  induction lines using List.reverseRecOn with
  | nil => rfl
  | append_singleton lines line ih =>
    rw [after_concat, levels_push, ih, List.map_append, levelsAfter, levelsAfter,
      List.foldl_append]
    rfl

/-- What a buffer can hold. There is nothing in the block unless something is gathered. -/
structure IsBounded (b : LineBuffer) : Prop where
  block_le : b.block.length ≤ blockSize
  gathered_lt : b.gathered.length < enough
  block_eq : b.gathered = [] → b.block = []

theorem IsBounded.push (h : IsBounded b) (hline : line ≠ []) : IsBounded (b.push line).2 := by
  rcases push_cases b line with ⟨hlt, heq⟩ | ⟨-, heq⟩ | ⟨-, hlt, heq⟩
  · rw [heq]
    refine ⟨h.block_le, by rwa [List.length_append], fun hnil => ?_⟩
    exact absurd (List.append_eq_nil_iff.1 hnil).2 hline
  · rw [heq]
    exact ⟨Nat.zero_le _, by decide, fun _ => rfl⟩
  · rw [heq]
    exact ⟨length_fill _ _ ▸ settle_le _ _, hlt, fun hnil => absurd hnil hline⟩

theorem isBounded_after (h : [] ∉ lines) : IsBounded (after lines) := by
  induction lines using List.reverseRecOn with
  | nil => exact ⟨Nat.zero_le _, by decide, fun _ => rfl⟩
  | append_singleton lines line ih =>
    rw [List.mem_append, List.mem_singleton, not_or] at h
    rw [after_concat]
    exact (ih h.1).push (Ne.symm h.2)

/-- As long as there is not enough, everything is gathered. -/
theorem after_of_lt (h : lines.flatten.length < enough) : after lines = ⟨[], lines.flatten⟩ := by
  induction lines using List.reverseRecOn with
  | nil => rfl
  | append_singleton lines line ih =>
    rw [List.flatten_append, List.flatten_singleton] at h ⊢
    rw [List.length_append] at h
    rw [after_concat, ih (by omega), push_of_le (Nat.le_of_lt h), gather_of_lt h]

/-! ### What came out -/

/-- How far what came out of a buffer is behind what was pushed into it. -/
structure Lags (seen waiting : List Bytes) : Prop where
  /-- What waits is a matter of the lengths of all the lines. -/
  length_eq : waiting.flatten.length =
    (levelsAfter ((seen ++ waiting).map List.length)).1 +
      (levelsAfter ((seen ++ waiting).map List.length)).2
  /-- Nothing waits exactly if nothing is gathered. -/
  waiting_eq_nil_iff : waiting = [] ↔ (levelsAfter ((seen ++ waiting).map List.length)).2 = 0
  /-- Nothing comes out before there is enough. -/
  seen_eq_nil : (seen ++ waiting).flatten.length < enough → seen = []
  /-- Never more waits than the block and what is gathered can have. -/
  length_lt : waiting.flatten.length < blockSize + enough

/-- Where no line is empty, only no lines at all have no bytes. -/
theorem eq_nil_of_flatten_eq_nil (h : [] ∉ lines) (he : lines.flatten = []) : lines = [] := by
  refine List.eq_nil_iff_forall_not_mem.2 fun line hline => h ?_
  rwa [← List.flatten_eq_nil_iff.1 he line hline]

/-- **What is held back after any lines are some of the last ones**, and how many they are is a
matter of their lengths. -/
theorem exists_lags_after (h : [] ∉ lines) :
    ∃ seen waiting, seen ++ waiting = lines ∧ (after lines).held = waiting.flatten ∧
      Lags seen waiting := by
  have hbounded := isBounded_after h
  have hlevels := levels_after lines
  obtain ⟨seen, waiting, rfl, hof⟩ := exists_isOf_after lines
  have hheld := hof.held_eq
  have hlength : waiting.flatten.length =
      (after (seen ++ waiting)).block.length + (after (seen ++ waiting)).gathered.length := by
    rw [← hheld, held, List.length_append]
  refine ⟨seen, waiting, rfl, hheld, ⟨?_, ⟨?_, ?_⟩, fun hlt => ?_, ?_⟩⟩
  · rw [hlength, ← hlevels]
    rfl
  · rintro rfl
    rw [← hlevels, levels, (List.append_eq_nil_iff.1 hheld).2, List.length_nil]
  · intro hzero
    rw [← hlevels] at hzero
    have hgathered : (after (seen ++ waiting)).gathered = [] := List.length_eq_zero_iff.1 hzero
    refine eq_nil_of_flatten_eq_nil (fun hm => h (List.mem_append_right _ hm)) ?_
    rw [← hheld, held, hgathered, hbounded.block_eq hgathered, List.append_nil]
  · refine eq_nil_of_flatten_eq_nil (fun hm => h (List.mem_append_left _ hm)) ?_
    rw [after_of_lt hlt, List.flatten_append] at hheld
    exact List.append_left_eq_self.1 hheld
  · rw [hlength]
    have hblock := hbounded.block_le
    have hgathered := hbounded.gathered_lt
    omega

end LineBuffer

end ClientStore
