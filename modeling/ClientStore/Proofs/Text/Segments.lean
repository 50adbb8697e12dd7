import ClientStore.Proofs.Text.Sanitize

/-!
# Texts are made safe segment by segment

A segment of a text is a control character with the characters behind it that are none. What is
shown of a text is what is shown of its segments, one after the other: an escape sequence has no
control character in it but its first, so that it never reaches into the next segment, and what is
left when it is taken away is spelled out character by character.

So it is enough to know what is shown of one segment. If it begins with an escape sequence, that is
taken away; otherwise its control character is spelled out.

## Main results

* `Sanitize.IsTail.unique` — at most one beginning of a text completes an escape sequence.
* `Text.sanitized_append` — what is shown of a text that is cut before a control character.
* `Text.sanitized_by_segments` — what is shown of any text.
-/

namespace ClientStore

namespace Sanitize

variable {t x z tail rest : Text} {c : CodePoint}

/-! ### Where a sequence ends -/

/-- There are no control characters in what completes a sequence. -/
theorem IsTail.isClean (h : IsTail tail) : tail.IsClean := Text.isClean_of_isGraphic h.isGraphic

/-- **At most one beginning of a text completes a sequence.** -/
theorem IsTail.unique {tail' rest' : Text} (h : IsTail tail) (h' : IsTail tail')
    (heq : tail ++ rest = tail' ++ rest') : tail = tail' := by
  have hlength : some tail.length = some tail'.length := by
    rw [← tailLength?_append_of_isTail h rest, ← tailLength?_append_of_isTail h' rest', heq]
  exact (List.append_inj heq (Option.some.inj hlength)).1

theorem le_length_of_tailLength? {n : Nat} (h : tailLength? t = some n) : n ≤ t.length := by
  obtain ⟨tail, rest, -, rfl, rfl⟩ := tailLength?_eq_some_iff.1 h
  simp

/-- Where a sequence ends does not depend on what follows from a control character on. -/
theorem tailLength?_append (hc : isControl c = true) (x z : Text) :
    tailLength? (x ++ c :: z) = tailLength? x := by
  refine Option.ext fun n => ?_
  rw [tailLength?_eq_some_iff, tailLength?_eq_some_iff]
  constructor
  · rintro ⟨tail, rest, htail, heq, hn⟩
    rcases List.append_eq_append_iff.1 heq with ⟨more, rfl, hmore⟩ | ⟨more, rfl, -⟩
    · cases more with
      | nil => exact ⟨x ++ [], [], htail, by simp, hn⟩
      | cons d more =>
        -- the control character would be one of those that complete the sequence
        obtain rfl : c = d := (List.cons.inj hmore).1
        have hclean := htail.isClean c (by simp)
        rw [hc] at hclean
        contradiction
    · exact ⟨tail, more, htail, rfl, hn⟩
  · rintro ⟨tail, rest, htail, rfl, hn⟩
    exact ⟨tail, rest ++ c :: z, htail, List.append_assoc _ _ _, hn⟩

/-! ### Sequences are taken away segment by segment -/

/-- **A sequence does not reach over a control character.** The induction is on the text before it,
of which at most everything is skipped. -/
theorem withoutSequencesAfter_append (hc : isControl c = true) {skip : Nat}
    (hs : skip ≤ x.length) (z : Text) :
    withoutSequencesAfter skip (x ++ c :: z) =
      withoutSequencesAfter skip x ++ withoutSequences (c :: z) := by
  induction x generalizing skip with
  | nil =>
    obtain rfl : skip = 0 := Nat.le_zero.1 hs
    rfl
  | cons a x ih =>
    cases skip with
    | succ skip => exact ih (Nat.le_of_succ_le_succ hs)
    | zero =>
      rw [List.cons_append, withoutSequencesAfter, withoutSequencesAfter, tailLength?_append hc]
      split
      case isFalse => rw [ih (Nat.zero_le _), List.cons_append]
      split
      next n hn => exact ih (le_length_of_tailLength? hn)
      next => rw [ih (Nat.zero_le _), List.cons_append]

/-- Where there is no escape character, nothing is taken away. -/
theorem withoutSequencesAfter_of_isClean (h : t.IsClean) (skip : Nat) :
    withoutSequencesAfter skip t = t.drop skip := by
  induction t generalizing skip with
  | nil => simp [withoutSequencesAfter]
  | cons a t ih =>
    obtain ⟨ha, ht⟩ := Text.isClean_cons.1 h
    cases skip with
    | succ skip => exact ih ht skip
    | zero =>
      have hne : a ≠ esc := by
        rintro rfl
        exact absurd ha (by decide)
      rw [withoutSequencesAfter, if_neg hne, ih ht]
      rfl

theorem flatMap_visible_of_isClean (h : t.IsClean) : t.flatMap visible = t := by
  induction t with
  | nil => rfl
  | cons a t ih =>
    obtain ⟨ha, ht⟩ := Text.isClean_cons.1 h
    rw [List.flatMap_cons, ih ht, visible, ha]
    rfl

end Sanitize

namespace Text

open Sanitize

variable {t x z : Text} {c : CodePoint}

/-- **What is shown of a text that is cut before a control character** is what is shown of the two
parts. -/
theorem sanitized_append (hc : isControl c = true) (x z : Text) :
    (x ++ c :: z).sanitized = x.sanitized ++ Text.sanitized (c :: z) := by
  rw [sanitized, withoutSequences, withoutSequencesAfter_append hc (Nat.zero_le _),
    List.flatMap_append]
  rfl

/-- A clean text is shown as it is. -/
theorem sanitized_of_isClean (h : t.IsClean) : t.sanitized = t := by
  rw [sanitized, withoutSequences, withoutSequencesAfter_of_isClean h, List.drop_zero,
    flatMap_visible_of_isClean h]

/-- A segment that begins with a sequence is shown without it. -/
theorem sanitized_of_isTail {tail rest : Text} (h : IsTail tail) (hz : (tail ++ rest).IsClean) :
    Text.sanitized (esc :: (tail ++ rest)) = rest := by
  have hrest : rest.IsClean := (isClean_append.1 hz).2
  rw [sanitized, withoutSequences, withoutSequencesAfter, if_pos rfl,
    tailLength?_append_of_isTail h]
  dsimp only
  rw [withoutSequencesAfter_of_isClean hz, List.drop_left, flatMap_visible_of_isClean hrest]

/-- The control character of any other segment is spelled out. -/
theorem sanitized_of_not_isTail (hc : isControl c = true) (hz : z.IsClean)
    (h : ¬ (c = esc ∧ ∃ tail rest, IsTail tail ∧ z = tail ++ rest)) :
    Text.sanitized (c :: z) = .ofChar '\\' :: .ofChar 'x' :: (Hex.padded 2 c.val ++ z) := by
  have hkept : withoutSequences (c :: z) = c :: z := by
    have hz' : withoutSequencesAfter 0 z = z := withoutSequencesAfter_of_isClean hz 0
    rw [withoutSequences, withoutSequencesAfter, hz']
    split
    case isFalse => rfl
    rename_i he
    split
    next n hn =>
      obtain ⟨tail, rest, htail, hsplit, -⟩ := tailLength?_eq_some_iff.1 hn
      exact absurd ⟨he, tail, rest, htail, hsplit⟩ h
    next => rfl
  rw [sanitized, hkept, List.flatMap_cons, flatMap_visible_of_isClean hz, visible, if_pos hc]
  rfl

/-- **What is shown of any text.** It is what is shown of its segments. Of a segment that begins
with an escape sequence it is what is behind that, and of any other segment it is the segment with
its control character spelled out in two digits. What is in front of all segments is shown as it is,
and so is what is shown already. -/
theorem sanitized_by_segments :
    (∀ {c : CodePoint}, isControl c = true → ∀ x z : Text,
      (x ++ c :: z).sanitized = x.sanitized ++ Text.sanitized (c :: z)) ∧
    (∀ {tail rest : Text}, IsTail tail → (tail ++ rest).IsClean →
      Text.sanitized (esc :: (tail ++ rest)) = rest ∧
        ∀ tail' rest', IsTail tail' → tail ++ rest = tail' ++ rest' →
          tail' = tail ∧ rest' = rest) ∧
    (∀ {c : CodePoint} {z : Text}, isControl c = true → z.IsClean →
      ¬ (c = esc ∧ ∃ tail rest, IsTail tail ∧ z = tail ++ rest) →
        Text.sanitized (c :: z) =
          .ofChar '\\' :: .ofChar 'x' :: Hex.lower (c.val / 16) :: Hex.lower (c.val % 16) :: z) ∧
    (∀ {t : Text}, t.IsClean → t.sanitized = t) ∧
    ∀ t : Text, t.sanitized.sanitized = t.sanitized := by
  refine ⟨sanitized_append, fun h hz => ⟨sanitized_of_isTail h hz, fun tail' rest' h' heq => ?_⟩,
    fun {c z} hc hz h => ?_,
    sanitized_of_isClean, fun t => sanitized_of_isClean (isClean_sanitized t)⟩
  · obtain rfl := h.unique h' heq
    exact ⟨rfl, (List.append_cancel_left heq).symm⟩
  · rw [sanitized_of_not_isTail hc hz h]
    have hdigit : c.val / 16 % 16 = c.val / 16 := by
      rw [isControl_eq_true_iff] at hc
      omega
    show _ :: _ :: Hex.lower (c.val / 16 % 16) :: Hex.lower (c.val % 16) :: z = _
    rw [hdigit]

/-- Two escape characters with the rest of two sequences behind them. The second one begins a
sequence; the first one does not, and it is not taken for the beginning of what is left then. -/
theorem sanitized_by_segments_nested :
    sanitized (.ofChar 'a' :: esc :: esc :: ofString "[2J[2J") = "a\\x1b[2J" := by
  obtain ⟨happend, htaken, hspelled, hclean, -⟩ := sanitized_by_segments
  have hesc : isControl esc = true := by decide
  have hparameters : ∀ c ∈ ([.ofChar '2'] : Text), isParameter c = true :=
    List.forall_mem_singleton.2 (by decide)
  have hfinal : isFinal (.ofChar 'J') = true := by decide
  have htail : IsTail "[2J" := .control hparameters (List.forall_mem_nil _) hfinal
  have hsecond : sanitized (esc :: ("[2J" ++ "[2J")) = "[2J" := (htaken htail (by decide)).1
  have hno : ¬ (esc = esc ∧ ∃ tail rest, IsTail tail ∧ ([] : Text) = tail ++ rest) := by
    rintro ⟨-, tail, rest, htail, heq⟩
    obtain ⟨rfl, -⟩ := List.append_eq_nil_iff.1 heq.symm
    cases htail
  have hfirst : sanitized [esc] = "\\x1b" := hspelled hesc isClean_nil hno
  have hplain : sanitized [.ofChar 'a'] = [.ofChar 'a'] := hclean (by decide)
  have hfront : sanitized [.ofChar 'a', esc] = "a\\x1b" := by
    refine (happend hesc [.ofChar 'a'] []).trans ?_
    rw [hplain, hfirst]
    rfl
  refine (happend hesc [.ofChar 'a', esc] (ofString "[2J[2J")).trans ?_
  rw [hfront]
  exact congrArg _ hsecond

end Text

end ClientStore
