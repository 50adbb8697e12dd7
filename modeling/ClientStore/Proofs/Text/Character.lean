import ClientStore.Text.Utf8

/-!
# The bytes of a character

A character is a code point that is no surrogate. The sequences of its bytes come in four lengths,
and the tables of `first` tell them apart by ranges of bytes. This module settles the tables, once
per length, so that no later proof looks at a range again.

## Main definitions

* `Spells` — some bytes are the bytes of one character.

## Main results

* `first_of_spells` — a character at the front of some bytes is read, whatever follows it.
* `first_cases` — a byte that begins no character is escaped.
* `isContinuation_of_spells`, `two_le_length_iff` — what the bytes of a character look like from
  the inside.
* `encodePoint?_eq_none_iff`, `spells_or_eq_escape` — which code points have bytes, and which.
-/

namespace ClientStore

/-! ### Code points and bytes as numbers -/

theorem CodePoint.isSurrogate_eq_false_iff (c : CodePoint) :
    c.isSurrogate = false ↔ c.val < 0xD800 ∨ 0xDFFF < c.val := by
  simp [CodePoint.isSurrogate]
  omega

theorem CodePoint.isByteEscape_eq_false {c : CodePoint} (h : c.isSurrogate = false) :
    c.isByteEscape = false := by
  simp [CodePoint.isSurrogate] at h
  simp [CodePoint.isByteEscape]
  omega

theorem CodePoint.val_ofNat {n : Nat} (h : n < 0x110000) : (CodePoint.ofNat n).val = n :=
  Nat.mod_eq_of_lt h

theorem CodePoint.ofNat_eq {n : Nat} {c : CodePoint} (h : n = c.val) : CodePoint.ofNat n = c := by
  subst h
  exact Fin.ext (Nat.mod_eq_of_lt c.isLt)

theorem Text.mem_iff_val_mem {c : CodePoint} {t : Text} : c ∈ t ↔ c.val ∈ t.map Fin.val := by
  refine ⟨List.mem_map_of_mem, fun h => ?_⟩
  obtain ⟨d, hd, hv⟩ := List.mem_map.1 h
  rwa [← Fin.ext hv]

namespace Utf8

theorem toNat_byte {n : Nat} (h : n < 0x100) : (UInt8.ofNat n).toNat = n := by
  rw [UInt8.toNat_ofNat']
  omega

theorem byte_eq {n : Nat} {b : UInt8} (h : n = b.toNat) : UInt8.ofNat n = b := by
  subst h
  exact UInt8.ofNat_toNat

theorem between_iff (lo hi a : UInt8) :
    (decide (lo ≤ a) && decide (a ≤ hi)) = true ↔ lo.toNat ≤ a.toNat ∧ a.toNat ≤ hi.toNat := by
  simp [UInt8.le_iff_toNat_le]

theorem isContinuation_iff (b : UInt8) :
    isContinuation b = true ↔ 0x80 ≤ b.toNat ∧ b.toNat ≤ 0xBF :=
  between_iff 0x80 0xBF b

theorem isSecondOfThree_iff (a b : UInt8) :
    isSecondOfThree a b = true ↔
      isContinuation b = true ∧ (a.toNat = 0xE0 → 0xA0 ≤ b.toNat) ∧
        (a.toNat = 0xED → b.toNat ≤ 0x9F) := by
  simp only [isSecondOfThree, isContinuation_iff, ← UInt8.toNat_inj]
  split
  · next h => simp [UInt8.le_iff_toNat_le] at h ⊢; omega
  split
  · next h => simp [UInt8.le_iff_toNat_le] at h ⊢; omega
  · next h h' =>
    simp [isContinuation_iff] at h h' ⊢
    omega

theorem isSecondOfFour_iff (a b : UInt8) :
    isSecondOfFour a b = true ↔
      isContinuation b = true ∧ (a.toNat = 0xF0 → 0x90 ≤ b.toNat) ∧
        (a.toNat = 0xF4 → b.toNat ≤ 0x8F) := by
  simp only [isSecondOfFour, isContinuation_iff, ← UInt8.toNat_inj]
  split
  · next h => simp [UInt8.le_iff_toNat_le] at h ⊢; omega
  split
  · next h => simp [UInt8.le_iff_toNat_le] at h ⊢; omega
  · next h h' =>
    simp [isContinuation_iff] at h h' ⊢
    omega

/-! ### Characters -/

/-- The bytes are those of the character `c`. -/
def Spells (bytes : Bytes) (c : CodePoint) : Prop :=
  c.isSurrogate = false ∧ encodePoint? c = some bytes

theorem first_one {a : UInt8} (h : a.toNat < 0x80) (rest : Bytes) :
    first a rest = (.ofNat a.toNat, 0) := by
  unfold first
  rw [if_pos (UInt8.lt_iff_toNat_lt.2 h)]

theorem first_two {a b : UInt8} (ha : 0xC2 ≤ a.toNat) (ha' : a.toNat ≤ 0xDF)
    (hb : isContinuation b = true) (rest : Bytes) :
    first a (b :: rest) = (.ofNat (a.toNat % 0x20 * 0x40 + payload b), 1) := by
  simp only [first, UInt8.lt_iff_toNat_lt, between_iff, UInt8.reduceToNat]
  rw [if_neg (by omega), if_pos (by omega), if_pos hb]

theorem first_three {a b c : UInt8} (ha : 0xE0 ≤ a.toNat) (ha' : a.toNat ≤ 0xEF)
    (hb : isSecondOfThree a b = true) (hc : isContinuation c = true) (rest : Bytes) :
    first a (b :: c :: rest) =
      (.ofNat (a.toNat % 0x10 * 0x1000 + payload b * 0x40 + payload c), 2) := by
  simp only [first, UInt8.lt_iff_toNat_lt, between_iff, UInt8.reduceToNat]
  rw [if_neg (by omega), if_neg (by omega), if_pos (by omega), if_pos (by rw [hb, hc]; rfl)]

theorem first_four {a b c d : UInt8} (ha : 0xF0 ≤ a.toNat) (ha' : a.toNat ≤ 0xF4)
    (hb : isSecondOfFour a b = true) (hc : isContinuation c = true)
    (hd : isContinuation d = true) (rest : Bytes) :
    first a (b :: c :: d :: rest) =
      (.ofNat (a.toNat % 0x08 * 0x40000 + payload b * 0x1000 + payload c * 0x40 + payload d),
        3) := by
  simp only [first, UInt8.lt_iff_toNat_lt, between_iff, UInt8.reduceToNat]
  rw [if_neg (by omega), if_neg (by omega), if_neg (by omega), if_pos (by omega),
    if_pos (by rw [hb, hc, hd]; rfl)]

theorem isContinuation_lead {n : Nat} (h : n < 0x80 ∨ 0xC0 ≤ n) (h' : n < 0x100) :
    isContinuation (.ofNat n) = false := by
  rw [Bool.eq_false_iff, ne_eq, isContinuation_iff, toNat_byte h']
  omega

theorem isContinuation_tail (n : Nat) : isContinuation (.ofNat (0x80 + n % 0x40)) = true := by
  rw [isContinuation_iff, toNat_byte (by omega)]
  omega

/-- A character is spelled with one to four bytes. -/
theorem spells_cases {bytes : Bytes} {c : CodePoint} (h : Spells bytes c) :
    c.val < 0x80 ∧ bytes = [.ofNat c.val] ∨
    (0x80 ≤ c.val ∧ c.val < 0x800) ∧
      bytes = [.ofNat (0xC0 + c.val / 0x40), .ofNat (0x80 + c.val % 0x40)] ∨
    (0x800 ≤ c.val ∧ c.val < 0x10000) ∧
      bytes = [.ofNat (0xE0 + c.val / 0x1000), .ofNat (0x80 + c.val / 0x40 % 0x40),
        .ofNat (0x80 + c.val % 0x40)] ∨
    0x10000 ≤ c.val ∧
      bytes = [.ofNat (0xF0 + c.val / 0x40000), .ofNat (0x80 + c.val / 0x1000 % 0x40),
        .ofNat (0x80 + c.val / 0x40 % 0x40), .ofNat (0x80 + c.val % 0x40)] := by
  obtain ⟨hc, h⟩ := h
  have he := CodePoint.isByteEscape_eq_false hc
  simp only [encodePoint?, hc, he, Bool.false_eq_true, if_false] at h
  split at h
  · next h1 => exact .inl ⟨h1, (Option.some.inj h).symm⟩
  split at h
  · next h1 h2 => exact .inr (.inl ⟨⟨by omega, h2⟩, (Option.some.inj h).symm⟩)
  split at h
  · next h1 h2 h3 => exact .inr (.inr (.inl ⟨⟨by omega, h3⟩, (Option.some.inj h).symm⟩))
  · next h1 h2 h3 => exact .inr (.inr (.inr ⟨by omega, (Option.some.inj h).symm⟩))

/-- What makes a character recognisable from its inside: its first byte continues nothing, and all
the others do. -/
theorem isContinuation_of_spells {c : CodePoint} {a : UInt8} {bs : Bytes}
    (h : Spells (a :: bs) c) : isContinuation a = false ∧ ∀ b ∈ bs, isContinuation b = true := by
  have hn := c.isLt
  rcases spells_cases h with ⟨hv, he⟩ | ⟨hv, he⟩ | ⟨hv, he⟩ | ⟨hv, he⟩
  · obtain ⟨rfl, rfl⟩ := List.cons.inj he
    exact ⟨isContinuation_lead (by omega) (by omega), by simp⟩
  · obtain ⟨rfl, rfl⟩ := List.cons.inj he
    refine ⟨isContinuation_lead (by omega) (by omega), ?_⟩
    simp only [List.forall_mem_cons, isContinuation_tail, List.not_mem_nil, false_implies,
      implies_true, and_self]
  · obtain ⟨rfl, rfl⟩ := List.cons.inj he
    refine ⟨isContinuation_lead (by omega) (by omega), ?_⟩
    simp only [List.forall_mem_cons, isContinuation_tail, List.not_mem_nil, false_implies,
      implies_true, and_self]
  · obtain ⟨rfl, rfl⟩ := List.cons.inj he
    refine ⟨isContinuation_lead (by omega) (by omega), ?_⟩
    simp only [List.forall_mem_cons, isContinuation_tail, List.not_mem_nil, false_implies,
      implies_true, and_self]

/-- A character at the front of some bytes is read, whatever follows it. -/
theorem first_of_spells {c : CodePoint} {a : UInt8} {bs : Bytes} (h : Spells (a :: bs) c)
    (rest : Bytes) : first a (bs ++ rest) = (c, bs.length) := by
  have hn := c.isLt
  have hs := (CodePoint.isSurrogate_eq_false_iff c).1 h.1
  rcases spells_cases h with ⟨hv, he⟩ | ⟨hv, he⟩ | ⟨hv, he⟩ | ⟨hv, he⟩
  · obtain ⟨rfl, rfl⟩ := List.cons.inj he
    have ea := toNat_byte (n := c.val) (by omega)
    rw [first_one (by omega)]
    exact congrArg (·, 0) (CodePoint.ofNat_eq (by omega))
  · obtain ⟨rfl, rfl⟩ := List.cons.inj he
    have ea := toNat_byte (n := 0xC0 + c.val / 0x40) (by omega)
    have eb := toNat_byte (n := 0x80 + c.val % 0x40) (by omega)
    rw [List.cons_append, first_two (by omega) (by omega) (isContinuation_tail _)]
    exact congrArg (·, 1) (CodePoint.ofNat_eq (by simp only [payload]; omega))
  · obtain ⟨rfl, rfl⟩ := List.cons.inj he
    have ea := toNat_byte (n := 0xE0 + c.val / 0x1000) (by omega)
    have eb := toNat_byte (n := 0x80 + c.val / 0x40 % 0x40) (by omega)
    have ec := toNat_byte (n := 0x80 + c.val % 0x40) (by omega)
    rw [List.cons_append, List.cons_append, first_three (by omega) (by omega)
      ((isSecondOfThree_iff _ _).2 ⟨isContinuation_tail _, by omega, by omega⟩)
      (isContinuation_tail _)]
    exact congrArg (·, 2) (CodePoint.ofNat_eq (by simp only [payload]; omega))
  · obtain ⟨rfl, rfl⟩ := List.cons.inj he
    have ea := toNat_byte (n := 0xF0 + c.val / 0x40000) (by omega)
    have eb := toNat_byte (n := 0x80 + c.val / 0x1000 % 0x40) (by omega)
    have ec := toNat_byte (n := 0x80 + c.val / 0x40 % 0x40) (by omega)
    have ed := toNat_byte (n := 0x80 + c.val % 0x40) (by omega)
    rw [List.cons_append, List.cons_append, List.cons_append, first_four (by omega) (by omega)
      ((isSecondOfFour_iff _ _).2 ⟨isContinuation_tail _, by omega, by omega⟩)
      (isContinuation_tail _) (isContinuation_tail _)]
    exact congrArg (·, 3) (CodePoint.ofNat_eq (by simp only [payload]; omega))

theorem encodePoint?_one {a : UInt8} (h : a.toNat < 0x80) :
    encodePoint? (.ofNat a.toNat) = some [a] := by
  have hv := CodePoint.val_ofNat (n := a.toNat) (by omega)
  simp only [encodePoint?, hv]
  rw [if_pos h, UInt8.ofNat_toNat]

theorem spells_one {a : UInt8} (h : a.toNat < 0x80) : Spells [a] (.ofNat a.toNat) := by
  refine ⟨(CodePoint.isSurrogate_eq_false_iff _).2 ?_, encodePoint?_one h⟩
  rw [CodePoint.val_ofNat (by omega)]
  omega

theorem spells_two {n : Nat} {a b : UInt8} (ha : 0xC2 ≤ a.toNat) (ha' : a.toNat ≤ 0xDF)
    (hb : isContinuation b = true) (hn : n = a.toNat % 0x20 * 0x40 + payload b) :
    Spells [a, b] (.ofNat n) := by
  rw [isContinuation_iff] at hb
  simp only [payload] at hn
  have hv := CodePoint.val_ofNat (n := n) (by omega)
  refine ⟨(CodePoint.isSurrogate_eq_false_iff _).2 (by omega), ?_⟩
  simp only [encodePoint?, hv]
  rw [if_neg (by omega), if_pos (by omega), byte_eq (b := a) (by omega),
    byte_eq (b := b) (by omega)]

theorem spells_three {n : Nat} {a b c : UInt8} (ha : 0xE0 ≤ a.toNat) (ha' : a.toNat ≤ 0xEF)
    (hb : isSecondOfThree a b = true) (hc : isContinuation c = true)
    (hn : n = a.toNat % 0x10 * 0x1000 + payload b * 0x40 + payload c) :
    Spells [a, b, c] (.ofNat n) := by
  rw [isSecondOfThree_iff, isContinuation_iff] at hb
  rw [isContinuation_iff] at hc
  simp only [payload] at hn
  have hv := CodePoint.val_ofNat (n := n) (by omega)
  have hs : CodePoint.isSurrogate (.ofNat n) = false :=
    (CodePoint.isSurrogate_eq_false_iff _).2 (by omega)
  refine ⟨hs, ?_⟩
  simp only [encodePoint?, hv, hs, CodePoint.isByteEscape_eq_false hs, Bool.false_eq_true, if_false]
  rw [if_neg (by omega), if_neg (by omega), if_pos (by omega), byte_eq (b := a) (by omega),
    byte_eq (b := b) (by omega), byte_eq (b := c) (by omega)]

theorem spells_four {n : Nat} {a b c d : UInt8} (ha : 0xF0 ≤ a.toNat) (ha' : a.toNat ≤ 0xF4)
    (hb : isSecondOfFour a b = true) (hc : isContinuation c = true)
    (hd : isContinuation d = true)
    (hn : n = a.toNat % 0x08 * 0x40000 + payload b * 0x1000 + payload c * 0x40 + payload d) :
    Spells [a, b, c, d] (.ofNat n) := by
  rw [isSecondOfFour_iff, isContinuation_iff] at hb
  rw [isContinuation_iff] at hc hd
  simp only [payload] at hn
  have hv := CodePoint.val_ofNat (n := n) (by omega)
  have hs : CodePoint.isSurrogate (.ofNat n) = false :=
    (CodePoint.isSurrogate_eq_false_iff _).2 (by omega)
  refine ⟨hs, ?_⟩
  simp only [encodePoint?, hv, hs, CodePoint.isByteEscape_eq_false hs, Bool.false_eq_true, if_false]
  rw [if_neg (by omega), if_neg (by omega), if_neg (by omega), byte_eq (b := a) (by omega),
    byte_eq (b := b) (by omega), byte_eq (b := c) (by omega), byte_eq (b := d) (by omega)]

/-- The two things that can stand at the front of some bytes: a whole character, or a byte that is
escaped by itself. -/
theorem first_cases (a : UInt8) (rest : Bytes) :
    (∃ c bs tail, rest = bs ++ tail ∧ Spells (a :: bs) c) ∨
      (0x80 ≤ a.toNat ∧ first a rest = (escape a, 0)) := by
  simp only [first, UInt8.lt_iff_toNat_lt, between_iff, UInt8.reduceToNat]
  split
  · next h => exact .inl ⟨_, [], rest, rfl, spells_one h⟩
  next hone =>
  have ha : 0x80 ≤ a.toNat := by omega
  split
  · next h =>
    split
    · next b tail =>
      split
      · next hb => exact .inl ⟨_, [b], tail, rfl, spells_two h.1 h.2 hb rfl⟩
      · exact .inr ⟨ha, rfl⟩
    · exact .inr ⟨ha, rfl⟩
  split
  · next h =>
    split
    · next b c tail =>
      split
      · next hbc =>
        rw [Bool.and_eq_true] at hbc
        exact .inl ⟨_, [b, c], tail, rfl, spells_three h.1 h.2 hbc.1 hbc.2 rfl⟩
      · exact .inr ⟨ha, rfl⟩
    · exact .inr ⟨ha, rfl⟩
  split
  · next h =>
    split
    · next b c d tail =>
      split
      · next hbcd =>
        rw [Bool.and_eq_true, Bool.and_eq_true] at hbcd
        exact .inl ⟨_, [b, c, d], tail, rfl,
          spells_four h.1 h.2 hbcd.1.1 hbcd.1.2 hbcd.2 rfl⟩
      · exact .inr ⟨ha, rfl⟩
    · exact .inr ⟨ha, rfl⟩
  · exact .inr ⟨ha, rfl⟩

theorem encodePoint?_ne_some_nil (c : CodePoint) : encodePoint? c ≠ some [] := by
  grind [encodePoint?]

theorem exists_cons_of_spells {bytes : Bytes} {c : CodePoint} (h : Spells bytes c) :
    ∃ a bs, bytes = a :: bs :=
  List.exists_cons_of_ne_nil fun hn => encodePoint?_ne_some_nil c (hn ▸ h.2)

/-- Only ASCII is spelled with one byte. -/
theorem two_le_length_iff {a : UInt8} {bs : Bytes} {c : CodePoint} (h : Spells (a :: bs) c) :
    2 ≤ (a :: bs).length ↔ 0x80 ≤ a.toNat := by
  have hn := c.isLt
  rcases spells_cases h with ⟨hv, he⟩ | ⟨hv, he⟩ | ⟨hv, he⟩ | ⟨hv, he⟩
  · obtain ⟨rfl, rfl⟩ := List.cons.inj he
    rw [toNat_byte (by omega)]
    exact iff_of_false (by simp) (by omega)
  · obtain ⟨rfl, rfl⟩ := List.cons.inj he
    rw [toNat_byte (by omega)]
    exact iff_of_true (by simp) (by omega)
  · obtain ⟨rfl, rfl⟩ := List.cons.inj he
    rw [toNat_byte (by omega)]
    exact iff_of_true (by simp) (by omega)
  · obtain ⟨rfl, rfl⟩ := List.cons.inj he
    rw [toNat_byte (by omega)]
    exact iff_of_true (by simp) (by omega)

theorem bytes_of_spells {bytes : Bytes} {c : CodePoint} (hl : 2 ≤ bytes.length)
    (h : Spells bytes c) : ∀ b ∈ bytes, 0x80 ≤ b.toNat := by
  obtain ⟨a, bs, rfl⟩ := exists_cons_of_spells h
  intro b hb
  rcases List.mem_cons.1 hb with rfl | hb
  · exact (two_le_length_iff h).1 hl
  · exact ((isContinuation_iff b).1 ((isContinuation_of_spells h).2 b hb)).1

/-! ### Byte escapes -/

theorem val_escape (a : UInt8) : (escape a).val = 0xDC00 + a.toNat :=
  CodePoint.val_ofNat (by have := a.toNat_lt; omega)

theorem isSurrogate_escape (a : UInt8) : (escape a).isSurrogate = true := by
  have := a.toNat_lt
  simp only [CodePoint.isSurrogate, val_escape, Bool.and_eq_true, decide_eq_true_eq]
  omega

theorem isByteEscape_escape {a : UInt8} (h : 0x80 ≤ a.toNat) : (escape a).isByteEscape = true := by
  have := a.toNat_lt
  simp only [CodePoint.isByteEscape, val_escape, Bool.and_eq_true, decide_eq_true_eq]
  omega

theorem encodePoint?_escape {a : UInt8} (h : 0x80 ≤ a.toNat) :
    encodePoint? (escape a) = some [a] := by
  simp only [encodePoint?, val_escape, isByteEscape_escape h, if_true]
  rw [if_neg (by omega), if_neg (by omega), byte_eq (b := a) (by omega)]

/-- The byte escapes are the escapes of the bytes that are no ASCII. -/
theorem exists_escape_of_isByteEscape {c : CodePoint} (h : c.isByteEscape = true) :
    ∃ a : UInt8, 0x80 ≤ a.toNat ∧ c = escape a := by
  simp only [CodePoint.isByteEscape, Bool.and_eq_true, decide_eq_true_eq] at h
  have hb := toNat_byte (n := c.val - 0xDC00) (by omega)
  exact ⟨.ofNat (c.val - 0xDC00), by omega, (CodePoint.ofNat_eq (by omega)).symm⟩

/-- Only the surrogates that are no byte escapes have no bytes. -/
theorem encodePoint?_eq_none_iff (c : CodePoint) :
    encodePoint? c = none ↔ c.isSurrogate = true ∧ c.isByteEscape = false := by
  by_cases hs : c.isSurrogate = true
  · by_cases he : c.isByteEscape = true
    · obtain ⟨a, ha, rfl⟩ := exists_escape_of_isByteEscape he
      simp [encodePoint?_escape ha, he]
    · have hr := hs
      simp only [CodePoint.isSurrogate, Bool.and_eq_true, decide_eq_true_eq] at hr
      simp only [encodePoint?, he, hs, Bool.false_eq_true, if_false, if_true]
      rw [if_neg (by omega), if_neg (by omega)]
      simp
  · have he := CodePoint.isByteEscape_eq_false (Bool.eq_false_iff.2 hs)
    simp only [encodePoint?, hs, he, Bool.false_eq_true, if_false, false_and, iff_false]
    repeat' split
    all_goals simp

/-- Every code point that has bytes is a character or a byte escape. -/
theorem spells_or_eq_escape {c : CodePoint} {bytes : Bytes} (h : encodePoint? c = some bytes) :
    Spells bytes c ∨ ∃ a : UInt8, 0x80 ≤ a.toNat ∧ c = escape a ∧ bytes = [a] := by
  by_cases he : c.isByteEscape = true
  · obtain ⟨a, ha, rfl⟩ := exists_escape_of_isByteEscape he
    rw [encodePoint?_escape ha] at h
    exact .inr ⟨a, ha, rfl, (Option.some.inj h).symm⟩
  · have hs : ¬ (c.isSurrogate = true ∧ c.isByteEscape = false) := by
      intro hs
      rw [(encodePoint?_eq_none_iff c).2 hs] at h
      contradiction
    exact .inl ⟨by simpa [he] using hs, h⟩

end Utf8

end ClientStore
