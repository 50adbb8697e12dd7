import ClientStore.Proofs.Text.Character

/-!
# Decoding takes back what encoding writes

Bytes and texts are not in bijection: every byte string is the encoding of some text, but two texts
can have the same bytes, since a run of byte escapes may happen to spell a character. This module
says exactly when that happens.

Reading a byte string is an induction with two steps, `decode_induction`: either a whole character
stands at the front, or the first byte is part of none and is escaped.

## Main definitions

* `ConcealsCharacter` — a text has a run of byte escapes that spells a character.
* `Survives` — a text is written and read back unchanged.

## Main results

* `encode?_decode` — decoding loses nothing.
* `decode_append` — a decoder can be stopped before any byte that continues no character.
* `decode_encode_eq_iff` — writing and reading keeps a text exactly if it conceals no character.
-/

namespace ClientStore.Utf8

/-! ### Reading -/

theorem decodeAfter_eq_decode_drop (n : Nat) (bytes : Bytes) :
    decodeAfter n bytes = decode (bytes.drop n) := by
  induction bytes generalizing n with
  | nil => cases n <;> rfl
  | cons a rest ih =>
    cases n with
    | zero => rfl
    | succ n => exact ih n

/-- A character at the front is read as itself. -/
theorem decode_append_of_spells {bytes : Bytes} {c : CodePoint} (h : Spells bytes c)
    (rest : Bytes) : decode (bytes ++ rest) = c :: decode rest := by
  obtain ⟨a, bs, rfl⟩ := exists_cons_of_spells h
  show (first a (bs ++ rest)).1 :: decodeAfter (first a (bs ++ rest)).2 (bs ++ rest) = _
  rw [first_of_spells h, decodeAfter_eq_decode_drop, List.drop_left]

/-- **Induction along a byte string as it is read.** -/
theorem decode_induction {P : Bytes → Prop} (nil : P [])
    (character : ∀ bytes c tail, Spells bytes c → P tail → P (bytes ++ tail))
    (stray : ∀ a tail, 0x80 ≤ a.toNat → decode (a :: tail) = escape a :: decode tail → P tail →
      P (a :: tail)) : ∀ bytes, P bytes
  | [] => nil
  | a :: rest => by
    rcases first_cases a rest with ⟨c, bs, tail, rfl, hc⟩ | ⟨ha, hf⟩
    · have := decode_induction nil character stray tail
      exact character (a :: bs) c tail hc this
    · refine stray a rest ha ?_ (decode_induction nil character stray rest)
      show (first a rest).1 :: decodeAfter (first a rest).2 rest = _
      rw [hf]
      rfl
  termination_by bytes => bytes.length

theorem encode?_cons (c : CodePoint) (t : Text) :
    encode? (c :: t) = (encodePoint? c).bind fun bytes => (encode? t).map (bytes ++ ·) := rfl

theorem encode?_cons_eq_some {c : CodePoint} {t : Text} {bytes : Bytes}
    (h : encode? (c :: t) = some bytes) :
    ∃ front back, encodePoint? c = some front ∧ encode? t = some back ∧ bytes = front ++ back := by
  rw [encode?_cons] at h
  obtain ⟨front, hf, h⟩ := Option.bind_eq_some_iff.1 h
  obtain ⟨back, hb, rfl⟩ := Option.map_eq_some_iff.1 h
  exact ⟨front, back, hf, hb, rfl⟩

theorem encode?_append {s t : Text} {front back : Bytes} (hs : encode? s = some front)
    (ht : encode? t = some back) : encode? (s ++ t) = some (front ++ back) := by
  induction s generalizing front with
  | nil =>
    cases hs
    exact ht
  | cons c s ih =>
    obtain ⟨bytes, rest, hc, hr, rfl⟩ := encode?_cons_eq_some hs
    rw [List.cons_append, encode?_cons, hc, ih hr, List.append_assoc]
    rfl

theorem exists_of_encode?_append {s t : Text} : ∀ {bytes : Bytes}, encode? (s ++ t) = some bytes →
    ∃ front back, encode? s = some front ∧ encode? t = some back ∧ bytes = front ++ back := by
  induction s with
  | nil => exact fun {bytes} h => ⟨[], bytes, rfl, h, rfl⟩
  | cons c s ih =>
    intro bytes h
    obtain ⟨bc, rest, hc, hr, rfl⟩ := encode?_cons_eq_some h
    obtain ⟨front, back, hf, hb, rfl⟩ := ih hr
    refine ⟨bc ++ front, back, ?_, hb, (List.append_assoc ..).symm⟩
    rw [encode?_cons, hc, hf]
    rfl

theorem spells_unique {bytes : Bytes} {c d : CodePoint} (hc : Spells bytes c)
    (hd : Spells bytes d) : c = d := by
  have h := decode_append_of_spells hc []
  rw [decode_append_of_spells hd] at h
  exact (List.cons.inj h).1.symm

/-- ASCII stands for itself and nothing else contains it. -/
theorem mem_encodePoint?_iff {c : CodePoint} {bytes : Bytes} {x : UInt8} (hx : x.toNat < 0x80)
    (h : encodePoint? c = some bytes) : x ∈ bytes ↔ c = .ofNat x.toNat := by
  constructor
  · intro hm
    rcases spells_or_eq_escape h with hc | ⟨a, ha, rfl, rfl⟩
    · by_cases hl : 2 ≤ bytes.length
      · exact absurd (bytes_of_spells hl hc x hm) (by omega)
      · obtain ⟨a, bs, rfl⟩ := exists_cons_of_spells hc
        rw [List.length_cons] at hl
        obtain rfl : bs = [] := List.length_eq_zero_iff.1 (by omega)
        rw [List.mem_singleton] at hm
        subst hm
        exact spells_unique hc (spells_one hx)
    · rw [List.mem_singleton] at hm
      subst hm
      omega
  · rintro rfl
    rw [encodePoint?_one hx] at h
    cases h
    simp

theorem mem_encode?_iff {x : UInt8} (hx : x.toNat < 0x80) {t : Text} : ∀ {bytes : Bytes},
    encode? t = some bytes → (x ∈ bytes ↔ CodePoint.ofNat x.toNat ∈ t) := by
  induction t with
  | nil =>
    intro bytes h
    cases h
    simp
  | cons c t ih =>
    intro bytes h
    obtain ⟨front, back, hf, hb, rfl⟩ := encode?_cons_eq_some h
    rw [List.mem_append, List.mem_cons, mem_encodePoint?_iff hx hf, ih hb, eq_comm]

/-- ASCII is written as itself. -/
theorem encode?_of_ascii {t : Text} (h : ∀ c ∈ t, c.val < 0x80) :
    encode? t = some (t.map fun c => .ofNat c.val) := by
  induction t with
  | nil => rfl
  | cons c t ih =>
    have hc : encodePoint? c = some [.ofNat c.val] := if_pos (h c (by simp))
    rw [encode?_cons, hc, ih fun d hd => h d (List.mem_cons_of_mem _ hd)]
    rfl

/-- Only the text of the same ASCII characters is written as ASCII. -/
theorem eq_map_of_encode?_eq_some {t : Text} : ∀ {bytes : Bytes}, (∀ b ∈ bytes, b.toNat < 0x80) →
    encode? t = some bytes → t = bytes.map fun b => .ofNat b.toNat := by
  induction t with
  | nil =>
    intro bytes _ h
    cases h
    rfl
  | cons c t ih =>
    intro bytes hb h
    obtain ⟨front, back, hf, hback, rfl⟩ := encode?_cons_eq_some h
    have hfront : ∀ b ∈ front, b.toNat < 0x80 := fun b hm => hb b (List.mem_append_left _ hm)
    have ht := ih (fun b hm => hb b (List.mem_append_right _ hm)) hback
    rcases spells_or_eq_escape hf with hc | ⟨a, ha, -, rfl⟩
    · obtain ⟨a, bs, rfl⟩ := exists_cons_of_spells hc
      have ha := hfront a (by simp)
      have hlen := mt (two_le_length_iff hc).1 (Nat.not_le.2 ha)
      obtain rfl : bs = [] := by simpa using hlen
      rw [spells_unique hc (spells_one ha), ht]
      rfl
    · exact absurd ha (Nat.not_le.2 (hfront a (by simp)))

/-- **Decoding loses nothing.** -/
theorem encode?_decode (bytes : Bytes) : encode? (decode bytes) = some bytes := by
  induction bytes using decode_induction with
  | nil => rfl
  | character bytes c tail hc ih =>
    rw [decode_append_of_spells hc, encode?_cons, hc.2, ih]
    rfl
  | stray a tail ha hd ih =>
    rw [hd, encode?_cons, encodePoint?_escape ha, ih]
    rfl

theorem decode_injective {a b : Bytes} (h : decode a = decode b) : a = b := by
  have := encode?_decode a
  rw [h, encode?_decode] at this
  exact (Option.some.inj this).symm

/-- A byte that is escaped when it is read begins no character. -/
theorem not_spells_of_decode_eq_escape {a : UInt8} {bs tail : Bytes} {t : Text} {c : CodePoint}
    (h : decode (a :: (bs ++ tail)) = escape a :: t) : ¬ Spells (a :: bs) c := by
  intro hc
  rw [← List.cons_append, decode_append_of_spells hc] at h
  have := isSurrogate_escape a
  rw [← (List.cons.inj h).1, hc.1] at this
  contradiction

/-- **A decoder can be stopped before any byte that continues no character.** -/
theorem decode_append (u : Bytes) {v : Bytes} (h : ∀ b ∈ v.head?, isContinuation b = false) :
    decode (u ++ v) = decode u ++ decode v := by
  induction u using decode_induction with
  | nil => rfl
  | character bytes c tail hc ih =>
    rw [List.append_assoc, decode_append_of_spells hc, decode_append_of_spells hc, ih]
    rfl
  | stray a tail ha hd ih =>
    rw [hd, List.cons_append, List.cons_append, ← ih]
    rcases first_cases a (tail ++ v) with ⟨c, bs, tail', hsplit, hc⟩ | ⟨-, hf⟩
    · exfalso
      rcases List.append_eq_append_iff.1 hsplit with ⟨more, rfl, rfl⟩ | ⟨more, rfl, -⟩
      · -- the character would reach into `v`, whose first byte it would then continue
        cases more with
        | nil =>
          rw [List.append_nil] at hc
          rw [← List.append_nil tail] at hd
          exact not_spells_of_decode_eq_escape hd hc
        | cons b more =>
          have := (isContinuation_of_spells hc).2 b (by simp)
          rw [h b rfl] at this
          contradiction
      · exact not_spells_of_decode_eq_escape hd hc
    · show (first a (tail ++ v)).1 :: decodeAfter (first a (tail ++ v)).2 (tail ++ v) = _
      rw [hf]
      rfl

/-- **ASCII is read as itself wherever it stands**, and decoding begins anew behind it. -/
theorem decode_append_ascii {x : UInt8} (hx : x.toNat < 0x80) (u v : Bytes) :
    decode (u ++ x :: v) = decode u ++ .ofNat x.toNat :: decode v := by
  have hs : Spells [x] (.ofNat x.toNat) := spells_one hx
  have hc : isContinuation x = false := (isContinuation_of_spells hs).1
  rw [decode_append u (by simpa using hc)]
  exact congrArg (decode u ++ ·) (decode_append_of_spells hs v)

/-! ### Texts that survive -/

/-- Some run of byte escapes in the text spells a character of its own, one that takes two to four
bytes. -/
def ConcealsCharacter (t : Text) : Prop :=
  ∃ before bytes after c, t = before ++ bytes.map escape ++ after ∧ 2 ≤ bytes.length ∧
    Spells bytes c

theorem ConcealsCharacter.of_infix {s t : Text} (h : ConcealsCharacter s) (hs : s <:+: t) :
    ConcealsCharacter t := by
  obtain ⟨front, back, rfl⟩ := hs
  obtain ⟨before, bytes, after, d, rfl, hl, hd⟩ := h
  exact ⟨front ++ before, bytes, after ++ back, d, by simp, hl, hd⟩

theorem ConcealsCharacter.cons {t : Text} (h : ConcealsCharacter t) (c : CodePoint) :
    ConcealsCharacter (c :: t) :=
  h.of_infix (List.suffix_cons c t).isInfix

/-- A text whose bytes begin with bytes that continue something begins with their escapes. -/
theorem eq_escapes_append_of_continuation {bs tail : Bytes} :
    ∀ {t : Text}, encode? t = some (bs ++ tail) → (∀ b ∈ bs, isContinuation b = true) →
      ∃ after, t = bs.map escape ++ after ∧ encode? after = some tail := by
  induction bs with
  | nil => exact fun {t} ht _ => ⟨t, rfl, ht⟩
  | cons b bs ih =>
    intro t ht hbs
    cases t with
    | nil => cases ht
    | cons c t =>
      obtain ⟨front, back, hf, hb, heq⟩ := encode?_cons_eq_some ht
      rcases spells_or_eq_escape hf with hc | ⟨a, -, rfl, rfl⟩
      · obtain ⟨a, front, rfl⟩ := exists_cons_of_spells hc
        have hab : b = a := (List.cons.inj heq).1
        have := hbs b (by simp)
        rw [hab, (isContinuation_of_spells hc).1] at this
        contradiction
      · obtain ⟨rfl, rfl⟩ := List.cons.inj heq
        obtain ⟨after, rfl, hafter⟩ := ih hb fun b' hb' => hbs b' (List.mem_cons_of_mem _ hb')
        exact ⟨after, rfl, hafter⟩

theorem exists_eq_append_of_encode?_escapes {t : Text} : ∀ {run bytes : Bytes},
    (∀ b ∈ run, 0x80 ≤ b.toNat) → encode? (run.map escape ++ t) = some bytes →
      ∃ tail, bytes = run ++ tail := by
  intro run
  induction run with
  | nil => exact fun {bytes} _ _ => ⟨bytes, rfl⟩
  | cons b run ih =>
    intro bytes hrun h
    obtain ⟨front, back, hf, hb, rfl⟩ := encode?_cons_eq_some h
    rw [encodePoint?_escape (hrun b (by simp))] at hf
    cases hf
    obtain ⟨tail, rfl⟩ := ih (fun b' hb' => hrun b' (List.mem_cons_of_mem _ hb')) hb
    exact ⟨tail, rfl⟩

theorem decode_encode_of_not_conceals {t : Text} : ∀ {bytes : Bytes}, encode? t = some bytes →
    ¬ ConcealsCharacter t → decode bytes = t := by
  induction t with
  | nil =>
    intro bytes h _
    cases h
    rfl
  | cons c t ih =>
    intro bytes h hno
    obtain ⟨front, back, hf, hb, rfl⟩ := encode?_cons_eq_some h
    have iht := ih hb fun ht => hno (ht.cons c)
    rcases spells_or_eq_escape hf with hc | ⟨a, ha, rfl, rfl⟩
    · rw [decode_append_of_spells hc, iht]
    · show (first a back).1 :: decodeAfter (first a back).2 back = _
      rcases first_cases a back with ⟨d, bs, tail, rfl, hd⟩ | ⟨-, he⟩
      · -- a character with `a` in front could only be concealed in the text
        exfalso
        have hcont := (isContinuation_of_spells hd).2
        obtain ⟨after, rfl, -⟩ := eq_escapes_append_of_continuation hb hcont
        have hlen := (two_le_length_iff hd).2 ha
        exact hno ⟨[], a :: bs, after, d, rfl, hlen, hd⟩
      · rw [he]
        exact congrArg (escape a :: ·) iht

/-- What has been read can be taken off the front of the bytes. -/
theorem exists_decode_of_decode_eq_append {s : Text} : ∀ {bytes : Bytes} {t : Text},
    decode bytes = s ++ t → ∃ rest, decode rest = t := by
  induction s with
  | nil => exact fun {bytes t} h => ⟨bytes, h⟩
  | cons c s ih =>
    intro bytes t h
    cases bytes with
    | nil => contradiction
    | cons a rest =>
      have h' : decodeAfter (first a rest).2 rest = s ++ t := (List.cons.inj h).2
      rw [decodeAfter_eq_decode_drop] at h'
      exact ih h'

/-- What has been read conceals nothing: a decoder would have taken it as a character. -/
theorem not_concealsCharacter_decode (bytes : Bytes) : ¬ ConcealsCharacter (decode bytes) := by
  rintro ⟨before, run, after, c, h, hlen, hc⟩
  rw [List.append_assoc] at h
  obtain ⟨rest, hrest⟩ := exists_decode_of_decode_eq_append h
  obtain ⟨a, bs, rfl⟩ := exists_cons_of_spells hc
  have henc := encode?_decode rest
  rw [hrest] at henc
  obtain ⟨tail, rfl⟩ := exists_eq_append_of_encode?_escapes (bytes_of_spells hlen hc) henc
  exact not_spells_of_decode_eq_escape hrest hc

/-- **A text survives being written and read exactly if it conceals no character.** -/
theorem decode_encode_eq_iff {t : Text} {bytes : Bytes} (h : encode? t = some bytes) :
    decode bytes = t ↔ ¬ ConcealsCharacter t :=
  ⟨fun he => he ▸ not_concealsCharacter_decode bytes, decode_encode_of_not_conceals h⟩

theorem not_concealsCharacter_of_hasSurrogate_eq_false {t : Text} (h : t.hasSurrogate = false) :
    ¬ ConcealsCharacter t := by
  rintro ⟨before, run, after, c, rfl, -, hc⟩
  obtain ⟨a, bs, rfl⟩ := exists_cons_of_spells hc
  simp [Text.hasSurrogate, isSurrogate_escape] at h

theorem encode?_eq_none_iff (t : Text) :
    encode? t = none ↔ ∃ c ∈ t, c.isSurrogate = true ∧ c.isByteEscape = false := by
  induction t with
  | nil => simp [encode?]
  | cons c t ih =>
    rw [encode?_cons, Option.bind_eq_none_iff]
    constructor
    · intro h
      cases hc : encodePoint? c with
      | none => exact ⟨c, by simp, (encodePoint?_eq_none_iff c).1 hc⟩
      | some bytes =>
        obtain ⟨d, hd, hs⟩ := ih.1 (Option.map_eq_none_iff.1 (h bytes hc))
        exact ⟨d, List.mem_cons_of_mem _ hd, hs⟩
    · rintro ⟨d, hd, hs⟩ bytes hc
      rcases List.mem_cons.1 hd with rfl | hd
      · rw [(encodePoint?_eq_none_iff d).2 hs] at hc
        contradiction
      · rw [ih.2 ⟨d, hd, hs⟩]
        rfl

/-- The text is written and read back unchanged. -/
def Survives (t : Text) : Prop := ∃ bytes, encode? t = some bytes ∧ decode bytes = t

/-- A text without surrogates is written and read back unchanged. -/
theorem exists_encode?_of_hasSurrogate_eq_false {t : Text} (h : t.hasSurrogate = false) :
    ∃ bytes, encode? t = some bytes ∧ decode bytes = t := by
  cases he : encode? t with
  | none =>
    obtain ⟨c, hc, hs, -⟩ := (encode?_eq_none_iff t).1 he
    have : c.isSurrogate = false := by simpa using List.any_eq_false.1 h c hc
    exact absurd (hs.symm.trans this) (by simp)
  | some bytes =>
    exact ⟨bytes, rfl, (decode_encode_eq_iff he).2
      (not_concealsCharacter_of_hasSurrogate_eq_false h)⟩

/-- What was read survives. -/
theorem survives_decode (bytes : Bytes) : Survives (decode bytes) :=
  ⟨bytes, encode?_decode bytes, rfl⟩

/-- What stands within a text that survives does so, too. -/
theorem Survives.of_infix {s t : Text} (h : Survives t) (hs : s <:+: t) : Survives s := by
  obtain ⟨bytes, he, hd⟩ := h
  obtain ⟨own, ho⟩ : ∃ own, encode? s = some own := by
    obtain ⟨before, after, rfl⟩ := hs
    obtain ⟨front, -, hf, -⟩ := exists_of_encode?_append he
    obtain ⟨-, own, -, ho, -⟩ := exists_of_encode?_append hf
    exact ⟨own, ho⟩
  refine ⟨own, ho, (decode_encode_eq_iff ho).2 fun hc => ?_⟩
  exact (decode_encode_eq_iff he).1 hd (hc.of_infix hs)

/-- Texts that survive do so side by side, if there is ASCII between them. -/
theorem Survives.append_cons {s t : Text} {c : CodePoint} (hs : Survives s) (hc : c.val < 0x80)
    (ht : Survives t) : Survives (s ++ c :: t) := by
  obtain ⟨front, hf, rfl⟩ := hs
  obtain ⟨back, hb, rfl⟩ := ht
  have hbyte : (UInt8.ofNat c.val).toNat = c.val := toNat_byte (by omega)
  have hcons : encode? (c :: decode back) = some (.ofNat c.val :: back) := by
    rw [encode?_cons, show encodePoint? c = some [.ofNat c.val] from if_pos hc, hb]
    rfl
  have hlt : (UInt8.ofNat c.val).toNat < 0x80 := by omega
  refine ⟨_, encode?_append hf hcons, ?_⟩
  rw [decode_append_ascii hlt, hbyte, CodePoint.ofNat_eq rfl]

end ClientStore.Utf8
