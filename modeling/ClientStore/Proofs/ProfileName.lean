import ClientStore.Proofs.Text.Utf8
import ClientStore.ProfileName

/-!
# Names and the names of their files

A profile is known by the bytes of its name, and its file by the percent coding of those bytes. The
coding is undone by a scanner that takes any escape it meets and lets everything else through, so
what has to be shown is that the coding never writes an escape that it does not mean: a percent
sign is never safe, and a safe byte is never a percent sign.

## Main definitions

* `Percent.BeginsWithDigits` — texts that make a percent sign before them an escape.
* `Percent.safeNumbers` — the numbers of what stands for itself.
* `Percent.alphabet` — the characters of the names of files.

## Main results

* `Percent.decode?_induction` — induction along a text as it is scanned.
* `Percent.decode?_encode` — the scanner undoes the coding.
* `Percent.mem_alphabet_of_mem_encode` — the coding writes nothing outside the alphabet.
* `ProfileName.stored?_eq_stored?_iff` — names share a file exactly if they share their bytes.
* `ProfileName.stored?_faithful` — which names have a file, and what can be read off it.
-/

namespace ClientStore

namespace Percent

/-! ### What is an escape -/

/-- The hexadecimal digits, of either case. -/
def hexDigits : Text := "0123456789ABCDEFabcdef"

/-- The text begins with two hexadecimal digits. -/
def BeginsWithDigits (t : Text) : Prop :=
  ∃ high low rest, t = high :: low :: rest ∧ high ∈ hexDigits ∧ low ∈ hexDigits

@[simp] theorem beginsWithDigits_cons_cons {high low : CodePoint} {rest : Text} :
    BeginsWithDigits (high :: low :: rest) ↔ high ∈ hexDigits ∧ low ∈ hexDigits := by
  constructor
  · rintro ⟨_, _, _, heq, hhigh, hlow⟩
    cases heq
    exact ⟨hhigh, hlow⟩
  · rintro ⟨hhigh, hlow⟩
    exact ⟨high, low, rest, rfl, hhigh, hlow⟩

theorem mem_hexDigits_iff {c : CodePoint} :
    c ∈ hexDigits ↔
      0x30 ≤ c.val ∧ c.val ≤ 0x39 ∨ 0x41 ≤ c.val ∧ c.val ≤ 0x46 ∨
        0x61 ≤ c.val ∧ c.val ≤ 0x66 := by
  have hval : hexDigits.map Fin.val =
      List.range' 0x30 10 ++ (List.range' 0x41 6 ++ List.range' 0x61 6) := rfl
  rw [Text.mem_iff_val_mem, hval]
  simp only [List.mem_append, List.mem_range'_1]
  omega

theorem val_lt_of_mem_hexDigits {c : CodePoint} (h : c ∈ hexDigits) : c.val < 0x80 := by
  rw [mem_hexDigits_iff] at h
  omega

theorem percent_not_mem_hexDigits : CodePoint.ofChar '%' ∉ hexDigits := by
  rw [mem_hexDigits_iff]
  decide

theorem exists_value?_iff (c : CodePoint) : (∃ n, Hex.value? c = some n) ↔ c ∈ hexDigits := by
  rw [mem_hexDigits_iff, Hex.value?]
  split
  case isTrue h => exact iff_of_true ⟨_, rfl⟩ (.inl h)
  split
  case isTrue h => exact iff_of_true ⟨_, rfl⟩ (.inr (.inl h))
  split
  case isTrue h => exact iff_of_true ⟨_, rfl⟩ (.inr (.inr h))
  rename_i hdecimal hupper hlower
  exact iff_of_false (fun ⟨_, h⟩ => nomatch h) fun h => (h.resolve_left hdecimal).elim hupper hlower

/-- Three code points spell a byte if they are a percent sign and two digits. -/
theorem exists_escaped?_iff (c high low : CodePoint) :
    (∃ b, escaped? c high low = some b) ↔
      c = .ofChar '%' ∧ high ∈ hexDigits ∧ low ∈ hexDigits := by
  rw [← exists_value?_iff, ← exists_value?_iff, escaped?]
  by_cases hc : c = .ofChar '%'
  · rw [if_pos hc]
    cases Hex.value? high <;> cases Hex.value? low <;> simp [hc]
  · rw [if_neg hc]
    simp [hc]

theorem escaped?_eq_none_iff {c high low : CodePoint} {rest : Text} :
    escaped? c high low = none ↔
      (c = .ofChar '%' → ¬ BeginsWithDigits (high :: low :: rest)) := by
  rw [Option.eq_none_iff_forall_ne_some, ← not_exists, exists_escaped?_iff,
    beginsWithDigits_cons_cons, not_and]

/-- Whatever begins no escape is let through. -/
theorem decode?_cons_of_not_begins {c : CodePoint} {rest : Text}
    (h : c = .ofChar '%' → ¬ BeginsWithDigits rest) :
    decode? (c :: rest) =
      (Utf8.encodePoint? c).bind fun bytes => (decode? rest).map (bytes ++ ·) := by
  match rest with
  | [] => rfl
  | [_] => rfl
  | high :: low :: rest => simp only [decode?, escaped?_eq_none_iff.2 h]

theorem decode?_cons_of_escaped {high low : CodePoint} {b : UInt8}
    (h : escaped? (.ofChar '%') high low = some b) (rest : Text) :
    decode? (.ofChar '%' :: high :: low :: rest) = (decode? rest).map (b :: ·) := by
  simp only [decode?, h]

/-- **Induction along a text as it is scanned**: an escape is at the front, or a code point that
begins none. -/
theorem decode?_induction {P : Text → Prop} (nil : P [])
    (escape : ∀ high low b rest, escaped? (.ofChar '%') high low = some b → P rest →
      P (.ofChar '%' :: high :: low :: rest))
    (plain : ∀ c rest, (c = .ofChar '%' → ¬ BeginsWithDigits rest) → P rest → P (c :: rest))
    (t : Text) : P t := by
  fun_induction decode? t with
  | case1 c high low rest b he ih =>
    obtain ⟨rfl, -⟩ := (exists_escaped?_iff c high low).1 ⟨b, he⟩
    exact escape high low b rest he ih
  | case2 c high low rest he ih => exact plain c _ (escaped?_eq_none_iff.1 he) ih
  | case3 c rest hshort ih =>
    refine plain c rest ?_ ih
    rintro - ⟨high, low, rest', rfl, -, -⟩
    exact hshort high low rest' rfl
  | case4 => exact nil

/-! ### Percent coding -/

theorem value?_upper : ∀ n < 16, Hex.value? (Hex.upper n) = some n := by decide

/-- The numbers of the digits, of the letters and of `+-.@_`. -/
def safeNumbers : List Nat :=
  List.range' 0x30 10 ++ (List.range' 0x41 26 ++ (List.range' 0x61 26 ++
    [0x2B, 0x2D, 0x2E, 0x40, 0x5F]))

theorem mem_safeNumbers_iff {n : Nat} :
    n ∈ safeNumbers ↔
      0x30 ≤ n ∧ n ≤ 0x39 ∨ 0x41 ≤ n ∧ n ≤ 0x5A ∨ 0x61 ≤ n ∧ n ≤ 0x7A ∨
        n = 0x2B ∨ n = 0x2D ∨ n = 0x2E ∨ n = 0x40 ∨ n = 0x5F := by
  simp only [safeNumbers, List.mem_append, List.mem_range'_1, List.mem_cons, List.not_mem_nil,
    or_false]
  omega

theorem isSafe_iff_mem_safeNumbers {b : UInt8} : isSafe b = true ↔ b.toNat ∈ safeNumbers := by
  rw [mem_safeNumbers_iff]
  simp [isSafe, UInt8.le_iff_toNat_le, ← UInt8.toNat_inj, or_assoc]

/-- The safe bytes are ASCII, and the percent sign is not one of them. -/
theorem toNat_of_isSafe {b : UInt8} (h : isSafe b = true) : b.toNat < 0x80 ∧ b.toNat ≠ 0x25 := by
  rw [isSafe_iff_mem_safeNumbers, mem_safeNumbers_iff] at h
  omega

theorem ne_percent_of_isSafe {b : UInt8} (h : isSafe b = true) :
    CodePoint.ofNat b.toNat ≠ .ofChar '%' := by
  obtain ⟨hlt, hne⟩ := toNat_of_isSafe h
  intro he
  have hv := congrArg Fin.val he
  rw [CodePoint.val_ofNat (by omega)] at hv
  exact hne hv

/-- Whatever does not begin with a percent sign is let through. -/
theorem decode?_cons_of_ne {c : CodePoint} (h : c ≠ .ofChar '%') (rest : Text) :
    decode? (c :: rest) =
      (Utf8.encodePoint? c).bind fun bytes => (decode? rest).map (bytes ++ ·) :=
  decode?_cons_of_not_begins fun hc => absurd hc h

theorem decode?_escape {n m : Nat} (hn : n < 16) (hm : m < 16) (rest : Text) :
    decode? (.ofChar '%' :: Hex.upper n :: Hex.upper m :: rest) =
      (decode? rest).map (UInt8.ofNat (16 * n + m) :: ·) :=
  decode?_cons_of_escaped (by simp only [escaped?, value?_upper n hn, value?_upper m hm, if_true])
    rest

theorem decode?_encodeByte_append (b : UInt8) (rest : Text) :
    decode? (encodeByte b ++ rest) = (decode? rest).map (b :: ·) := by
  by_cases hb : isSafe b = true
  · rw [encodeByte, if_pos hb, List.singleton_append,
      decode?_cons_of_ne (ne_percent_of_isSafe hb), Utf8.encodePoint?_one (toNat_of_isSafe hb).1]
    rfl
  · have hlt := b.toNat_lt
    rw [encodeByte, if_neg hb]
    show decode? (.ofChar '%' :: Hex.upper _ :: Hex.upper _ :: rest) = _
    rw [decode?_escape (by omega) (by omega), Utf8.byte_eq (b := b) (by omega)]

/-- **The scanner undoes the coding.** -/
theorem decode?_encode (bytes : Bytes) : decode? (encode bytes) = some bytes := by
  induction bytes with
  | nil => rfl
  | cons b bytes ih =>
    rw [encode, List.flatMap_cons, decode?_encodeByte_append, ← encode, ih]
    rfl

theorem encode_injective {a b : Bytes} (h : encode a = encode b) : a = b := by
  have := decode?_encode a
  rw [h, decode?_encode] at this
  exact (Option.some.inj this).symm

/-- The characters that the names of files are written with. -/
def alphabet : Text := "0123456789ABCDEFGHIJKLMNOPQRSTUVWXYZabcdefghijklmnopqrstuvwxyz+-.@_%"

theorem mem_alphabet_iff {c : CodePoint} :
    c ∈ alphabet ↔ c.val ∈ safeNumbers ∨ c.val = 0x25 := by
  have hval : alphabet.map Fin.val = safeNumbers ++ [0x25] := rfl
  rw [Text.mem_iff_val_mem, hval, List.mem_append, List.mem_singleton]

theorem mem_alphabet_of_isSafe {b : UInt8} (h : isSafe b = true) :
    CodePoint.ofNat b.toNat ∈ alphabet := by
  have hlt := b.toNat_lt
  rw [mem_alphabet_iff, CodePoint.val_ofNat (by omega)]
  exact .inl (isSafe_iff_mem_safeNumbers.1 h)

theorem upper_mem_alphabet {n : Nat} (h : n < 16) : Hex.upper n ∈ alphabet := by
  have hval : ∀ n < 16, (Hex.upper n).val ∈ safeNumbers := by decide
  exact mem_alphabet_iff.2 (.inl (hval n h))

/-- Nothing outside the alphabet is written. -/
theorem mem_alphabet_of_mem_encode {bytes : Bytes} {c : CodePoint} (h : c ∈ encode bytes) :
    c ∈ alphabet := by
  obtain ⟨b, -, hc⟩ := List.mem_flatMap.1 h
  by_cases hb : isSafe b = true
  · obtain rfl : c = .ofNat b.toNat := by simpa [encodeByte, hb] using hc
    exact mem_alphabet_of_isSafe hb
  · have hlt := b.toNat_lt
    rw [encodeByte, if_neg hb] at hc
    simp only [List.mem_cons, List.not_mem_nil, or_false] at hc
    rcases hc with rfl | rfl | rfl
    · exact mem_alphabet_iff.2 (.inr rfl)
    · exact upper_mem_alphabet (by omega)
    · exact upper_mem_alphabet (by omega)

/-- The alphabet is visible ASCII, without the slash. -/
theorem val_of_mem_alphabet {c : CodePoint} (h : c ∈ alphabet) :
    0x20 < c.val ∧ c.val < 0x7F ∧ c.val ≠ 0x2F := by
  rw [mem_alphabet_iff, mem_safeNumbers_iff] at h
  omega

theorem val_of_mem_encode {bytes : Bytes} {c : CodePoint} (h : c ∈ encode bytes) :
    0x20 < c.val ∧ c.val < 0x7F ∧ c.val ≠ 0x2F :=
  val_of_mem_alphabet (mem_alphabet_of_mem_encode h)

theorem slash_not_mem_encode (bytes : Bytes) : CodePoint.ofChar '/' ∉ encode bytes :=
  fun h => (val_of_mem_encode h).2.2 rfl

theorem null_not_mem_encode (bytes : Bytes) : CodePoint.ofNat 0 ∉ encode bytes :=
  fun h => absurd (val_of_mem_encode h).1 (by decide)

/-- A text that has bytes spells some. -/
theorem exists_decode?_of_encode? {t : Text} {own : Bytes} (h : Utf8.encode? t = some own) :
    ∃ bytes, decode? t = some bytes := by
  induction t using decode?_induction generalizing own with
  | nil => exact ⟨[], rfl⟩
  | escape high low b rest he ih =>
    obtain ⟨-, _, -, h, -⟩ := Utf8.encode?_cons_eq_some h
    obtain ⟨-, _, -, h, -⟩ := Utf8.encode?_cons_eq_some h
    obtain ⟨-, _, -, h, -⟩ := Utf8.encode?_cons_eq_some h
    obtain ⟨bytes, hb⟩ := ih h
    exact ⟨b :: bytes, by rw [decode?_cons_of_escaped he, hb]; rfl⟩
  | plain c rest hc ih =>
    obtain ⟨front, back, hf, h, -⟩ := Utf8.encode?_cons_eq_some h
    obtain ⟨bytes, hb⟩ := ih h
    exact ⟨front ++ bytes, by rw [decode?_cons_of_not_begins hc, hf, hb]; rfl⟩

end Percent

/-! ### Profile names -/

namespace ProfileName

theorem stored?_eq_some_iff {n : ProfileName} {f : Text} :
    n.stored? = some f ↔ ∃ b, n.raw? = some b ∧ f = Percent.encode b := by
  rw [stored?, Option.map_eq_some_iff]
  exact exists_congr fun b => and_congr_right fun _ => eq_comm

theorem stored?_bind_decode? (n : ProfileName) : n.stored?.bind Percent.decode? = n.raw? := by
  rw [stored?]
  cases n.raw? with
  | none => rfl
  | some b => exact Percent.decode?_encode b

/-- Names share a file exactly if they share their bytes. -/
theorem stored?_eq_stored?_iff (n m : ProfileName) : n.stored? = m.stored? ↔ n.raw? = m.raw? := by
  constructor
  · intro h
    rw [← stored?_bind_decode?, h, stored?_bind_decode?]
  · intro h
    rw [stored?, h, stored?]

/-- The default name and the names that are byte strings always have bytes. -/
theorem raw?_eq_none_iff (n : ProfileName) :
    n.raw? = none ↔
      ∃ t, n = .text t ∧ ∃ c ∈ t, c.isSurrogate = true ∧ c.isByteEscape = false := by
  cases n with
  | default =>
    have hsome : raw? default ≠ none := by decide
    exact iff_of_false hsome (by simp)
  | bytes b => exact iff_of_false (by simp [raw?]) (by simp)
  | text t =>
    rw [raw?, Utf8.encode?_eq_none_iff]
    exact ⟨fun h => ⟨t, rfl, h⟩, fun ⟨_, ht, h⟩ => by cases ht; exact h⟩

theorem listed?_of_stored?_eq_some {t f : Text} (h : (text t).stored? = some f) :
    ∃ b, Utf8.encode? t = some b ∧ listed? f = some (Utf8.decode b) := by
  obtain ⟨b, hb, rfl⟩ := stored?_eq_some_iff.1 h
  refine ⟨b, hb, ?_⟩
  rw [listed?, Percent.decode?_encode]
  rfl

/-- The name of the file of the profile with some bytes, itself as bytes. -/
def fileName (raw : Bytes) : Bytes := (Percent.encode raw).map fun c => .ofNat c.val

theorem encode?_fileName (raw : Bytes) :
    Utf8.encode? (Percent.encode raw) = some (fileName raw) :=
  Utf8.encode?_of_ascii fun _ hc => Nat.lt_succ_of_lt (Percent.val_of_mem_encode hc).2.1

theorem decode_fileName (raw : Bytes) : Utf8.decode (fileName raw) = Percent.encode raw := by
  refine (Utf8.decode_encode_eq_iff (encode?_fileName raw)).2 ?_
  refine Utf8.not_concealsCharacter_of_hasSurrogate_eq_false (List.any_eq_false.2 fun c hc => ?_)
  have hv := Percent.val_of_mem_encode hc
  rw [Bool.not_eq_true, CodePoint.isSurrogate_eq_false_iff]
  omega

theorem fileName_injective {a b : Bytes} (h : fileName a = fileName b) : a = b := by
  have hd := decode_fileName a
  rw [h, decode_fileName] at hd
  exact (Percent.encode_injective hd).symm

theorem length_fileName (raw : Bytes) : (fileName raw).length = (Percent.encode raw).length :=
  List.length_map _

/-- What a file that a profile was stored in shows as. -/
theorem listed?_fileName (raw : Bytes) :
    listed? (Utf8.decode (fileName raw)) = some (Utf8.decode raw) := by
  rw [decode_fileName, listed?, Percent.decode?_encode]
  rfl

theorem zero_not_mem_fileName (raw : Bytes) : 0 ∉ fileName raw := by
  intro h
  obtain ⟨c, hc, hz⟩ := List.mem_map.1 h
  have hv := Percent.val_of_mem_encode hc
  have := congrArg UInt8.toNat hz
  rw [Utf8.toNat_byte (by omega)] at this
  exact absurd this (Nat.ne_of_gt (Nat.zero_lt_of_lt hv.1))

/-- Every file shows as some profile. -/
theorem exists_listed? (bytes : Bytes) : ∃ t, listed? (Utf8.decode bytes) = some t := by
  obtain ⟨raw, hraw⟩ := Percent.exists_decode?_of_encode? (Utf8.encode?_decode bytes)
  exact ⟨Utf8.decode raw, by rw [listed?, hraw]; rfl⟩

/-- **A name and its file.** A name has no file only if it is a text with a surrogate that has no
bytes. The file gives back the bytes of the name, so that different bytes have different files; and
it gives back a text exactly if that text conceals no character. -/
theorem stored?_faithful :
    (∀ n : ProfileName, n.stored? = none ↔
      ∃ t, n = text t ∧ ∃ c ∈ t, c.isSurrogate = true ∧ c.isByteEscape = false) ∧
    (∀ b, (bytes b).stored?.bind Percent.decode? = some b) ∧
    (∀ t, (text t).stored?.bind Percent.decode? = Utf8.encode? t) ∧
    (default.stored?.bind Percent.decode? = Utf8.encode? "Default Settings") ∧
    (∀ n m : ProfileName, n.stored? = m.stored? ↔ n.raw? = m.raw?) ∧
    (∀ t f, (text t).stored? = some f → (listed? f = some t ↔ ¬ Utf8.ConcealsCharacter t)) ∧
    (∀ t, t.hasSurrogate = false → (text t).stored?.bind listed? = some t) := by
  refine ⟨fun n => ?_, fun b => stored?_bind_decode? _, fun t => stored?_bind_decode? _,
    stored?_bind_decode? _, stored?_eq_stored?_iff, fun t f hf => ?_, fun t ht => ?_⟩
  · rw [stored?, Option.map_eq_none_iff, raw?_eq_none_iff]
  · obtain ⟨b, hb, hl⟩ := listed?_of_stored?_eq_some hf
    rw [hl, Option.some_inj, Utf8.decode_encode_eq_iff hb]
  · obtain ⟨b, hb, hd⟩ := Utf8.exists_encode?_of_hasSurrogate_eq_false ht
    rw [stored?, raw?, hb]
    show listed? (Percent.encode b) = some t
    rw [listed?, Percent.decode?_encode]
    exact congrArg some hd

end ProfileName

end ClientStore
