import ClientStore.Proofs.Text.Character
import ClientStore.Text.Quoted
import ClientStore.Text.Sanitize

/-!
# What is shown on a terminal

Taking escape sequences away adds nothing to a text. It may put an escape character in front of what
then looks like the rest of a sequence, but whatever control characters are left are spelled out in
ASCII, so that none of them remains.

Escape sequences are ASCII as well. So nothing beyond ASCII is added or taken away: what is shown is
a line that standard output takes exactly if the text was one, and a control character of Unicode
that is not one of ASCII is shown as it is.

A message may quote a text instead. A quotation is printable, so that it spells out control
characters of every kind.

## Main definitions

* `Text.IsClean` — a text without control characters of ASCII.
* `CodePoint.IsGraphic` — the characters of ASCII that are no control characters.
* `Sanitize.IsTail` — what completes an escape sequence.
* `CodePoint.isUnicodeControl` — the control characters of Unicode.

## Main results

* `Sanitize.tailLength?_eq_some_iff` — how much of a text completes an escape sequence.
* `Text.isClean_sanitized` — what is shown of any text is clean.
* `Text.filter_sanitized` — what is not ASCII is shown, and in its order.
* `Text.controls_sanitized` — which control characters of Unicode are shown.
* `Text.isPrintable_of_mem_quoted`, `Quoted.isPrintable_of_mem_bytes` — a quotation is printable.
-/

namespace ClientStore

namespace Text

/-! ### Texts without control characters -/

/-- The text has no control characters, so it neither moves the cursor nor ends its line. -/
def IsClean (t : Text) : Prop := ∀ c ∈ t, Sanitize.isControl c = false

instance (t : Text) : Decidable t.IsClean :=
  decidable_of_iff (t.all (!Sanitize.isControl ·) = true) (by simp [IsClean])

@[simp] theorem isClean_nil : IsClean [] := List.forall_mem_nil _

@[simp] theorem isClean_cons {c : CodePoint} {t : Text} :
    IsClean (c :: t) ↔ Sanitize.isControl c = false ∧ t.IsClean :=
  List.forall_mem_cons

@[simp] theorem isClean_append {t u : Text} : IsClean (t ++ u) ↔ t.IsClean ∧ u.IsClean :=
  List.forall_mem_append

theorem isClean_flatMap {t : Text} {f : CodePoint → Text} (h : ∀ c ∈ t, (f c).IsClean) :
    IsClean (t.flatMap f) := by
  intro d hd
  obtain ⟨c, hc, hd⟩ := List.mem_flatMap.1 hd
  exact h c hc d hd

theorem IsClean.lineFeed_not_mem {t : Text} (h : t.IsClean) : CodePoint.ofChar '\n' ∉ t :=
  fun hm => absurd (h _ hm) (by decide)

@[simp] theorem hasSurrogate_nil : hasSurrogate [] = false := rfl

@[simp] theorem hasSurrogate_cons (c : CodePoint) (t : Text) :
    hasSurrogate (c :: t) = (c.isSurrogate || t.hasSurrogate) := rfl

@[simp] theorem hasSurrogate_append (t u : Text) :
    hasSurrogate (t ++ u) = (t.hasSurrogate || u.hasSurrogate) :=
  List.any_append

end Text

namespace Sanitize

theorem isControl_eq_true_iff {c : CodePoint} :
    isControl c = true ↔ c.val < 0x20 ∨ c.val = 0x7F := by
  simp [isControl]

theorem isControl_eq_false_iff {c : CodePoint} :
    isControl c = false ↔ 0x20 ≤ c.val ∧ c.val ≠ 0x7F := by
  simp [isControl]

theorem isSurrogate_of_lt {c : CodePoint} (h : c.val < 0x80) : c.isSurrogate = false := by
  rw [CodePoint.isSurrogate_eq_false_iff]
  omega

end Sanitize

/-! ### Graphic characters -/

namespace CodePoint

/-- The characters of ASCII that are no control characters, from the space to the tilde. They
complete escape sequences, and control characters are spelled out with them. -/
def IsGraphic (c : CodePoint) : Prop := 0x20 ≤ c.val ∧ c.val < 0x7F

instance : DecidablePred IsGraphic := fun _ => instDecidableAnd

theorem IsGraphic.isControl_eq_false {c : CodePoint} (h : c.IsGraphic) :
    Sanitize.isControl c = false :=
  Sanitize.isControl_eq_false_iff.2 ⟨h.1, Nat.ne_of_lt h.2⟩

theorem IsGraphic.lt {c : CodePoint} (h : c.IsGraphic) : c.val < 0x80 := Nat.lt_succ_of_lt h.2

/-- The ranges are in increasing order, and only the first begins before the last character of
ASCII. -/
theorem le_of_mem_unprintableRanges : ∀ r ∈ unprintableRanges.tail, 0x7F ≤ r.1 := by
  decide +kernel

theorem IsGraphic.isPrintable {c : CodePoint} (h : c.IsGraphic) : c.isPrintable = true := by
  obtain ⟨hge, hlt⟩ := h
  rw [CodePoint.isPrintable, Bool.not_eq_true', List.any_eq_false]
  intro r hr
  rw [Bool.and_eq_true, decide_eq_true_eq, decide_eq_true_eq]
  rcases List.mem_cons.1 hr with rfl | hr
  · omega
  · have := le_of_mem_unprintableRanges r hr
    omega

theorem isGraphic_lower : ∀ n < 16, (Hex.lower n).IsGraphic := by decide

theorem isGraphic_of_mem_padded (width n : Nat) : ∀ c ∈ Hex.padded width n, c.IsGraphic := by
  induction width generalizing n with
  | zero => exact List.forall_mem_nil _
  | succ width ih =>
    rw [Hex.padded, List.forall_mem_append, List.forall_mem_singleton]
    exact ⟨ih _, isGraphic_lower _ (Nat.mod_lt n (by decide))⟩

/-- What is spelled out is a backslash, a letter that tells how, and what follows that letter. -/
theorem isGraphic_of_mem_escaped {letter : CodePoint} {t : Text} (h : letter.IsGraphic)
    (ht : ∀ c ∈ t, c.IsGraphic) : ∀ c ∈ (.ofChar '\\' :: letter :: t : Text), c.IsGraphic :=
  List.forall_mem_cons.2 ⟨by decide, List.forall_mem_cons.2 ⟨h, ht⟩⟩

end CodePoint

theorem Text.isClean_of_isGraphic {t : Text} (h : ∀ c ∈ t, c.IsGraphic) : t.IsClean :=
  fun c hc => (h c hc).isControl_eq_false

namespace Sanitize

/-! ### Escape sequences -/

/-- The text completes the sequence that an escape character has begun. It is one character, or a
bracket, parameters, intermediates and a final character; no character is of two of these kinds. -/
inductive IsTail : Text → Prop
  | short {final : CodePoint} (hfinal : isShortFinal final = true) : IsTail [final]
  | control {parameters intermediates : Text} {final : CodePoint}
    (hps : ∀ c ∈ parameters, isParameter c = true)
    (his : ∀ c ∈ intermediates, isIntermediate c = true) (hfinal : isFinal final = true) :
    IsTail (.ofChar '[' :: (parameters ++ (intermediates ++ [final])))

theorem val_of_isShortFinal {c : CodePoint} (h : isShortFinal c = true) :
    0x40 ≤ c.val ∧ c.val ≤ 0x5F ∧ c.val ≠ 0x5B := by
  simpa [isShortFinal, and_assoc] using h

theorem val_of_isParameter {c : CodePoint} (h : isParameter c = true) :
    0x30 ≤ c.val ∧ c.val ≤ 0x3F := by
  simpa [isParameter] using h

theorem val_of_isIntermediate {c : CodePoint} (h : isIntermediate c = true) :
    0x20 ≤ c.val ∧ c.val ≤ 0x2F := by
  simpa [isIntermediate] using h

theorem val_of_isFinal {c : CodePoint} (h : isFinal c = true) : 0x40 ≤ c.val ∧ c.val ≤ 0x7E := by
  simpa [isFinal] using h

theorem IsTail.isGraphic {tail : Text} (h : IsTail tail) : ∀ c ∈ tail, c.IsGraphic := by
  intro c hc
  rw [CodePoint.IsGraphic]
  cases h with
  | short hfinal =>
    obtain rfl := List.mem_singleton.1 hc
    have := val_of_isShortFinal hfinal
    omega
  | control hps his hfinal =>
    simp only [List.mem_cons, List.mem_append, List.not_mem_nil, or_false] at hc
    rcases hc with rfl | hc | hc | rfl
    · decide
    · have := val_of_isParameter (hps c hc)
      omega
    · have := val_of_isIntermediate (his c hc)
      omega
    · have := val_of_isFinal hfinal
      omega

/-- The run of parameters ends at an intermediate or at the final character. -/
theorem isParameter_head_eq_false {is : Text} {final : CodePoint}
    (his : ∀ c ∈ is, isIntermediate c = true) (hfinal : isFinal final = true) (rest : Text) :
    ∀ c ∈ (is ++ final :: rest).head?, isParameter c = false := by
  intro c hc
  have hval : c.val ≤ 0x2F ∨ 0x40 ≤ c.val := by
    cases is with
    | nil =>
      obtain rfl : final = c := by simpa using hc
      exact .inr (val_of_isFinal hfinal).1
    | cons i is =>
      obtain rfl : i = c := by simpa using hc
      exact .inl (val_of_isIntermediate (his i List.mem_cons_self)).2
  simp only [isParameter, Bool.and_eq_false_iff, decide_eq_false_iff_not]
  omega

/-- The run of intermediates ends at the final character. -/
theorem isIntermediate_head_eq_false {final : CodePoint} (hfinal : isFinal final = true)
    (rest : Text) : ∀ c ∈ (final :: rest : Text).head?, isIntermediate c = false := by
  intro c hc
  obtain rfl : final = c := by simpa using hc
  have := val_of_isFinal hfinal
  simp only [isIntermediate, Bool.and_eq_false_iff, decide_eq_false_iff_not]
  omega

theorem tailLength?_append_of_isTail {tail : Text} (h : IsTail tail) (rest : Text) :
    tailLength? (tail ++ rest) = some tail.length := by
  cases h with
  | short hfinal =>
    show tailLength? (_ :: rest) = some 1
    rw [tailLength?, if_pos hfinal]
  | @control parameters intermediates final hps his hfinal =>
    have hp := isParameter_head_eq_false his hfinal rest
    have hi := isIntermediate_head_eq_false hfinal rest
    have htail : .ofChar '[' :: (parameters ++ (intermediates ++ [final])) ++ rest =
        .ofChar '[' :: (parameters ++ (intermediates ++ final :: rest)) := by simp
    rw [htail, tailLength?, if_neg (by decide), if_pos rfl]
    dsimp only
    rw [Text.takeWhile_run hps hp, Text.dropWhile_run hps hp, Text.takeWhile_run his hi,
      Text.dropWhile_run his hi]
    dsimp only
    rw [if_pos hfinal]
    simp [Nat.add_assoc]

theorem exists_isTail_of_tailLength? {t : Text} {n : Nat} (h : tailLength? t = some n) :
    ∃ tail rest, IsTail tail ∧ t = tail ++ rest ∧ tail.length = n := by
  cases t with
  | nil => contradiction
  | cons c t =>
    rw [tailLength?] at h
    split at h
    case isTrue hc => exact ⟨[c], t, .short hc, rfl, Option.some.inj h⟩
    split at h
    case isFalse => contradiction
    rename_i hc
    dsimp only at h
    split at h
    case h_2 => contradiction
    rename_i final rest hrest
    split at h
    case isFalse => contradiction
    rename_i hfinal
    refine ⟨_, rest, .control (Text.of_mem_takeWhile isParameter t)
      (Text.of_mem_takeWhile isIntermediate (t.dropWhile isParameter)) hfinal, ?_, ?_⟩
    · rw [hc, List.cons_append, List.append_assoc, List.append_assoc, List.singleton_append,
        ← hrest, List.takeWhile_append_dropWhile, List.takeWhile_append_dropWhile]
    · rw [← Option.some.inj h]
      simp [Nat.add_assoc]

/-- **What completes a sequence** is at the beginning of the text, and its length is known. -/
theorem tailLength?_eq_some_iff {t : Text} {n : Nat} :
    tailLength? t = some n ↔ ∃ tail rest, IsTail tail ∧ t = tail ++ rest ∧ tail.length = n := by
  refine ⟨exists_isTail_of_tailLength?, ?_⟩
  rintro ⟨tail, rest, htail, rfl, rfl⟩
  exact tailLength?_append_of_isTail htail rest

section Filter

variable {p : CodePoint → Bool}

/-- A text of ASCII has nothing in it that is beyond ASCII. -/
theorem filter_eq_nil_of_ascii (hp : ∀ c : CodePoint, c.val < 0x80 → p c = false) {t : Text}
    (ht : ∀ c ∈ t, c.val < 0x80) : t.filter p = [] :=
  List.filter_eq_nil_iff.2 fun c hc => by simp [hp c (ht c hc)]

/-- Only ASCII is taken away with escape sequences. -/
theorem filter_withoutSequencesAfter (hp : ∀ c : CodePoint, c.val < 0x80 → p c = false) (t : Text)
    (skip : Nat) : (withoutSequencesAfter skip t).filter p = (t.drop skip).filter p := by
  induction t generalizing skip with
  | nil => simp [withoutSequencesAfter]
  | cons c t ih =>
    cases skip with
    | succ skip => exact ih skip
    | zero =>
      have hkept : (c :: withoutSequencesAfter 0 t).filter p = (c :: t).filter p := by
        rw [List.filter_cons, List.filter_cons, ih 0, List.drop_zero]
      rw [withoutSequencesAfter, List.drop_zero]
      split
      case isFalse => exact hkept
      rename_i hc
      split
      case h_2 => exact hkept
      rename_i n hn
      obtain ⟨tail, rest, htail, rfl, rfl⟩ := tailLength?_eq_some_iff.1 hn
      have hgone : (c :: tail).filter p = [] := by
        refine filter_eq_nil_of_ascii hp (List.forall_mem_cons.2 ⟨?_, fun d hd => ?_⟩)
        · rw [hc]
          decide
        · exact (htail.isGraphic d hd).lt
      rw [ih, List.drop_left, ← List.cons_append, List.filter_append, hgone, List.nil_append]

end Filter

/-! ### Single code points -/

/-- What is not ASCII is shown as it is, and nothing else is shown with anything beyond ASCII. -/
theorem filter_visible {p : CodePoint → Bool} (hp : ∀ c : CodePoint, c.val < 0x80 → p c = false)
    (c : CodePoint) : (visible c).filter p = [c].filter p := by
  rw [visible]
  split
  case isFalse => rfl
  rename_i hc
  have hlt : c.val < 0x80 := by
    rw [isControl_eq_true_iff] at hc
    omega
  have hspelled : ∀ d ∈ (.ofChar '\\' :: .ofChar 'x' :: Hex.padded 2 c.val : Text), d.IsGraphic :=
    CodePoint.isGraphic_of_mem_escaped (by decide) (CodePoint.isGraphic_of_mem_padded 2 c.val)
  rw [filter_eq_nil_of_ascii hp fun d hd => (hspelled d hd).lt,
    filter_eq_nil_of_ascii hp (List.forall_mem_singleton.2 hlt)]

theorem isClean_visible (c : CodePoint) : (visible c).IsClean := by
  rw [visible]
  split
  · exact Text.isClean_of_isGraphic (CodePoint.isGraphic_of_mem_escaped (by decide)
      (CodePoint.isGraphic_of_mem_padded 2 c.val))
  · rename_i hc
    exact Text.isClean_cons.2 ⟨eq_false_of_ne_true hc, Text.isClean_nil⟩

end Sanitize

/-! ### Whole texts -/

namespace Text

/-- **What is shown of a text is clean**, whatever the text holds. -/
theorem isClean_sanitized (t : Text) : t.sanitized.IsClean :=
  isClean_flatMap fun c _ => Sanitize.isClean_visible c

/-- **What is not ASCII is shown as it is**, all of it and in its order. -/
theorem filter_sanitized {p : CodePoint → Bool} (hp : ∀ c : CodePoint, c.val < 0x80 → p c = false)
    (t : Text) : t.sanitized.filter p = t.filter p := by
  have hvisible (u : Text) : (u.flatMap Sanitize.visible).filter p = u.filter p := by
    induction u with
    | nil => rfl
    | cons c u ih =>
      rw [List.flatMap_cons, List.filter_append, Sanitize.filter_visible hp, ih,
        ← List.filter_append, List.singleton_append]
  rw [sanitized, hvisible, Sanitize.withoutSequences, Sanitize.filter_withoutSequencesAfter hp,
    List.drop_zero]

/-- **What is shown of a text has a surrogate exactly if the text has one.** -/
theorem hasSurrogate_sanitized_eq (t : Text) : t.sanitized.hasSurrogate = t.hasSurrogate := by
  have hany (u : Text) :
      u.hasSurrogate = (u.filter CodePoint.isSurrogate).any CodePoint.isSurrogate := by
    simp [hasSurrogate, List.any_filter]
  rw [hany, filter_sanitized (fun _ => Sanitize.isSurrogate_of_lt), ← hany]

theorem hasSurrogate_sanitized {t : Text} (h : t.hasSurrogate = false) :
    t.sanitized.hasSurrogate = false :=
  (hasSurrogate_sanitized_eq t).trans h

end Text

/-! ### Control characters beyond ASCII -/

namespace CodePoint

/-- The control characters beyond ASCII. A terminal takes some of them for a whole escape sequence
or for the end of a line. -/
def isHighControl (c : CodePoint) : Bool := 0x80 ≤ c.val && c.val ≤ 0x9F

/-- The control characters of Unicode, which are those of ASCII and those beyond it. -/
def isUnicodeControl (c : CodePoint) : Bool := c.val ≤ 0x1F || c.val = 0x7F || c.isHighControl

theorem isHighControl_of_lt {c : CodePoint} (h : c.val < 0x80) : c.isHighControl = false := by
  rw [isHighControl, Bool.and_eq_false_iff, decide_eq_false_iff_not]
  omega

theorem isUnicodeControl_eq (c : CodePoint) :
    c.isUnicodeControl = (Sanitize.isControl c || c.isHighControl) := by
  have hlow : (c.val ≤ 0x1F : Bool) = decide (c.val < 0x20) :=
    decide_eq_decide.2 Nat.lt_succ_iff.symm
  rw [isUnicodeControl, Sanitize.isControl, hlow]

theorem not_isPrintable_of_isUnicodeControl {c : CodePoint} (h : c.isUnicodeControl = true) :
    c.isPrintable = false := by
  simp only [isUnicodeControl, isHighControl, Bool.or_eq_true, Bool.and_eq_true,
    decide_eq_true_eq] at h
  rw [isPrintable, Bool.not_eq_false', List.any_eq_true]
  by_cases hlow : c.val ≤ 0x1F
  · refine ⟨(0x0, 0x1F), .head _, ?_⟩
    simp only [Bool.and_eq_true, decide_eq_true_eq]
    omega
  · refine ⟨(0x7F, 0xA0), .tail _ (.head _), ?_⟩
    simp only [Bool.and_eq_true, decide_eq_true_eq]
    omega

theorem isControl_of_isPrintable {c : CodePoint} (h : c.isPrintable = true) :
    Sanitize.isControl c = false := by
  refine eq_false_of_ne_true fun hc => ?_
  have hcontrol : c.isUnicodeControl = true := by rw [isUnicodeControl_eq, hc, Bool.true_or]
  rw [not_isPrintable_of_isUnicodeControl hcontrol] at h
  contradiction

end CodePoint

namespace Text

/-- **Which control characters are shown.** None of ASCII is, and those beyond ASCII all are, in
their order. So what is shown of a text is free of control characters exactly if the text has none
beyond ASCII. -/
theorem controls_sanitized (t : Text) :
    t.sanitized.filter CodePoint.isUnicodeControl = t.filter CodePoint.isHighControl ∧
      ((∀ c ∈ t.sanitized, c.isUnicodeControl = false) ↔ ∀ c ∈ t, c.isHighControl = false) := by
  have hshown : t.sanitized.filter CodePoint.isUnicodeControl =
      t.sanitized.filter CodePoint.isHighControl :=
    List.filter_congr fun c hc => by
      rw [CodePoint.isUnicodeControl_eq, isClean_sanitized t c hc, Bool.false_or]
  have hfilter : t.sanitized.filter CodePoint.isUnicodeControl = t.filter CodePoint.isHighControl :=
    hshown.trans (filter_sanitized (fun _ => CodePoint.isHighControl_of_lt) t)
  have hnil := congrArg (· = []) hfilter
  simp only [List.filter_eq_nil_iff, Bool.not_eq_true] at hnil
  exact ⟨hfilter, iff_of_eq hnil⟩

/-- The line break and the introducer of sequences that are control characters beyond ASCII are
shown as they are. -/
theorem sanitized_highControls :
    Text.sanitized [.ofChar 'a', .ofNat 0x85, .ofChar 'b', .ofNat 0x9B, .ofChar '2', .ofChar 'J'] =
        [.ofChar 'a', .ofNat 0x85, .ofChar 'b', .ofNat 0x9B, .ofChar '2', .ofChar 'J'] ∧
      CodePoint.isUnicodeControl (.ofNat 0x85) = true ∧
      CodePoint.isUnicodeControl (.ofNat 0x9B) = true := by
  decide

end Text

/-! ### Quotations -/

namespace Quoted

theorem isGraphic_mark (t : Text) : (mark t).IsGraphic := by
  rw [mark]
  split <;> decide

theorem isPrintable_of_mem_escaped {letter : CodePoint} {t : Text} (h : letter.IsGraphic)
    (ht : ∀ c ∈ t, c.IsGraphic) :
    ∀ c ∈ (.ofChar '\\' :: letter :: t : Text), c.isPrintable = true :=
  fun c hc => (CodePoint.isGraphic_of_mem_escaped h ht c hc).isPrintable

/-- Whatever stands between quotes is printable. -/
theorem isPrintable_of_mem_escape {q : CodePoint} (hq : q.IsGraphic) (c : CodePoint) :
    ∀ d ∈ escape q c, d.isPrintable = true := by
  have hdigits (width : Nat) := CodePoint.isGraphic_of_mem_padded width c.val
  rw [escape]
  split
  case isTrue hc =>
    have hgraphic : c.IsGraphic := by
      rcases hc with rfl | rfl
      · exact hq
      · decide
    exact isPrintable_of_mem_escaped hgraphic (List.forall_mem_nil _)
  split
  · exact isPrintable_of_mem_escaped (by decide) (List.forall_mem_nil _)
  split
  · exact isPrintable_of_mem_escaped (by decide) (List.forall_mem_nil _)
  split
  · exact isPrintable_of_mem_escaped (by decide) (List.forall_mem_nil _)
  split
  case isTrue hc => exact List.forall_mem_singleton.2 hc
  split
  · exact isPrintable_of_mem_escaped (by decide) (hdigits 2)
  split
  · exact isPrintable_of_mem_escaped (by decide) (hdigits 4)
  · exact isPrintable_of_mem_escaped (by decide) (hdigits 8)

/-- Pieces that are printable, put between quotes. -/
theorem isPrintable_of_mem_quotes {q : CodePoint} (hq : q.IsGraphic) {t : Text}
    {f : CodePoint → Text} (hf : ∀ c, ∀ d ∈ f c, d.isPrintable = true) :
    ∀ d ∈ q :: t.flatMap f ++ [q], d.isPrintable = true := by
  intro d hd
  rw [List.cons_append, List.mem_cons, List.mem_append, List.mem_flatMap, List.mem_singleton] at hd
  rcases hd with rfl | ⟨c, -, hd⟩ | rfl
  · exact hq.isPrintable
  · exact hf c d hd
  · exact hq.isPrintable

/-- **A quotation of bytes is printable**, whatever the bytes are. -/
theorem isPrintable_of_mem_bytes (b : Bytes) : ∀ d ∈ bytes b, d.isPrintable = true := by
  have hq := isGraphic_mark (b.map fun x => .ofNat x.toNat)
  refine isPrintable_of_mem_quotes hq fun c => ?_
  split
  · exact isPrintable_of_mem_escape hq c
  · exact isPrintable_of_mem_escaped (by decide) (CodePoint.isGraphic_of_mem_padded 2 c.val)

theorem isClean_bytes (b : Bytes) : (bytes b).IsClean := fun c hc =>
  CodePoint.isControl_of_isPrintable (isPrintable_of_mem_bytes b c hc)

end Quoted

namespace Text

/-- **A quotation is printable**, whatever is quoted. So there is no control character of any kind
in it. -/
theorem isPrintable_of_mem_quoted (t : Text) : ∀ d ∈ t.quoted, d.isPrintable = true :=
  have hq := Quoted.isGraphic_mark t
  Quoted.isPrintable_of_mem_quotes hq (Quoted.isPrintable_of_mem_escape hq)

theorem isClean_quoted (t : Text) : t.quoted.IsClean := fun c hc =>
  CodePoint.isControl_of_isPrintable (isPrintable_of_mem_quoted t c hc)

end Text

end ClientStore
