import ClientStore.Proofs.Text.Utf8

/-!
# Lines and separators

The files are taken apart at line feeds, and lines are taken apart at separators. Nothing is
escaped, so all that can be said is what happens to a separator that was the first of its kind, and
to a line that was ended.

Files grow at a line boundary. There the two ways of growing agree: a decoder that is stopped behind
a line feed has read everything before it, and no line reaches across.

## Main definitions

* `IsClosedBy` — a list is empty or ends in a given element.

## Main results

* `Text.lines_append` — behind an ended line the lines begin anew.
* `Text.exists_lines_of_not_isClosedBy` — behind a line that is not ended they do not.
* `Utf8.decode_append_of_isClosedBy` — behind a line feed decoding begins anew.
* `Utf8.dropPrefix?_decode` — looking for a text is looking for its bytes.
-/

namespace ClientStore

/-- The list is empty or ends in `x`. -/
def IsClosedBy {α : Type} (x : α) (l : List α) : Prop := l = [] ∨ ∃ front, l = front ++ [x]

namespace IsClosedBy

variable {α : Type} {x : α} {l m : List α}

theorem nil : IsClosedBy x [] := .inl rfl

theorem concat (l : List α) : IsClosedBy x (l ++ [x]) := .inr ⟨l, rfl⟩

theorem append (hl : IsClosedBy x l) (hm : IsClosedBy x m) : IsClosedBy x (l ++ m) := by
  rcases hm with rfl | ⟨front, rfl⟩
  · rw [List.append_nil]
    exact hl
  · rw [← List.append_assoc]
    exact concat _

/-- What is left when the first element is taken off ends like the whole, if there is anything. -/
theorem of_cons {a : α} (h : IsClosedBy x (a :: l)) : l = [] ∧ a = x ∨ l ≠ [] ∧ IsClosedBy x l := by
  rcases h with h | ⟨front, h⟩
  · contradiction
  cases front with
  | nil => exact .inl ⟨(List.cons.inj h).2, (List.cons.inj h).1⟩
  | cons b front =>
    obtain ⟨-, rfl⟩ := List.cons.inj h
    exact .inr ⟨by simp, concat front⟩

end IsClosedBy

namespace Text

/-! ### Separators -/

/-- A text is cut at a separator that nothing before it is. -/
theorem cut?_append {c : CodePoint} {front : Text} (h : c ∉ front) (back : Text) :
    cut? c (front ++ c :: back) = some (front, back) := by
  induction front with
  | nil => exact if_pos rfl
  | cons x front ih =>
    rw [List.mem_cons, not_or] at h
    rw [List.cons_append, cut?_cons, if_neg fun he => h.1 he.symm, ih h.2]
    rfl

/-- A text that is cut can be put together again. -/
theorem eq_append_of_cut? {c : CodePoint} {t front back : Text}
    (h : cut? c t = some (front, back)) : t = front ++ c :: back := by
  induction t generalizing front with
  | nil => contradiction
  | cons x t ih =>
    rw [cut?_cons] at h
    split at h
    · next hx =>
      obtain ⟨rfl, rfl⟩ := Prod.mk.inj (Option.some.inj h)
      rw [hx, List.nil_append]
    · obtain ⟨⟨front', back'⟩, ht, hp⟩ := Option.map_eq_some_iff.1 h
      obtain ⟨rfl, rfl⟩ := Prod.mk.inj hp
      rw [ih ht]
      rfl

theorem not_mem_of_cut? {c : CodePoint} {t front back : Text}
    (h : cut? c t = some (front, back)) : c ∉ front := by
  induction t generalizing front with
  | nil => contradiction
  | cons x t ih =>
    rw [cut?_cons] at h
    split at h
    · obtain ⟨rfl, rfl⟩ := Prod.mk.inj (Option.some.inj h)
      exact List.not_mem_nil
    · next hx =>
      obtain ⟨⟨front', back'⟩, ht, hp⟩ := Option.map_eq_some_iff.1 h
      obtain ⟨rfl, rfl⟩ := Prod.mk.inj hp
      rw [List.mem_cons, not_or]
      exact ⟨Ne.symm hx, ih ht⟩

/-- What stands behind a text in which there is no separator does not matter for the cut. -/
theorem exists_of_cut?_append {c : CodePoint} {body tail front back : Text} (hc : c ∉ tail)
    (h : cut? c (body ++ tail) = some (front, back)) :
    ∃ rest, body = front ++ c :: rest ∧ back = rest ++ tail := by
  rcases List.append_eq_append_iff.1 (eq_append_of_cut? h) with ⟨more, rfl, ht⟩ | ⟨more, rfl, ht⟩
  · exact absurd (by rw [ht]; simp) hc
  · cases more with
    | nil => exact absurd (by rw [← List.nil_append tail, ← ht]; simp) hc
    | cons x more =>
      obtain ⟨rfl, rfl⟩ := List.cons.inj ht
      exact ⟨more, rfl, rfl⟩

theorem dropPrefix?_eq_some_iff {start t rest : Text} :
    dropPrefix? start t = some rest ↔ t = start ++ rest := by
  induction start generalizing t with
  | nil => exact Option.some_inj
  | cons a start ih =>
    cases t with
    | nil => simp [dropPrefix?]
    | cons b t =>
      rw [dropPrefix?, List.cons_append, List.cons.injEq]
      split
      · next h => rw [ih, eq_comm (a := b), and_iff_right h]
      · next h => exact iff_of_false (by simp) fun h' => h h'.1.symm

/-! ### Ends of lines -/

/-- Only what is at the end is taken away. -/
theorem trimEnd_of_getLast? {p : CodePoint → Bool} {t : Text} (h : ∀ x ∈ t.getLast?, p x = false) :
    trimEnd p t = t := by
  induction t with
  | nil => rfl
  | cons x t ih =>
    cases t with
    | nil => simp [trimEnd_cons, h x rfl]
    | cons y t =>
      have ht : trimEnd p (y :: t) = y :: t := ih fun z hz => h z (by simpa using hz)
      simp [trimEnd_cons p x, ht]

theorem trimEnd_eq_self {p : CodePoint → Bool} {t : Text} (h : ∀ x ∈ t, p x = false) :
    trimEnd p t = t :=
  trimEnd_of_getLast? fun x hx => h x (List.mem_of_getLast? hx)

/-- Where more was taken away, there is nothing left to take away. -/
theorem trimEnd_trimEnd {p q : CodePoint → Bool} (h : ∀ x, p x = true → q x = true) (t : Text) :
    trimEnd p (trimEnd q t) = trimEnd q t := by
  induction t with
  | nil => rfl
  | cons x t ih =>
    simp only [trimEnd_cons]
    split
    · rfl
    · next hx =>
      rw [trimEnd_cons, ih, if_neg]
      intro hp
      rw [Bool.and_eq_true] at hp
      exact hx (by rw [Bool.and_eq_true]; exact ⟨hp.1, h x hp.2⟩)

theorem trimEnd_append {p : CodePoint → Bool} (t : Text) {tail : Text} (h : trimEnd p tail = []) :
    trimEnd p (t ++ tail) = trimEnd p t := by
  induction t with
  | nil => exact h
  | cons x t ih => simp only [List.cons_append, trimEnd_cons, ih]

/-- What is left does not end in what is taken away. -/
theorem eq_false_of_getLast?_trimEnd {p : CodePoint → Bool} {t : Text} :
    ∀ x ∈ (trimEnd p t).getLast?, p x = false := by
  induction t with
  | nil => exact nofun
  | cons x t ih =>
    intro y hy
    rw [trimEnd_cons] at hy
    split at hy
    · contradiction
    next hx =>
    cases hkept : trimEnd p t with
    | nil =>
      rw [hkept, List.getLast?_singleton, Option.mem_some_iff] at hy
      rw [hkept] at hx
      rw [← hy]
      simpa using hx
    | cons z rest =>
      rw [hkept, List.getLast?_cons_cons, ← hkept] at hy
      exact ih y hy

/-- What is left is what stands in front. -/
theorem trimEnd_isPrefix (p : CodePoint → Bool) (t : Text) : trimEnd p t <+: t := by
  induction t with
  | nil => exact List.prefix_rfl
  | cons x t ih =>
    rw [trimEnd_cons]
    split
    · exact List.nil_prefix
    · exact List.prefix_cons_inj x |>.2 ih

/-- Which code points are taken away matters only for those that are there. -/
theorem trimEnd_congr {p q : CodePoint → Bool} {t : Text} (h : ∀ x ∈ t, p x = q x) :
    trimEnd p t = trimEnd q t := by
  induction t with
  | nil => rfl
  | cons x t ih =>
    simp only [trimEnd_cons, ih fun y hy => h y (List.mem_cons_of_mem _ hy), h x (by simp)]

/-! ### Lines -/

theorem lines_ne_nil {t : Text} (h : t ≠ []) : lines t ≠ [] := by
  cases t with
  | nil => exact absurd rfl h
  | cons x t =>
    rw [lines_cons]
    split
    · simp
    · split <;> simp

/-- **The lines make up the text.** -/
theorem flatten_lines (t : Text) : (lines t).flatten = t := by
  induction t with
  | nil => rfl
  | cons x t ih =>
    rw [lines_cons]
    split
    · rw [List.flatten_cons, ih, List.singleton_append]
    · split
      · next h => rw [← ih, h]; rfl
      · next line others h => rw [← ih, h]; rfl

theorem infix_of_mem_lines {t line : Text} (h : line ∈ lines t) : line <:+: t := by
  have hin := List.infix_of_mem_flatten h
  rwa [flatten_lines] at hin

/-- A line has no line feed but the one that ends it. -/
theorem exists_of_mem_lines {t line : Text} (h : line ∈ lines t) :
    ∃ body tail, line = body ++ tail ∧ CodePoint.ofChar '\n' ∉ body ∧
      (tail = [] ∨ tail = [.ofChar '\n']) := by
  induction t generalizing line with
  | nil => contradiction
  | cons x t ih =>
    rw [lines_cons] at h
    split at h
    · next hx =>
      rcases List.mem_cons.1 h with rfl | h
      · exact ⟨[], [x], rfl, List.not_mem_nil, .inr (by rw [hx])⟩
      · exact ih h
    next hx =>
    split at h
    · obtain rfl := List.mem_singleton.1 h
      exact ⟨[x], [], rfl, by simpa using Ne.symm hx, .inl rfl⟩
    · next first others hl =>
      rcases List.mem_cons.1 h with rfl | h
      · obtain ⟨body, tail, rfl, hb, ht⟩ := ih (hl ▸ List.mem_cons_self)
        exact ⟨x :: body, tail, rfl, by simp [hb, Ne.symm hx], ht⟩
      · exact ih (hl ▸ List.mem_cons_of_mem _ h)

theorem lines_cons_of_ne {x : CodePoint} (h : x ≠ .ofChar '\n') {t line : Text} {others : List Text}
    (hl : lines t = line :: others) : lines (x :: t) = (x :: line) :: others := by
  rw [lines_cons, if_neg h, hl]

/-- **Behind an ended line the lines begin anew.** -/
theorem lines_append {s : Text} (h : IsClosedBy (.ofChar '\n') s) (t : Text) :
    lines (s ++ t) = lines s ++ lines t := by
  induction s with
  | nil => rfl
  | cons x s ih =>
    rcases h.of_cons with ⟨rfl, rfl⟩ | ⟨hne, hs⟩
    · exact if_pos rfl
    · by_cases hx : x = .ofChar '\n'
      · rw [List.cons_append, lines_cons, if_pos hx, ih hs, lines_cons, if_pos hx, List.cons_append]
      · obtain ⟨line, others, hl⟩ := List.exists_cons_of_ne_nil (lines_ne_nil hne)
        have hst : lines (s ++ t) = line :: (others ++ lines t) := by
          rw [ih hs, hl]
          rfl
        rw [List.cons_append, lines_cons_of_ne hx hst, lines_cons_of_ne hx hl]
        rfl

theorem lines_line {t : Text} (h : CodePoint.ofChar '\n' ∉ t) :
    lines (t ++ [.ofChar '\n']) = [t ++ [.ofChar '\n']] := by
  induction t with
  | nil => rfl
  | cons x t ih =>
    rw [List.mem_cons, not_or] at h
    exact lines_cons_of_ne (fun he => h.1 he.symm) (ih h.2)

theorem lines_of_not_mem {t : Text} (hne : t ≠ []) (h : CodePoint.ofChar '\n' ∉ t) :
    lines t = [t] := by
  induction t with
  | nil => exact absurd rfl hne
  | cons x t ih =>
    rw [List.mem_cons, not_or] at h
    have hx : x ≠ .ofChar '\n' := fun he => h.1 he.symm
    cases t with
    | nil => exact (lines_cons x []).trans (if_neg hx)
    | cons y t => exact lines_cons_of_ne hx (ih (by simp) h.2)

/-- A text that does not end at the end of a line has a last line that is not ended. -/
theorem exists_eq_append_of_not_isClosedBy {s : Text} (h : ¬ IsClosedBy (.ofChar '\n') s) :
    ∃ front last, s = front ++ last ∧ IsClosedBy (.ofChar '\n') front ∧ last ≠ [] ∧
      CodePoint.ofChar '\n' ∉ last := by
  induction s with
  | nil => exact absurd .nil h
  | cons x s ih =>
    by_cases hs : IsClosedBy (.ofChar '\n') s
    · rcases hs with rfl | ⟨t, rfl⟩
      · refine ⟨[], [x], rfl, .nil, by simp, ?_⟩
        rw [List.mem_singleton]
        rintro rfl
        exact h (.concat [])
      · exact absurd (.concat (x :: t)) h
    · obtain ⟨front, last, rfl, hf, hne, hl⟩ := ih hs
      by_cases hx : front = [] ∧ x ≠ .ofChar '\n'
      · obtain ⟨rfl, hx⟩ := hx
        exact ⟨[], x :: last, rfl, .nil, by simp, by simpa [hx.symm] using hl⟩
      · refine ⟨x :: front, last, rfl, ?_, hne, hl⟩
        rcases hf with rfl | ⟨t, rfl⟩
        · rw [show x = .ofChar '\n' by simpa using hx]
          exact .concat []
        · exact .concat (x :: t)

/-- **What is written behind a line that is not ended becomes part of it.** -/
theorem exists_lines_of_not_isClosedBy {s : Text} (h : ¬ IsClosedBy (.ofChar '\n') s) :
    ∃ before last, last ≠ [] ∧ CodePoint.ofChar '\n' ∉ last ∧ lines s = before ++ [last] ∧
      ∀ t, CodePoint.ofChar '\n' ∉ t →
        lines (s ++ (t ++ [.ofChar '\n'])) = before ++ [last ++ t ++ [.ofChar '\n']] := by
  obtain ⟨front, last, rfl, hf, hne, hl⟩ := exists_eq_append_of_not_isClosedBy h
  refine ⟨lines front, last, hne, hl, ?_, ?_⟩
  · rw [lines_append hf, lines_of_not_mem hne hl]
  · intro t ht
    have hlt : CodePoint.ofChar '\n' ∉ last ++ t := by simp [hl, ht]
    rw [List.append_assoc, lines_append hf, ← List.append_assoc, lines_line hlt]

/-- The lines of a text that was put together from lines. -/
theorem lines_flatMap {ι : Type} {f : ι → Text} {is : List ι}
    (h : ∀ i ∈ is, CodePoint.ofChar '\n' ∉ f i) :
    lines (is.flatMap fun i => f i ++ [.ofChar '\n']) = is.map fun i => f i ++ [.ofChar '\n'] := by
  induction is with
  | nil => rfl
  | cons i is ih =>
    rw [List.flatMap_cons, lines_append (.concat (f i)), lines_line (h i (by simp)),
      ih fun j hj => h j (List.mem_cons_of_mem _ hj)]
    rfl

end Text

/-! ### Line boundaries in files -/

namespace Utf8

theorem decode_append_lineFeed (u v : Bytes) :
    decode (u ++ 0x0A :: v) = decode u ++ .ofChar '\n' :: decode v :=
  decode_append_ascii (by decide) u v

theorem lineFeed_not_mem_decode {u : Bytes} (h : 0x0A ∉ u) : CodePoint.ofChar '\n' ∉ decode u :=
  mt (mem_encode?_iff (x := 0x0A) (by decide) (encode?_decode u)).2 h

/-- **Induction along the lines of a file.** The last one is not ended, but it may be empty. -/
theorem lines_induction {P : Bytes → Prop} (last : ∀ u, 0x0A ∉ u → P u)
    (line : ∀ u v, 0x0A ∉ u → P v → P (u ++ 0x0A :: v)) (c : Bytes) : P c := by
  by_cases h : 0x0A ∈ c
  · obtain ⟨u, v, hc, hu⟩ := List.eq_append_cons_of_mem h
    rw [hc]
    exact line u v hu (lines_induction last line v)
  · exact last c h
  termination_by c.length
  decreasing_by
    rw [hc, List.length_append, List.length_cons]
    omega

theorem isClosedBy_decode {u : Bytes} (h : IsClosedBy 0x0A u) :
    IsClosedBy (.ofChar '\n') (decode u) := by
  rcases h with rfl | ⟨front, rfl⟩
  · exact .nil
  · rw [decode_append_lineFeed]
    exact .concat _

/-- **Behind a line feed decoding begins anew**, whatever comes before it and after it. -/
theorem decode_append_of_isClosedBy {u : Bytes} (h : IsClosedBy 0x0A u) (v : Bytes) :
    decode (u ++ v) = decode u ++ decode v := by
  rcases h with rfl | ⟨front, rfl⟩
  · rfl
  · rw [List.append_assoc, List.singleton_append, decode_append_lineFeed, decode_append_lineFeed,
      List.append_assoc]
    rfl

/-- A text that ends in a line feed is written as bytes that do. -/
theorem isClosedBy_encode? {t : Text} {bytes : Bytes}
    (h : encode? (t ++ [.ofChar '\n']) = some bytes) : IsClosedBy 0x0A bytes := by
  obtain ⟨front, back, -, hb, rfl⟩ := exists_of_encode?_append h
  obtain rfl : back = [0x0A] := Option.some.inj (hb.symm.trans (by decide))
  exact .concat front

/-- Bytes that are read as ended lines are ended lines. -/
theorem isClosedBy_decode_iff {u : Bytes} :
    IsClosedBy (.ofChar '\n') (decode u) ↔ IsClosedBy 0x0A u := by
  refine ⟨?_, isClosedBy_decode⟩
  rintro (h | ⟨t, h⟩)
  · exact .inl (decode_injective h)
  · exact isClosedBy_encode? (h ▸ encode?_decode u)

/-- A text without surrogates is read back behind any bytes. -/
theorem decode_append_encode? (u : Bytes) {t : Text} {data : Bytes} (h : encode? t = some data)
    (ht : t.hasSurrogate = false) : decode (u ++ data) = decode u ++ t := by
  obtain ⟨data', he, hd⟩ := exists_encode?_of_hasSurrogate_eq_false ht
  obtain rfl : data = data' := Option.some.inj (h.symm.trans he)
  rw [decode_append u ?_, hd]
  cases t with
  | nil =>
    cases h
    simp
  | cons c t =>
    obtain ⟨front, back, hf, -, rfl⟩ := encode?_cons_eq_some h
    rcases spells_or_eq_escape hf with hc | ⟨a, -, rfl, -⟩
    · obtain ⟨a, bs, rfl⟩ := exists_cons_of_spells hc
      intro b hb
      obtain rfl : a = b := by simpa using hb
      exact (isContinuation_of_spells hc).1
    · simp [Text.hasSurrogate, isSurrogate_escape] at ht

/-- A text without surrogates is read back in front of any bytes. -/
theorem decode_encode?_append {t : Text} {data : Bytes} (h : encode? t = some data)
    (ht : t.hasSurrogate = false) (v : Bytes) : decode (data ++ v) = t ++ decode v := by
  induction t generalizing data with
  | nil =>
    cases h
    rfl
  | cons c t ih =>
    obtain ⟨front, back, hf, hb, rfl⟩ := encode?_cons_eq_some h
    have hct : c.isSurrogate = false ∧ Text.hasSurrogate t = false := Bool.or_eq_false_iff.1 ht
    rcases spells_or_eq_escape hf with hc | ⟨a, -, rfl, -⟩
    · rw [List.append_assoc, decode_append_of_spells hc, ih hb hct.2, List.cons_append]
    · rw [isSurrogate_escape] at hct
      exact absurd hct.1 (by simp)

/-- **What was read begins with a text exactly where the bytes of the text stand in front.** -/
theorem dropPrefix?_decode {start : Text} {front : Bytes} (he : encode? start = some front)
    (hs : start.hasSurrogate = false) (u : Bytes) :
    Text.dropPrefix? start (decode u) =
      if front <+: u then some (decode (u.drop front.length)) else none := by
  split
  · next h =>
    obtain ⟨rest, rfl⟩ := h
    rw [Text.dropPrefix?_eq_some_iff, List.drop_left, decode_encode?_append he hs]
  · next h =>
    rw [Option.eq_none_iff_forall_ne_some]
    intro rest hr
    have hu := encode?_decode u
    rw [Text.dropPrefix?_eq_some_iff.1 hr] at hu
    obtain ⟨front', back, hf, -, rfl⟩ := exists_of_encode?_append hu
    obtain rfl : front = front' := Option.some.inj (he.symm.trans hf)
    exact h (List.prefix_append _ _)

/-- The lines of a file that has grown at a line boundary. -/
theorem lines_decode_append {u : Bytes} (h : IsClosedBy 0x0A u) (v : Bytes) :
    (decode (u ++ v)).lines = (decode u).lines ++ (decode v).lines := by
  rw [decode_append_of_isClosedBy h, Text.lines_append (isClosedBy_decode h)]

end Utf8

end ClientStore
