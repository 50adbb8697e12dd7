import ClientStore.Proofs.FileTree.Walk
import ClientStore.Proofs.Text.Utf8
import ClientStore.Disk

/-!
# Walking along paths

A path is asked for as bytes, and the file tree takes the bytes apart again. What it gets back are
the components of the path, so that the two can be told apart by nothing: asking for a path is a
walk along its components.

A child has one component more. Its text is the text of its parent with something put in front and
behind, which is all that has to be known about it.

## Main definitions

* `FilePath.names`, `FilePath.start` — the components as bytes, and where the walk begins.
* `FilePath.IsShort` — the file tree can be asked for a path.

## Main results

* `FilePath.locate_eq_walk` — asking for a path is a walk along its names.
* `FilePath.isShort_of_child` — a path can be asked for if a child of it can.
* `FilePath.bytes_child` — when a child has bytes.
-/

namespace ClientStore

namespace FileTree

theorem namePieces_of_not_mem {path : Bytes} (h : 0x2F ∉ path) : namePieces path = [path] := by
  induction path with
  | nil => rfl
  | cons b rest ih =>
    rw [List.mem_cons, not_or] at h
    rw [namePieces, if_neg fun he => h.1 he.symm, ih h.2]

theorem namePieces_append {front : Bytes} (h : 0x2F ∉ front) (back : Bytes) :
    namePieces (front ++ 0x2F :: back) = front :: namePieces back := by
  induction front with
  | nil => simp [namePieces]
  | cons b rest ih =>
    rw [List.mem_cons, not_or] at h
    rw [List.cons_append, namePieces, if_neg fun he => h.1 he.symm, ih h.2]

end FileTree

/-! ### Components -/

namespace Component

/-- A component as bytes. Components without any do not occur in paths that are asked for. -/
def bytes (c : Component) : Bytes := (Utf8.encode? c.text).getD []

theorem text_ne_nil (c : Component) : c.text ≠ [] := by
  have h := c.valid
  simp only [isComponent, Bool.and_eq_true] at h
  simpa using h.1.1

theorem slash_not_mem (c : Component) : CodePoint.ofChar '/' ∉ c.text := by
  have h := c.valid
  simp only [isComponent, Bool.and_eq_true] at h
  simpa using h.2

theorem bytes_eq {c : Component} {b : Bytes} (h : Utf8.encode? c.text = some b) : c.bytes = b := by
  rw [bytes, h]
  rfl

theorem bytes_ne_nil {c : Component} {b : Bytes} (h : Utf8.encode? c.text = some b) : b ≠ [] := by
  obtain ⟨a, t, ht⟩ := List.exists_cons_of_ne_nil c.text_ne_nil
  rw [ht] at h
  obtain ⟨front, back, hf, -, rfl⟩ := Utf8.encode?_cons_eq_some h
  intro he
  rw [(List.append_eq_nil_iff.1 he).1] at hf
  exact Utf8.encodePoint?_ne_some_nil a hf

theorem slash_not_mem_bytes {c : Component} {b : Bytes} (h : Utf8.encode? c.text = some b) :
    0x2F ∉ b := by
  rw [Utf8.mem_encode?_iff (by decide) h]
  exact c.slash_not_mem

theorem bytes_ne_dot {c : Component} {b : Bytes} (h : Utf8.encode? c.text = some b) :
    b ≠ [0x2E] := by
  rintro rfl
  have ht := Utf8.eq_map_of_encode?_eq_some (by simp) h
  have hv := c.valid
  rw [isComponent, ht] at hv
  exact absurd hv (by decide)

/-- A component that does not lead back is the name of a node. -/
theorem isPlain {c : Component} {b : Bytes} (h : Utf8.encode? c.text = some b)
    (hback : FilePath.isBack c = false) : FileTree.IsPlain b := by
  refine ⟨fun hi => hi.elim (bytes_ne_nil h) (bytes_ne_dot h), ?_⟩
  rintro rfl
  have ht := Utf8.eq_map_of_encode?_eq_some (by simp) h
  rw [FilePath.isBack, ht] at hback
  exact absurd hback (by decide)

end Component

namespace FilePath

/-- The components as bytes. -/
def names (p : FilePath) : List Bytes := p.components.map Component.bytes

/-- The directory where the walk along a path begins, if it is asked for at `here`. -/
def start (p : FilePath) (here : Nat) : Nat :=
  match p.anchor with
  | .here => here
  | .root | .doubleRoot => FileTree.root

/-- What has to be known of the bytes of some components that are joined by slashes. -/
structure IsJoined (cs : List Component) (b : Bytes) : Prop where
  pieces : FileTree.namePieces b = cs.map Component.bytes
  names : ∀ name ∈ cs.map Component.bytes, name ≠ []
  head : b.head? ≠ some 0x2F
  last : b.getLast? ≠ some 0x2F
  ne_nil : b ≠ []

theorem isJoined_of_encode? : ∀ {cs : List Component} {b : Bytes}, cs ≠ [] →
    Utf8.encode? (joined cs) = some b → IsJoined cs b
  | [c], b, _, h => by
    have hs := Component.slash_not_mem_bytes h
    have hn := Component.bytes_ne_nil h
    refine ⟨?_, ?_, fun he => hs (List.mem_of_head? he), fun he => hs (List.mem_of_getLast? he), hn⟩
    · rw [FileTree.namePieces_of_not_mem hs, List.map_singleton, Component.bytes_eq h]
    · rw [List.map_singleton, Component.bytes_eq h]
      simpa using hn
  | c :: d :: cs, b, _, h => by
    obtain ⟨front, back, hf, hb, rfl⟩ := Utf8.exists_of_encode?_append h
    obtain ⟨slash, rest, hsl, hr, rfl⟩ := Utf8.encode?_cons_eq_some hb
    obtain rfl : slash = [0x2F] := Option.some.inj (hsl.symm.trans (by decide))
    have hs := Component.slash_not_mem_bytes hf
    have hn := Component.bytes_ne_nil hf
    have ih := isJoined_of_encode? (List.cons_ne_nil d cs) hr
    refine ⟨?_, ?_, ?_, ?_, by simp⟩
    · rw [List.singleton_append, FileTree.namePieces_append hs, ih.pieces,
        List.map_cons (l := d :: cs), Component.bytes_eq hf]
    · rw [List.map_cons, List.forall_mem_cons, Component.bytes_eq hf]
      exact ⟨hn, ih.names⟩
    · obtain ⟨a, front, rfl⟩ := List.exists_cons_of_ne_nil hn
      exact fun he => hs (List.mem_of_head? he)
    · have hl := ih.last
      rw [List.getLast?_eq_some_getLast ih.ne_nil] at hl
      rw [List.getLast?_append, List.getLast?_append, List.getLast?_eq_some_getLast ih.ne_nil]
      exact hl

theorem IsJoined.namesAlong {cs : List Component} {b : Bytes} (h : IsJoined cs b)
    (slashes : Nat) :
    FileTree.namesAlong (List.replicate slashes 0x2F ++ b) = cs.map Component.bytes := by
  have hl := h.last
  rw [List.getLast?_eq_some_getLast h.ne_nil] at hl
  rw [FileTree.namesAlong, List.getLast?_append, List.getLast?_eq_some_getLast h.ne_nil,
    Option.some_or, if_neg hl, List.append_nil]
  induction slashes with
  | zero =>
    rw [List.replicate_zero, List.nil_append, h.pieces, List.filter_eq_self]
    intro name hn
    simpa using h.names name hn
  | succ n ih =>
    rw [List.replicate_succ, List.cons_append, FileTree.namePieces, if_pos rfl]
    exact ih

theorem encode?_slash_cons {t : Text} {b : Bytes} (h : Utf8.encode? (.ofChar '/' :: t) = some b) :
    ∃ rest, Utf8.encode? t = some rest ∧ b = 0x2F :: rest := by
  obtain ⟨slash, rest, hsl, hr, rfl⟩ := Utf8.encode?_cons_eq_some h
  obtain rfl : slash = [0x2F] := Option.some.inj (hsl.symm.trans (by decide))
  exact ⟨rest, hr, rfl⟩

/-- The slashes in front say where a path starts, and the rest are its components. -/
theorem exists_isJoined {p : FilePath} {b : Bytes} (h : Utf8.encode? p.toText = some b)
    (hc : p.components ≠ []) :
    ∃ slashes body, b = List.replicate slashes 0x2F ++ body ∧ IsJoined p.components body ∧
      ∀ here, FileTree.origin here b = p.start here := by
  obtain ⟨anchor, cs⟩ := p
  have hempty : cs.isEmpty = false := by simpa using hc
  cases anchor with
  | here =>
    simp only [toText, hempty, Bool.false_eq_true, if_false] at h
    have hj := isJoined_of_encode? hc h
    exact ⟨0, b, rfl, hj, fun here => if_neg hj.head⟩
  | root =>
    obtain ⟨rest, hr, rfl⟩ := encode?_slash_cons h
    exact ⟨1, rest, rfl, isJoined_of_encode? hc hr, fun here => if_pos rfl⟩
  | doubleRoot =>
    obtain ⟨rest, hr, rfl⟩ := encode?_slash_cons h
    obtain ⟨body, hb, rfl⟩ := encode?_slash_cons hr
    exact ⟨2, body, rfl, isJoined_of_encode? hc hb, fun here => if_pos rfl⟩

open FileTree in
/-- The path without components, which is written as something that a walk passes over. -/
theorem locate_eq_walk_of_empty {p : FilePath} {b : Bytes} (h : Utf8.encode? p.toText = some b)
    (hc : p.components = []) (t : FileTree) (here : Nat) (aim : Aim) :
    t.locate here aim b = .ok (.directory (p.start here)) := by
  obtain ⟨anchor, cs⟩ := p
  cases hc
  cases anchor with
  | here =>
    obtain rfl : b = [0x2E] := Option.some.inj (h.symm.trans (by decide))
    exact (walk_idle (.inr rfl)).trans walk_nil
  | root =>
    obtain rfl : b = [0x2F] := Option.some.inj (h.symm.trans (by decide))
    exact (walk_idle (.inl rfl)).trans walk_nil
  | doubleRoot =>
    obtain rfl : b = [0x2F, 0x2F] := Option.some.inj (h.symm.trans (by decide))
    exact (walk_idle (.inl rfl)).trans walk_nil

open FileTree in
/-- Bytes that are no path because there are too many of them are refused as such. -/
theorem length_lt_of_locate {t : FileTree} {here : Nat} {aim : Aim} {b : Bytes}
    (h : t.locate here aim b ≠ .error .nameTooLong) : b.length < pathLengthBound := by
  refine Nat.lt_of_not_le ?_
  intro hle
  have hne : b ≠ [] := by
    rintro rfl
    exact absurd hle (by decide)
  rw [locate, if_neg (by simpa using hne), if_pos hle] at h
  exact h rfl

open FileTree in
/-- **Asking for a path is a walk along its names.** -/
theorem locate_eq_walk {p : FilePath} {b : Bytes} (h : Utf8.encode? p.toText = some b)
    (hl : b.length < pathLengthBound) (t : FileTree) (here : Nat) (aim : Aim) :
    t.locate here aim b = t.walk aim maxLinks (p.start here) p.names := by
  by_cases hc : p.components = []
  · rw [locate_eq_walk_of_empty h hc, names, hc, List.map_nil, walk_nil]
  · obtain ⟨slashes, body, rfl, hj, hstart⟩ := exists_isJoined h hc
    rw [locate, if_neg (by simp [hj.ne_nil]), if_neg (Nat.not_le.2 hl), hstart, hj.namesAlong]
    rfl

/-! ### Bytes of paths -/

theorem bytes_eq_ok_iff {p : FilePath} {b : Bytes} :
    p.bytes = .ok b ↔ Utf8.encode? p.toText = some b ∧ 0 ∉ b := by
  rw [bytes, Text.systemBytes]
  cases Utf8.encode? p.toText with
  | none => simp
  | some bytes =>
    by_cases h : 0 ∈ bytes
    · simp only [List.contains_iff_mem.2 h, if_true, Option.some_inj]
      refine iff_of_false (by simp) ?_
      rintro ⟨rfl, hn⟩
      exact hn h
    · have hc : bytes.contains 0 = false := by simpa using h
      simp only [hc, Bool.false_eq_true, if_false, Except.ok.injEq, Option.some_inj]
      exact ⟨fun he => ⟨he, he ▸ h⟩, And.left⟩

/-- The file tree can be asked for the path: it has bytes, and not too many of them. -/
def IsShort (p : FilePath) : Prop := ∃ b, p.bytes = .ok b ∧ b.length < FileTree.pathLengthBound

/-! ### Children -/

section Child

variable {t : Text} {p : FilePath}

theorem pieces_of_not_mem {c : CodePoint} (h : c ∉ t) : t.pieces c = [t] := by
  induction t with
  | nil => rfl
  | cons x t ih =>
    rw [List.mem_cons, not_or] at h
    rw [Text.pieces, if_neg fun he => h.1 he.symm, ih h.2]

theorem ofText_of_isComponent (h : isComponent t) : ofText t = ⟨.here, [⟨t, h⟩]⟩ := by
  have hs : CodePoint.ofChar '/' ∉ t := Component.slash_not_mem ⟨t, h⟩
  obtain ⟨a, rest, rfl⟩ := List.exists_cons_of_ne_nil (Component.text_ne_nil ⟨t, h⟩)
  rw [List.mem_cons, not_or] at hs
  have ha : (decide (a = CodePoint.ofChar '/')) = false := decide_eq_false fun he => hs.1 he.symm
  rw [ofText, List.takeWhile_cons, ha, pieces_of_not_mem (by simpa using hs), List.filterMap_cons,
    Component.ofText?, dif_pos h]
  rfl

theorem child_eq (h : isComponent t) (p : FilePath) :
    p.child t = ⟨p.anchor, p.components ++ [⟨t, h⟩]⟩ := by
  rw [child, ofText_of_isComponent h, append]

/-- Without a slash, only the empty text and the single dot are no component. They lead nowhere. -/
theorem child_of_not_isComponent (h : isComponent t = false) (hs : CodePoint.ofChar '/' ∉ t)
    (p : FilePath) : p.child t = p := by
  have ht : ofText t = ⟨.here, []⟩ := by
    obtain rfl | rfl : t = [] ∨ t = [.ofChar '.'] := by
      simpa [isComponent, hs, or_iff_not_imp_left] using h
    · rfl
    · rfl
  rw [child, ht, append, List.append_nil]

theorem names_child (h : isComponent t) {b : Bytes} (hb : Utf8.encode? t = some b) :
    (p.child t).names = p.names ++ [b] := by
  rw [child_eq h, names, List.map_append, List.map_singleton, Component.bytes_eq hb, names]

theorem start_child (h : isComponent t) (here : Nat) : (p.child t).start here = p.start here := by
  rw [child_eq h]
  rfl

/-- What stands in front of the text of a child. -/
def stem (p : FilePath) : Text :=
  match p.anchor, p.components with
  | .here, [] => []
  | .root, [] => ['/']
  | .doubleRoot, [] => ['/', '/']
  | _, _ :: _ => p.toText ++ [.ofChar '/']

theorem stem_cons (anchor : Anchor) (c : Component) (cs : List Component) :
    stem ⟨anchor, c :: cs⟩ = toText ⟨anchor, c :: cs⟩ ++ [.ofChar '/'] := by
  cases anchor <;> rfl

theorem joined_concat : ∀ {cs : List Component} (_ : cs ≠ []) (c : Component),
    joined (cs ++ [c]) = joined cs ++ .ofChar '/' :: c.text
  | [_], _, _ => rfl
  | b :: d :: cs, _, c => by
    show b.text ++ (_ :: joined (d :: cs ++ [c])) = _
    rw [joined_concat (by simp)]
    simp [joined]

theorem toText_child (h : isComponent t) (p : FilePath) : (p.child t).toText = p.stem ++ t := by
  rw [child_eq h]
  obtain ⟨anchor, cs⟩ := p
  cases cs with
  | nil => cases anchor <;> rfl
  | cons c cs =>
    have hj := joined_concat (List.cons_ne_nil c cs) ⟨t, h⟩
    rw [List.cons_append] at hj
    cases anchor <;> simp [toText, stem, hj]

/-- A path is at most as long as a child of it, and it has bytes if the child has. -/
theorem exists_bytes_of_child (h : isComponent t) {b : Bytes} (hb : (p.child t).bytes = .ok b) :
    ∃ b', p.bytes = .ok b' ∧ b'.length ≤ b.length := by
  obtain ⟨he, hz⟩ := bytes_eq_ok_iff.1 hb
  rw [toText_child h] at he
  obtain ⟨front, back, hf, hback, rfl⟩ := Utf8.exists_of_encode?_append he
  have hne := Component.bytes_ne_nil (c := ⟨t, h⟩) hback
  have hlen : 0 < back.length := List.length_pos_iff.2 hne
  rw [List.mem_append, not_or] at hz
  obtain ⟨anchor, cs⟩ := p
  cases cs with
  | nil =>
    cases anchor with
    | here => exact ⟨[0x2E], rfl, by simp; omega⟩
    | root => exact ⟨front, bytes_eq_ok_iff.2 ⟨hf, hz.1⟩, by simp⟩
    | doubleRoot => exact ⟨front, bytes_eq_ok_iff.2 ⟨hf, hz.1⟩, by simp⟩
  | cons c cs =>
    rw [stem_cons] at hf
    obtain ⟨own, slash, ho, -, rfl⟩ := Utf8.exists_of_encode?_append hf
    rw [List.mem_append, not_or] at hz
    exact ⟨own, bytes_eq_ok_iff.2 ⟨ho, hz.1.1⟩, by simp⟩

/-- **A child has bytes exactly if its path has**, as long as its own name has some. -/
theorem exists_bytes_child_iff (h : isComponent t) {own : Bytes} (ho : Utf8.encode? t = some own)
    (hz : 0 ∉ own) : (∃ b, (p.child t).bytes = .ok b) ↔ ∃ b, p.bytes = .ok b := by
  constructor
  · rintro ⟨b, hb⟩
    obtain ⟨b', hb', -⟩ := exists_bytes_of_child h hb
    exact ⟨b', hb'⟩
  · rintro ⟨b, hb⟩
    have hstem : ∃ front, Utf8.encode? p.stem = some front ∧ 0 ∉ front := by
      obtain ⟨hb, hn⟩ := bytes_eq_ok_iff.1 hb
      obtain ⟨anchor, cs⟩ := p
      cases cs with
      | nil => cases anchor <;> exact ⟨_, rfl, by decide⟩
      | cons c cs =>
        rw [stem_cons]
        exact ⟨_, Utf8.encode?_append hb (by rfl : Utf8.encode? [.ofChar '/'] = some [0x2F]),
          by simpa using hn⟩
    obtain ⟨front, hf, hn⟩ := hstem
    refine ⟨front ++ own, bytes_eq_ok_iff.2 ⟨?_, by simp [hn, hz]⟩⟩
    rw [toText_child h]
    exact Utf8.encode?_append hf ho

theorem isShort_of_child (h : isComponent t) (hs : (p.child t).IsShort) : p.IsShort := by
  obtain ⟨b, hb, hl⟩ := hs
  obtain ⟨b', hb', hle⟩ := exists_bytes_of_child h hb
  exact ⟨b', hb', Nat.lt_of_le_of_lt hle hl⟩

end Child

end FilePath

end ClientStore
