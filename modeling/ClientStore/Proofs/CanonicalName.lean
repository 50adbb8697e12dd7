import ClientStore.Proofs.Layout
import ClientStore.Session.Cursor

/-!
# Names that files are given and names that files have

The coding gives files names of one form only. The scanner takes any name: an escape may be written
with small letters, or for a byte that needs none, a percent sign may stand for itself, and there
may be bytes of any kind. So a file that somebody else has named is listed, but under a name for
which the program looks elsewhere. Coding what was read gives the canonical name instead, which
stands for the same bytes; and only a file that has it already is found again.

The form is given here without reference to the coding, as a sequence of pieces.

## Main definitions

* `Percent.safeCharacters`, `Percent.upperDigits` — what canonical names are written with.
* `Percent.IsPiece`, `Percent.IsCanonical` — canonical names and what they consist of.

## Main results

* `Percent.isCanonical_iff` — the canonical names are those that the coding gives.
* `Layout.hasEntryAt_listed_iff` — which files are found by the names under which they are listed.
* `ProfileName.stored?_canonical` — all of this for names, files and listed files.
-/

namespace ClientStore

open FileTree

namespace Percent

/-! ### Canonical names -/

/-- The characters that stand for themselves. -/
def safeCharacters : Text := "0123456789ABCDEFGHIJKLMNOPQRSTUVWXYZabcdefghijklmnopqrstuvwxyz+-.@_"

/-- The digits of an escape, each at the position that is its value. -/
def upperDigits : Text := "0123456789ABCDEF"

/-- A character that stands for itself, or an escape for a byte that is not one of these. -/
inductive IsPiece : Text → Prop
  | safe {c : CodePoint} (h : c ∈ safeCharacters) : IsPiece [c]
  | escape {n m : Nat} {high low : CodePoint} (hn : upperDigits[n]? = some high)
    (hm : upperDigits[m]? = some low) (h : CodePoint.ofNat (16 * n + m) ∉ safeCharacters) :
    IsPiece [.ofChar '%', high, low]

/-- The text consists of pieces. -/
def IsCanonical (f : Text) : Prop :=
  ∃ pieces : List Text, f = pieces.flatten ∧ ∀ p ∈ pieces, IsPiece p

theorem mem_safeCharacters_iff {c : CodePoint} : c ∈ safeCharacters ↔ c.val ∈ safeNumbers := by
  have hval : safeCharacters.map Fin.val = safeNumbers := rfl
  rw [Text.mem_iff_val_mem, hval]

theorem isSafe_iff (b : UInt8) :
    isSafe b = true ↔ CodePoint.ofNat b.toNat ∈ safeCharacters := by
  have hlt := b.toNat_lt
  rw [isSafe_iff_mem_safeNumbers, mem_safeCharacters_iff, CodePoint.val_ofNat (by omega)]

theorem val_lt_of_mem_safeCharacters {c : CodePoint} (h : c ∈ safeCharacters) : c.val < 0x80 := by
  rw [mem_safeCharacters_iff, mem_safeNumbers_iff] at h
  omega

theorem upperDigits_get? : ∀ n < 16, upperDigits[n]? = some (Hex.upper n) := by decide

theorem eq_upper_of_get? {n : Nat} {c : CodePoint} (h : upperDigits[n]? = some c) :
    n < 16 ∧ c = Hex.upper n := by
  have hn : n < 16 := (List.getElem?_eq_some_iff.1 h).1
  exact ⟨hn, Option.some.inj (h.symm.trans (upperDigits_get? n hn))⟩

theorem isPiece_encodeByte (b : UInt8) : IsPiece (encodeByte b) := by
  by_cases hb : isSafe b = true
  · rw [encodeByte, if_pos hb]
    exact .safe ((isSafe_iff b).1 hb)
  · have hlt := b.toNat_lt
    rw [encodeByte, if_neg hb]
    refine .escape (upperDigits_get? _ (by omega)) (upperDigits_get? _ (by omega)) ?_
    rw [Nat.div_add_mod]
    exact mt (isSafe_iff b).2 hb

/-- Every piece is the written form of a byte. -/
theorem exists_of_isPiece {p : Text} (h : IsPiece p) : ∃ b, encodeByte b = p := by
  cases h with
  | @safe c h =>
    have hlt := val_lt_of_mem_safeCharacters h
    have hnat : (UInt8.ofNat c.val).toNat = c.val := Utf8.toNat_byte (by omega)
    have hc : CodePoint.ofNat (UInt8.ofNat c.val).toNat = c := CodePoint.ofNat_eq hnat
    refine ⟨.ofNat c.val, ?_⟩
    rw [encodeByte, if_pos ((isSafe_iff _).2 (hc.symm ▸ h)), hc]
  | @escape n m high low hn hm h =>
    obtain ⟨hn, rfl⟩ := eq_upper_of_get? hn
    obtain ⟨hm, rfl⟩ := eq_upper_of_get? hm
    have hnat : (UInt8.ofNat (16 * n + m)).toNat = 16 * n + m := Utf8.toNat_byte (by omega)
    have hunsafe : ¬ isSafe (.ofNat (16 * n + m)) = true := by
      rwa [isSafe_iff, hnat]
    refine ⟨.ofNat (16 * n + m), ?_⟩
    rw [encodeByte, if_neg hunsafe, hnat, show (16 * n + m) / 16 = n by omega,
      show (16 * n + m) % 16 = m by omega]

/-- **The canonical names are those that the coding gives.** -/
theorem isCanonical_iff {f : Text} : IsCanonical f ↔ ∃ bytes, encode bytes = f := by
  constructor
  · rintro ⟨pieces, rfl, h⟩
    induction pieces with
    | nil => exact ⟨[], rfl⟩
    | cons p pieces ih =>
      obtain ⟨hp, hpieces⟩ := List.forall_mem_cons.1 h
      obtain ⟨b, rfl⟩ := exists_of_isPiece hp
      obtain ⟨bytes, hbytes⟩ := ih hpieces
      exact ⟨b :: bytes, by rw [encode, List.flatMap_cons, ← encode, hbytes, List.flatten_cons]⟩
  · rintro ⟨bytes, rfl⟩
    refine ⟨bytes.map encodeByte, List.flatMap_def, fun p hp => ?_⟩
    obtain ⟨b, -, rfl⟩ := List.mem_map.1 hp
    exact isPiece_encodeByte b

/-- Coding what was read gives the name again exactly if it is canonical. -/
theorem encode_eq_iff {f : Text} {raw : Bytes} (h : decode? f = some raw) :
    encode raw = f ↔ IsCanonical f := by
  refine ⟨fun he => isCanonical_iff.2 ⟨raw, he⟩, fun hc => ?_⟩
  obtain ⟨bytes, rfl⟩ := isCanonical_iff.1 hc
  rw [decode?_encode] at h
  rw [Option.some.inj h]

end Percent

/-! ### Files that are listed -/

namespace ProfileName

/-- What is read of a file's name has bytes again, and they are the same. -/
theorem raw?_of_decode? {f : Text} {raw : Bytes} (h : Percent.decode? f = some raw) :
    listed? f = some (Utf8.decode raw) ∧ (text (Utf8.decode raw)).raw? = some raw := by
  refine ⟨?_, Utf8.encode?_decode raw⟩
  rw [listed?, h]
  rfl

end ProfileName

namespace Layout

variable {l : Layout} {w : World} {d : Nat} {name : Bytes} {node : Node} {raw : Bytes}

/-- The name of a node, as text, is a component that does not lead back. -/
theorem isComponent_decode (h : isFileName name = true) :
    ∃ hc : isComponent (Utf8.decode name), FilePath.isBack ⟨_, hc⟩ = false := by
  obtain ⟨hplain, hslash, -⟩ := of_isFileName h
  have hencode := Utf8.encode?_decode name
  have hne {bytes : Bytes} (hb : name ≠ bytes) {t : Text} (ht : Utf8.encode? t = some bytes) :
      Utf8.decode name ≠ t := by
    rintro rfl
    exact hb (Option.some.inj (hencode.symm.trans ht))
  have hempty : Utf8.decode name ≠ [] := hne (mt Or.inl hplain.not_idle) rfl
  have hdot : Utf8.decode name ≠ [.ofChar '.'] := hne (mt Or.inr hplain.not_idle) rfl
  have hno : CodePoint.ofChar '/' ∉ Utf8.decode name := fun hm =>
    hslash ((Utf8.mem_encode?_iff (by decide) hencode).2 hm)
  exact ⟨by simp [isComponent, hempty, hdot, hno], decide_eq_false (hne hplain.not_back rfl)⟩

/-- The path of a profile is that of the file with a name only if that is the profile's own. -/
theorem profile_eq_child_iff (h : isFileName name = true) :
    l.profile raw = l.sessions.child (Utf8.decode name) ↔
      Percent.encode raw = Utf8.decode name := by
  refine ⟨fun he => ?_, fun he => by rw [profile, he]⟩
  obtain ⟨hc, -⟩ := isComponent_decode h
  rw [FilePath.child_eq hc] at he
  by_cases hraw : isComponent (Percent.encode raw) = true
  · rw [profile, FilePath.child_eq hraw] at he
    have hcomponents := List.append_cancel_left (congrArg FilePath.components he)
    exact congrArg Component.text (List.cons.inj hcomponents).1
  · rw [profile, FilePath.child_of_not_isComponent (eq_false_of_ne_true hraw)
      (Percent.slash_not_mem_encode raw)] at he
    have hlen := congrArg (fun p => p.components.length) he
    simp at hlen

/-- **A listed file is found by the name under which it is listed exactly if its own name is
canonical**, as long as the path is not too long to be asked for. -/
theorem hasEntryAt_listed_iff (hd : w.Finds .denoted l.sessions (.directory d))
    (hn : w.tree.node? ⟨d, name⟩ = some node) (hdir : node.isDirectory = false)
    (hraw : Percent.decode? (Utf8.decode name) = some raw) :
    w.HasEntryAt (l.profile raw) ⟨d, name⟩ ↔
      (l.profile raw).IsShort ∧ Percent.IsCanonical (Utf8.decode name) := by
  obtain ⟨hname, hnameBack⟩ := isComponent_decode (w.tree.named _ _ hn)
  rw [← Percent.encode_eq_iff hraw]
  by_cases hc : isComponent (Percent.encode raw) = true
  · rw [profile, World.hasEntryAt_child_iff hc]
    constructor
    · rintro ⟨⟨hshort, -⟩, ⟨-, hencode⟩, -⟩
      obtain rfl := Option.some.inj ((ProfileName.encode?_fileName raw).symm.trans hencode)
      exact ⟨hshort, (ProfileName.decode_fileName raw).symm⟩
    · rintro ⟨hshort, he⟩
      refine ⟨⟨hshort, ?_⟩, ⟨hd, ?_⟩, node, hn, hdir⟩
      · simpa only [he] using hnameBack
      · rw [he]
        exact Utf8.encode?_decode name
  · -- the path is that of the sessions directory, whose own name is canonical
    have hpath : l.profile raw = l.sessions :=
      FilePath.child_of_not_isComponent (eq_false_of_ne_true hc)
        (Percent.slash_not_mem_encode raw) _
    refine iff_of_false (fun he => hc ?_) fun he => hc (he.2 ▸ hname)
    rw [hpath] at he
    obtain ⟨-, ⟨-, hencode⟩, -⟩ := (World.hasEntryAt_child_iff isComponent_sessions).1 he
    obtain rfl := Option.some.inj hencode
    obtain rfl := Option.some.inj hraw
    decide

end Layout

/-- **The form of the names that files are given.** A text is the name of a file of some profile
exactly if it is canonical. Any other text that has bytes is read as a profile, too, whose file has
a canonical name for the same bytes; and that is the text itself only if it is canonical. So a file
that is listed is the one that its listed name opens exactly if its own name is canonical. -/
theorem ProfileName.stored?_canonical :
    (∀ f, (∃ n : ProfileName, n.stored? = some f) ↔ Percent.IsCanonical f) ∧
    (∀ f : Text, (∀ c ∈ f, c.isSurrogate = true → c.isByteEscape = true) →
      ∃ raw t g, Percent.decode? f = some raw ∧ listed? f = some t ∧
        (text t).stored? = some g ∧ Percent.IsCanonical g ∧ Percent.decode? g = some raw ∧
        (g = f ↔ Percent.IsCanonical f)) ∧
    ∀ (l : Layout) (w : World) (d : Nat) (name : Bytes) (node : Node) (t : Text),
      w.Finds .denoted l.sessions (.directory d) → w.tree.node? ⟨d, name⟩ = some node →
      node.isDirectory = false → Cursor.nameOf (name, node) = .ok t →
        ∃ path, l.session (.text t) = .ok path ∧
          (path = l.sessions.child (Utf8.decode name) ↔ Percent.IsCanonical (Utf8.decode name)) ∧
          (w.HasEntryAt path ⟨d, name⟩ ↔
            path.IsShort ∧ Percent.IsCanonical (Utf8.decode name)) := by
  refine ⟨fun f => ?_, fun f hf => ?_, fun l w d name node t hd hn hdir ht => ?_⟩
  · rw [Percent.isCanonical_iff]
    constructor
    · rintro ⟨n, hn⟩
      obtain ⟨raw, -, rfl⟩ := stored?_eq_some_iff.1 hn
      exact ⟨raw, rfl⟩
    · rintro ⟨raw, rfl⟩
      exact ⟨.bytes raw, rfl⟩
  · obtain ⟨own, hown⟩ : ∃ own, Utf8.encode? f = some own := by
      refine Option.ne_none_iff_exists'.1 fun hnone => ?_
      obtain ⟨c, hc, hs, he⟩ := (Utf8.encode?_eq_none_iff f).1 hnone
      exact absurd (hf c hc hs) (by simp [he])
    obtain ⟨raw, hraw⟩ := Percent.exists_decode?_of_encode? hown
    obtain ⟨hlisted, hbytes⟩ := raw?_of_decode? hraw
    exact ⟨raw, _, _, hraw, hlisted, stored?_eq_some_iff.2 ⟨raw, hbytes, rfl⟩,
      Percent.isCanonical_iff.2 ⟨raw, rfl⟩, Percent.decode?_encode raw, Percent.encode_eq_iff hraw⟩
  · obtain ⟨raw, hraw⟩ := Percent.exists_decode?_of_encode? (Utf8.encode?_decode name)
    obtain ⟨hlisted, hbytes⟩ := raw?_of_decode? hraw
    rw [Cursor.nameOf, hlisted] at ht
    obtain rfl := Except.ok.inj ht
    refine ⟨_, Layout.session_of_raw? hbytes, ?_, Layout.hasEntryAt_listed_iff hd hn hdir hraw⟩
    rw [Layout.profile_eq_child_iff (w.tree.named _ _ hn), Percent.encode_eq_iff hraw]

/-- An escape with a small letter is read, and it is written with a capital one. -/
theorem ProfileName.stored?_canonical_smallLetter :
    ¬ Percent.IsCanonical "%2f" ∧ Percent.IsCanonical "%2F" := by
  have hplain : Text.hasSurrogate "%2f" = false := by decide
  have hlisted : listed? "%2f" = some "/" := by decide
  have hstored : (text "/").stored? = some "%2F" := by decide
  obtain ⟨himage, hread, -⟩ := stored?_canonical
  obtain ⟨raw, t, g, -, ht, hg, -, -, hiff⟩ :=
    hread "%2f" fun c hc hs => absurd hs (List.any_eq_false.1 hplain c hc)
  obtain rfl := Option.some.inj (hlisted.symm.trans ht)
  obtain rfl := Option.some.inj (hstored.symm.trans hg)
  exact ⟨fun h => absurd (hiff.2 h) (by decide), (himage _).1 ⟨_, hg⟩⟩

end ClientStore
