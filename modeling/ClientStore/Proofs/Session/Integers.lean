import ClientStore.Proofs.Session.Records

/-!
# Integers that are saved and read

An integer is saved as its numeral, and it is read as whatever integer the value of its key begins
with. The two agree because a numeral begins with its integer and with no other. On the way the
numeral becomes a line of a file with other lines around it: those before it end in a line feed, so
that it stands on a line of its own, and those behind it do not matter unless they give its key
another value.

Every value stands for exactly one integer, but one of too many digits is not read. Zeros in front
count as digits, so that even a small integer can be out of reach.

## Main results

* `Settings.valueIn_append` — the value of a key in a file that has grown at a line boundary.
* `SessionStore.exists_save_holds` — what is saved is in the file.
* `SessionStore.readInteger_after_save` — which integer a text gives, and that an integer that was
  saved is read.
* `SessionStore.exists_readInteger_ok`, `SessionStore.exists_readInteger_error` — what is read from
  a record, and what is refused.
* `SessionStore.exists_readInteger_ok_iff` — when the integer that a value stands for is read.
-/

namespace ClientStore

namespace Settings

variable {u c : Bytes} {es : List (Text × Text)} {key : Text}

/-- The lines that come later have the last word. -/
theorem valueIn_append (h : IsClosedBy 0x0A u) (v : Bytes) (key : Text) :
    valueIn key (u ++ v) = (valueIn key v).or (valueIn key u) := by
  rw [valueIn, Utf8.lines_decode_append h, List.filterMap_append, OrderedMap.lastValue_append]
  rfl

/-- In settings that were written, a key has the value that it was given last. -/
theorem valueIn_formatEntries (h : ∀ e ∈ es, Endures e)
    (hc : Utf8.encode? (formatEntries es) = some c) (key : Text) :
    valueIn key c = (OrderedMap.lastValue es key).map readBack := by
  obtain ⟨c', hc', hback⟩ := exists_encode?_formatEntries h
  obtain rfl : c = c' := Option.some.inj (hc.symm.trans hc')
  rw [← get?_ofText_decode, hback, OrderedMap.get?_ofList, OrderedMap.lastValue_map]

/-- Settings with other keys give a key no value. -/
theorem valueIn_eq_none (h : ∀ e ∈ es, e.1 ≠ key ∧ Endures e)
    (hc : Utf8.encode? (formatEntries es) = some c) : valueIn key c = none := by
  rw [valueIn_formatEntries (fun e he => (h e he).2) hc, Option.map_eq_none_iff,
    Option.eq_none_iff_forall_ne_some]
  exact fun v hv => (h _ (OrderedMap.mem_of_lastValue hv)).1 rfl

end Settings

/-- A numeral is read back as it is. -/
theorem Decimal.readBack_numeral (n : Int) : Settings.readBack (numeral n) = numeral n := by
  refine Text.trimEnd_eq_self fun x hx => decide_eq_false ?_
  rintro rfl
  rcases mem_numeral hx with h | h <;> exact absurd h (by decide)

/-- A numeral can be written under any key that can. -/
theorem Decimal.isWritable_numeral {key : Text} (he : CodePoint.ofChar '=' ∉ key)
    (hl : CodePoint.ofChar '\n' ∉ key) (hs : key.hasSurrogate = false) (n : Int) :
    Settings.IsWritable (key, numeral n) where
  key_equals := he
  key_lineFeed := hl
  value_lineFeed := fun hm => by rcases mem_numeral hm with h | h <;> exact absurd h (by decide)
  key_surrogate := hs
  value_surrogate := hasSurrogate_numeral n

namespace SessionStore

open Disk SettingValue

variable {s : SessionStore} {w u : World} {name : ProfileName} {sw : SessionWriter}
  {es : List (Text × SettingValue)} {lines : List Bytes}

/-- **What is saved is in the file**, if that can be opened and all of it can be written. -/
theorem exists_save_holds (hw : w.IsSound) (ho : s.openForWrite name w = .ok sw u)
    (h : HaveLines es lines) :
    ∃ path w', s.layout.session name = .ok path ∧ s.save name es w = .ok () w' ∧
      w'.Holds path lines.flatten := by
  obtain ⟨path, handle, hpath, rfl, ⟨mode, hf⟩, hu, -⟩ := of_openForWrite_ok hw ho
  have hnew := SessionWriter.hasWritten_new path (rewritten_self (hf.isIn hu))
  obtain ⟨w', hw', hr⟩ := hnew.writeAll (HaveLines.exists_render h)
    (HaveLines.encode?_formatEntries h)
  exact ⟨path, w', hpath, (StoreM.bind_of_ok ho _).trans hw', holds_iff.2 ⟨_, hr.opens hu hf⟩⟩

/-- The line of a setting that can be written has its text, as that is read back, as the value of
its key. -/
theorem exists_hasLine {key t : Text} {value : SettingValue} (ht : value.render = .ok t)
    (hw : Settings.IsWritable (key, t)) :
    ∃ line, HasLine key value line ∧
      Settings.valueIn key line = some (Settings.readBack t) := by
  have hendures : ∀ e ∈ [(key, t)], Settings.Endures e := List.forall_mem_singleton.2 hw.endures
  obtain ⟨line, hencode, -⟩ := Settings.exists_encode?_formatEntries hendures
  have hlast : OrderedMap.lastValue [(key, t)] key = some t := by simp [OrderedMap.lastValue]
  refine ⟨line, ⟨t, ht, ?_⟩, ?_⟩
  · simpa [Settings.formatEntries] using hencode
  · rw [Settings.valueIn_formatEntries hendures hencode, hlast, Option.map_some]

/-- An integer that has not too many digits is the one that is read where its numeral is the value
of the key. -/
theorem readInteger_of_valueIn {key : Text} {n : Int} {c : Bytes}
    (hn : n.natAbs < 10 ^ Decimal.maxDigits)
    (hv : Settings.valueIn key c = some (Decimal.numeral n)) (default : Int) :
    s.readInteger (some (Settings.ofText (Utf8.decode c))) key default w = .ok n w := by
  have hread : s.readText (some (Settings.ofText (Utf8.decode c))) key w =
      .ok (some (Decimal.numeral n)) w := by
    rw [readText, Option.bind_some, Settings.get?_ofText_decode, hv]
    rfl
  exact (StoreM.bind_of_ok hread _).trans (StoreM.lift_of_ok (Decimal.leading_numeral hn) w)

section

variable {key t : Text} {n : Int} {before after : List (Text × SettingValue)}
  {early late : List Bytes}

/-- **An integer that was saved is read**, whatever was saved before it, and whatever was saved
behind it that gives its key no other value. -/
theorem exists_save_readInteger (hw : w.IsSound) (ho : s.openForWrite name w = .ok sw u)
    (he : CodePoint.ofChar '=' ∉ key) (hl : CodePoint.ofChar '\n' ∉ key)
    (hs : key.hasSurrogate = false) (hr : Decimal.render n = .ok t)
    (hbefore : HaveLines before early) (hafter : HaveLines after late)
    (hlater : Settings.valueIn key late.flatten = none) (default : Int) :
    ∃ record w', s.save name (before ++ (key, .integer n) :: after) w = .ok () w' ∧
      s.openForRead name w' = .ok (some record) w' ∧
      s.readInteger (some record) key default w' = .ok n w' := by
  have hn : n.natAbs < 10 ^ Decimal.maxDigits := by
    refine Nat.lt_of_not_le fun hle => ?_
    rw [Decimal.render_of_le hle] at hr
    contradiction
  have hrender : SettingValue.render (.integer n) = .ok (Decimal.numeral n) :=
    Decimal.render_of_lt hn
  obtain ⟨line, hline, hvalue⟩ :=
    exists_hasLine hrender (Decimal.isWritable_numeral he hl hs n)
  rw [Decimal.readBack_numeral] at hvalue
  have hlines : HaveLines (before ++ (key, .integer n) :: after) (early ++ line :: late) :=
    List.rel_append hbefore (.cons hline hafter)
  obtain ⟨path, w', hpath, hsave, hholds⟩ := exists_save_holds hw ho hlines
  refine ⟨_, w', hsave, openForRead_of_holds hpath hholds, readInteger_of_valueIn hn ?_ default⟩
  rw [List.flatten_append, List.flatten_cons,
    Settings.valueIn_append (HaveLines.isClosedBy hbefore),
    Settings.valueIn_append hline.isClosedBy, hlater, hvalue]
  rfl

end

/-- **Which integer a text gives, and that an integer that was saved is read.** A text gives the
integer that it begins with, however it is written, and zero if it begins with none. An integer that
was saved is read, whatever was saved before it, and whatever was saved behind it that gives its key
no other value, as settings with other keys do not. -/
theorem readInteger_after_save :
    (∀ {t ds : Text} {negative : Bool}, Decimal.Begins t negative ds →
      ds.length ≤ Decimal.maxDigits →
        Decimal.leading t = .ok (Decimal.signed negative (Decimal.value ds))) ∧
    (∀ {t : Text}, (∀ negative ds, ¬ Decimal.Begins t negative ds) → Decimal.leading t = .ok 0) ∧
    (∀ {s : SessionStore} {w u : World} {name : ProfileName} {sw : SessionWriter} {key t : Text}
      {n : Int} {before after : List (Text × SettingValue)} {early late : List Bytes},
      w.IsSound → s.openForWrite name w = .ok sw u →
      CodePoint.ofChar '=' ∉ key → CodePoint.ofChar '\n' ∉ key → key.hasSurrogate = false →
      Decimal.render n = .ok t → HaveLines before early → HaveLines after late →
      Settings.valueIn key late.flatten = none → ∀ default,
        ∃ record w', s.save name (before ++ (key, .integer n) :: after) w = .ok () w' ∧
          s.openForRead name w' = .ok (some record) w' ∧
          s.readInteger (some record) key default w' = .ok n w') ∧
    ∀ {key : Text} {after : List (Text × SettingValue)} {late : List Bytes},
      HaveLines after late → (∀ e ∈ texts after, e.1 ≠ key ∧ Settings.Endures e) →
        Settings.valueIn key late.flatten = none := by
  refine ⟨fun hb hlen => ?_, Decimal.leading_of_not_begins, exists_save_readInteger,
    fun hl hne => Settings.valueIn_eq_none hne (HaveLines.encode?_formatEntries hl)⟩
  have hn : Decimal.natural _ = .ok (Decimal.value _) := if_pos hlen
  rw [Decimal.leading_of_begins hb, hn]
  rfl

/-- Zeros in front of a number count for nothing, two signs are no number, and a negative integer is
read that was saved behind another one and before another key. -/
theorem readInteger_after_save_sample :
    Decimal.leading "\t+0042a" = .ok 42 ∧ Decimal.leading "--" = .ok 0 ∧
      ∃ record w', sample.save (.text "a")
          [("k", .integer 1), ("k", .integer (-20)), ("l", .text "3")] .bare = .ok () w' ∧
        sample.openForRead (.text "a") w' = .ok (some record) w' ∧
        sample.readInteger (some record) "k" 5 w' = .ok (-20) w' := by
  obtain ⟨hnumber, hzero, hround, hother⟩ := readInteger_after_save
  have hbegins : Decimal.Begins "\t+0042a" false "0042" :=
    ⟨"\t", "+", "a", rfl, List.all_eq_true.1 (by decide), .plus, by decide,
      List.all_eq_true.1 (by decide), fun c hc => by cases hc; decide⟩
  have hnone (negative : Bool) (ds : Text) : ¬ Decimal.Begins "--" negative ds := by
    rintro ⟨blanks, sgn, rest, h, -, -, hne, hds, -⟩
    obtain ⟨d, hd⟩ := List.exists_mem_of_ne_nil ds hne
    have hmem : d ∈ Text.ofString "--" := by
      rw [h]
      simp [hd]
    have hall : Text.ofString "--" = [.ofChar '-', .ofChar '-'] := rfl
    obtain rfl : d = .ofChar '-' := by simpa [hall] using hmem
    exact absurd (hds _ hd) (by decide)
  have hopen : sample.openForWrite (.text "a") .bare = .ok _ _ := rfl
  have hlimit {n : Int} (h : n.natAbs < 10 ^ 2) : n.natAbs < 10 ^ Decimal.maxDigits :=
    Nat.lt_of_lt_of_le h (Nat.pow_le_pow_right (by decide) (by decide))
  have hrender : Decimal.render (-20) = .ok (Decimal.numeral (-20)) :=
    Decimal.render_of_lt (hlimit (by decide))
  have hbefore : HasLine "k" (.integer 1) [0x6B, 0x3D, 0x31, 0x0A] :=
    ⟨_, Decimal.render_of_lt (hlimit (by decide)), by decide⟩
  have hbefores : HaveLines [("k", .integer 1)] [[0x6B, 0x3D, 0x31, 0x0A]] :=
    List.Forall₂.cons (a := (Text.ofString "k", SettingValue.integer 1)) hbefore .nil
  have hafter : HasLine "l" (.text "3") [0x6C, 0x3D, 0x33, 0x0A] := ⟨_, rfl, by decide⟩
  have hafters : HaveLines [("l", .text "3")] [[0x6C, 0x3D, 0x33, 0x0A]] := .cons hafter .nil
  have hwritable : Settings.IsWritable ("l", "3") :=
    ⟨by decide, by decide, by decide, by decide, by decide⟩
  have hlater : Settings.valueIn "k" [[0x6C, 0x3D, 0x33, 0x0A]].flatten = none :=
    hother hafters (List.forall_mem_singleton.2 ⟨by decide, hwritable.endures⟩)
  refine ⟨(hnumber hbegins (by decide)).trans (by decide), hzero hnone, ?_⟩
  exact hround World.isSound_bare hopen (by decide) (by decide) (by decide) hrender
    hbefores hafters hlater 5

/-! ### Integers of any length -/

section

variable {record : SessionRecord} {content : Option Bytes} {key : Text} {default n : Int}

/-- **The integer that a value stands for is read**, if it has not too many digits. -/
theorem exists_readInteger_ok (h : IsCopyOf content record)
    (hl : ∀ t, s.layered content key = some t → ¬ Decimal.IsOverlong t)
    (hg : Decimal.Gives default (s.layered content key) n) (w : World) :
    ∃ w', s.readInteger record key default w = .ok n w' := by
  obtain rfl := Decimal.gives_iff.1 hg
  have hread := readText_eq h s key w
  revert hl hread
  cases s.layered content key with
  | none => exact fun _ hread => ⟨_, StoreM.bind_of_ok hread _⟩
  | some t =>
    exact fun hl hread => ⟨_, (StoreM.bind_of_ok hread _).trans
      (StoreM.lift_of_ok (Decimal.leading_of_not_isOverlong (hl t rfl)) _)⟩

/-- **An integer of too many digits is refused**, wherever it comes from. -/
theorem exists_readInteger_error {t : Text} (h : IsCopyOf content record)
    (ht : s.layered content key = some t) (hl : Decimal.IsOverlong t) (default : Int)
    (w : World) : ∃ w', s.readInteger record key default w = .error .tooManyDigits w' := by
  have hread := readText_eq h s key w
  rw [ht] at hread
  exact ⟨_, (StoreM.bind_of_ok hread _).trans
    (StoreM.lift_of_error (Decimal.leading_of_isOverlong hl) _)⟩

end

/-- A value in the content is the one that is read. -/
theorem layered_of_valueIn {key t : Text} {c : Bytes} (h : Settings.valueIn key c = some t) :
    s.layered (some c) key = some t := by
  rw [layered, Option.bind_some, h]
  rfl

/-- **When an integer is read.** Whatever the file of a profile holds, opening it gives a record
with the values in it, and without a profile there is a record without values. Whatever table and
source of defaults there are besides, the value of a key stands for exactly one integer: the one
that the value begins with, zero if it begins with none, and the default if there is no value. This
integer is read exactly if the value does not begin with more digits than are converted, and
otherwise nothing is read. -/
theorem exists_readInteger_ok_iff (s : SessionStore) (key : Text) (default : Int) :
    (∀ {w : World} {name : ProfileName} {path : FilePath} {c : Bytes},
      s.layout.session name = .ok path → w.Holds path c →
        ∃ record, s.openForRead name w = .ok (some record) w ∧ IsCopyOf (some c) (some record)) ∧
    IsCopyOf none none ∧
    ∀ {content : Option Bytes} {record : SessionRecord}, IsCopyOf content record →
      ∀ w : World, ∃ n, Decimal.Gives default (s.layered content key) n ∧
        (∀ m, Decimal.Gives default (s.layered content key) m → m = n) ∧
        ((∃ w', s.readInteger record key default w = .ok n w') ↔
          ∀ t, s.layered content key = some t → ¬ Decimal.IsOverlong t) ∧
        ∀ t, s.layered content key = some t → Decimal.IsOverlong t →
          ∃ w', s.readInteger record key default w = .error .tooManyDigits w' := by
  refine ⟨fun hpath hc => ⟨_, openForRead_of_holds hpath hc, isCopyOf_ofText_decode _⟩,
    isCopyOf_none, fun {content record} hcopy w => ?_⟩
  obtain ⟨n, hgives⟩ := Decimal.exists_gives default (s.layered content key)
  refine ⟨n, hgives, fun m => hgives.unique, ⟨?_, fun hl => ?_⟩, fun t ht hl => ?_⟩
  · rintro ⟨w', hok⟩ t ht hl
    obtain ⟨w'', herror⟩ := exists_readInteger_error hcopy ht hl default w
    rw [herror] at hok
    contradiction
  · exact exists_readInteger_ok hcopy hl hgives w
  · exact exists_readInteger_error hcopy ht hl default w

/-- A profile with one setting can be saved, and the setting is in the file. -/
theorem exists_save_sample {t : Text} (ht : Settings.IsWritable ("k", t)) :
    ∃ path w' c, sample.layout.session (.text "a") = .ok path ∧
      sample.save (.text "a") [("k", .text t)] .bare = .ok () w' ∧ w'.Holds path c ∧
      Settings.valueIn "k" c = some (Settings.readBack t) := by
  have hopen : sample.openForWrite (.text "a") .bare = .ok _ _ := rfl
  have hrender : (SettingValue.text t).render = .ok t := rfl
  obtain ⟨line, hline, hvalue⟩ := exists_hasLine hrender ht
  have hlines : HaveLines [("k", .text t)] [line] :=
    List.Forall₂.cons (a := (Text.ofString "k", SettingValue.text t)) hline .nil
  obtain ⟨path, w', hpath, hsave, hholds⟩ := exists_save_holds World.isSound_bare hopen hlines
  refine ⟨path, w', _, hpath, hsave, hholds, ?_⟩
  rw [List.flatten_cons, List.flatten_nil, List.append_nil]
  exact hvalue

/-- A negative integer with blanks in front and letters behind is read, and so is the default for a
key that is nowhere. -/
theorem exists_readInteger_ok_iff_sample :
    ∃ w' record, sample.save (.text "a") [("k", .text "\t-12x")] .bare = .ok () w' ∧
      sample.openForRead (.text "a") w' = .ok (some record) w' ∧
      (∃ u, sample.readInteger (some record) "k" 7 w' = .ok (-12) u) ∧
      ∃ u, sample.readInteger none "k" 7 w' = .ok 7 u := by
  have hwritable : Settings.IsWritable ("k", "\t-12x") :=
    ⟨by decide, by decide, by decide, by decide, by decide⟩
  obtain ⟨path, w', c, hpath, hsave, hholds, hvalue⟩ := exists_save_sample hwritable
  have hlayered : sample.layered (some c) "k" = some "\t-12x" := layered_of_valueIn hvalue
  obtain ⟨hopens, hnone, hreads⟩ := exists_readInteger_ok_iff sample "k" 7
  obtain ⟨record, hrecord, hcopy⟩ := hopens hpath hholds
  refine ⟨w', record, hsave, hrecord, ?_, ?_⟩
  · obtain ⟨n, -, hunique, hiff, -⟩ := hreads hcopy w'
    have hgives : Decimal.Gives 7 (some "\t-12x") (-12) := Decimal.gives_iff.2 (by decide)
    obtain rfl := hunique (-12) (by rw [hlayered]; exact hgives)
    refine hiff.2 fun t ht => ?_
    obtain rfl := Option.some.inj (hlayered.symm.trans ht)
    decide
  · obtain ⟨n, -, hunique, hiff, -⟩ := hreads hnone w'
    obtain rfl := hunique 7 .absent
    exact hiff.2 nofun

/-- A five with more zeros in front of it than may be converted. -/
def zerosFive : Text := List.replicate Decimal.maxDigits (.ofChar '0') ++ [.ofChar '5']

theorem mem_zerosFive {c : CodePoint} (h : c ∈ zerosFive) :
    c = .ofChar '0' ∨ c = .ofChar '5' := by
  rw [zerosFive, List.mem_append, List.mem_replicate, List.mem_singleton] at h
  exact h.imp_left And.right

theorem isWritable_zerosFive : Settings.IsWritable ("k", zerosFive) where
  key_equals := by decide
  key_lineFeed := by decide
  value_lineFeed := fun hm => by rcases mem_zerosFive hm with h | h <;> exact absurd h (by decide)
  key_surrogate := by decide
  value_surrogate := List.any_eq_false.2 fun c hc => by
    rcases mem_zerosFive hc with rfl | rfl <;> decide

theorem readBack_zerosFive : Settings.readBack zerosFive = zerosFive := by
  refine Text.trimEnd_eq_self fun c hc => ?_
  rcases mem_zerosFive hc with rfl | rfl <;> decide

theorem begins_zerosFive : Decimal.Begins zerosFive false zerosFive := by
  refine ⟨[], [], [], by simp, by simp, .none, by simp [zerosFive], fun c hc => ?_, by simp⟩
  rcases mem_zerosFive hc with rfl | rfl <;> decide

/-- **An integer that is not read**, although the value stands for five. -/
theorem exists_readInteger_error_zerosFive :
    Decimal.Gives 7 (some zerosFive) 5 ∧
    ∃ w' record, sample.save (.text "a") [("k", .text zerosFive)] .bare = .ok () w' ∧
      sample.openForRead (.text "a") w' = .ok (some record) w' ∧
      record.get? "k" = some zerosFive ∧
      ∃ u, sample.readInteger (some record) "k" 7 w' = .error .tooManyDigits u := by
  have hfive : Decimal.signed false (Decimal.value zerosFive) = 5 := by
    rw [zerosFive, Decimal.value_zeros_append]
    rfl
  have hlong : Decimal.IsOverlong zerosFive := ⟨_, _, begins_zerosFive, by simp [zerosFive]⟩
  obtain ⟨path, w', c, hpath, hsave, hholds, hvalue⟩ := exists_save_sample isWritable_zerosFive
  rw [readBack_zerosFive] at hvalue
  have hcopy := isCopyOf_ofText_decode c
  exact ⟨hfive ▸ .number begins_zerosFive, w', _, hsave, openForRead_of_holds hpath hholds,
    (hcopy "k").trans hvalue,
    exists_readInteger_error hcopy (layered_of_valueIn hvalue) hlong 7 w'⟩

end SessionStore

end ClientStore
