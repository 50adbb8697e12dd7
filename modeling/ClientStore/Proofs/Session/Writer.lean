import ClientStore.Proofs.Decimal
import ClientStore.Proofs.Disk
import ClientStore.Proofs.Settings
import ClientStore.Session.Writer
import Mathlib.Data.List.Forall2

/-!
# What a session writer leaves

While a session is written, a part of it is in the file and the rest is held back. The two together
are always everything that was written, in order; this is the invariant, and when the writer is
closed nothing is held back any more.

What a call does depends on whether its setting has a line. A text with a surrogate that stands for
no byte has none, nor has a number of too many digits.

## Main definitions

* `SettingValue.HasLine`, `SettingValue.LacksLine` — the line of a setting, or why there is none.
* `SettingValue.HaveLines` — the lines of some settings.
* `SessionWriter.HasWritten` — the invariant.

## Main results

* `SessionWriter.HasWritten.writeAll` — a session that is written is in the file.
* `SessionWriter.HasWritten.writeAll_of_lacksLine` — so is one that breaks off, as far as it goes.
-/

namespace ClientStore

namespace SettingValue

/-- The text of a value. A value that cannot be written has none, and none is asked for. -/
def rendered (v : SettingValue) : Text := v.render.toOption.getD []

theorem rendered_eq {v : SettingValue} {t : Text} (h : v.render = .ok t) : v.rendered = t := by
  rw [rendered, h]
  rfl

/-! ### Lines -/

/-- The setting is written as this line. -/
def HasLine (key : Text) (value : SettingValue) (line : Bytes) : Prop :=
  ∃ t, value.render = .ok t ∧ Utf8.encode? (Settings.formatLine key t) = some line

/-- The setting cannot be written, and this is why: it is a number of too many digits, or there is
a surrogate in it that stands for no byte. -/
inductive LacksLine (key : Text) : SettingValue → Failure → Prop
  | number {i : Int} (h : 10 ^ Decimal.maxDigits ≤ i.natAbs) :
      LacksLine key (.integer i) .tooManyDigits
  | surrogate {value : SettingValue} {t : Text} {c : CodePoint} (hv : value.render = .ok t)
      (hc : c ∈ Settings.formatLine key t) (hs : c.isSurrogate = true)
      (he : c.isByteEscape = false) : LacksLine key value .unencodable

variable {key : Text} {value : SettingValue}

/-- Only numbers have no text. -/
theorem render_cases (value : SettingValue) :
    (∃ t, value.render = .ok t) ∨
      ∃ i : Int, value = .integer i ∧ 10 ^ Decimal.maxDigits ≤ i.natAbs := by
  cases value with
  | integer i =>
    by_cases h : i.natAbs < 10 ^ Decimal.maxDigits
    · exact .inl ⟨_, Decimal.render_of_lt h⟩
    · exact .inr ⟨i, rfl, Nat.le_of_not_lt h⟩
  | text t => exact .inl ⟨t, rfl⟩
  | font name => exact .inl ⟨name, rfl⟩
  | file path => exact .inl ⟨path, rfl⟩

/-- Every setting has a line, or there is a reason why it has none. -/
theorem line_cases (key : Text) (value : SettingValue) :
    (∃ line, value.HasLine key line) ∨ ∃ f, value.LacksLine key f := by
  rcases value.render_cases with ⟨t, ht⟩ | ⟨i, rfl, hi⟩
  · cases he : Utf8.encode? (Settings.formatLine key t) with
    | some line => exact .inl ⟨line, t, ht, he⟩
    | none =>
      obtain ⟨c, hc, hs, hb⟩ := (Utf8.encode?_eq_none_iff _).1 he
      exact .inr ⟨_, .surrogate ht hc hs hb⟩
  · exact .inr ⟨_, .number hi⟩

theorem HasLine.unique {line line' : Bytes} (h : value.HasLine key line)
    (h' : value.HasLine key line') : line = line' := by
  obtain ⟨t, ht, he⟩ := h
  obtain ⟨t', ht', he'⟩ := h'
  obtain rfl : t = t' := Except.ok.inj (ht.symm.trans ht')
  exact Option.some.inj (he.symm.trans he')

theorem HasLine.isClosedBy {line : Bytes} (h : value.HasLine key line) : IsClosedBy 0x0A line := by
  obtain ⟨t, -, he⟩ := h
  exact Utf8.isClosedBy_encode? he

theorem HasLine.ne_nil {line : Bytes} (h : value.HasLine key line) : line ≠ [] := by
  obtain ⟨t, -, he⟩ := h
  obtain ⟨front, back, -, hback, rfl⟩ := Utf8.exists_of_encode?_append he
  have hend : Utf8.encode? [.ofChar '\n'] = some [0x0A] := by decide
  obtain rfl : [0x0A] = back := Option.some.inj (hend.symm.trans hback)
  exact List.append_ne_nil_of_right_ne_nil _ (by simp)

/-! ### Lines of several settings -/

/-- The settings are written as these lines. -/
abbrev HaveLines (es : List (Text × SettingValue)) (lines : List Bytes) : Prop :=
  List.Forall₂ (fun e line => e.2.HasLine e.1 line) es lines

namespace HaveLines

variable {es : List (Text × SettingValue)} {lines : List Bytes}

theorem unique {lines' : List Bytes} (h : HaveLines es lines) (h' : HaveLines es lines') :
    lines = lines' := by
  have hr : Relator.RightUnique fun (e : Text × SettingValue) line => e.2.HasLine e.1 line :=
    fun _ _ _ hl hl' => hl.unique hl'
  exact hr.forall₂ h h'

theorem nil_not_mem (h : HaveLines es lines) : [] ∉ lines := by
  induction h with
  | nil => exact List.not_mem_nil
  | cons hl _ ih =>
    rw [List.mem_cons, not_or]
    exact ⟨hl.ne_nil.symm, ih⟩

theorem isClosedBy (h : HaveLines es lines) : IsClosedBy 0x0A lines.flatten := by
  induction h with
  | nil => exact .nil
  | cons hl _ ih => exact hl.isClosedBy.append ih

/-- The lines together are the written form of the settings. -/
theorem encode?_formatEntries (h : HaveLines es lines) :
    Utf8.encode? (Settings.formatEntries (es.map fun e => (e.1, e.2.rendered))) =
      some lines.flatten := by
  induction h with
  | nil => rfl
  | cons hl _ ih =>
    obtain ⟨t, ht, he⟩ := hl
    rw [List.map_cons, rendered_eq ht]
    exact Utf8.encode?_append he ih

theorem exists_render (h : HaveLines es lines) : ∀ e ∈ es, ∃ t, e.2.render = .ok t := by
  induction h with
  | nil => exact List.forall_mem_nil _
  | cons hl _ ih =>
    obtain ⟨t, ht, -⟩ := hl
    exact List.forall_mem_cons.2 ⟨⟨t, ht⟩, ih⟩

end HaveLines

end SettingValue

namespace SessionWriter

open Disk

variable {w w' : World} {sw : SessionWriter} {key : Text} {value : SettingValue} {line : Bytes}
  {f : Failure} {h : Handle} {mode : Nat} {written : Bytes}

/-! ### One call -/

/-- A setting with a line goes through the buffer. -/
theorem write_of_hasLine (ho : sw.closed = false) (h : value.HasLine key line) (w : World) :
    sw.write key value w =
      ({ sw with buffer := (sw.buffer.push line).2 }).send (sw.buffer.push line).1 w := by
  obtain ⟨t, ht, he⟩ := h
  refine (StoreM.bind_lift_of_ok ht _ w).trans ?_
  rw [writeText, if_neg (by simp [ho]), he]

/-- A setting without a line fails, and nothing happens. -/
theorem write_of_lacksLine (ho : sw.closed = false) (h : value.LacksLine key f) (w : World) :
    sw.write key value w = .error f w := by
  cases h with
  | number hi => exact StoreM.bind_of_error (StoreM.lift_of_error (Decimal.render_of_le hi) w) _
  | surrogate hv hc hs hb =>
    refine (StoreM.bind_lift_of_ok hv _ w).trans ?_
    rw [writeText, if_neg (by simp [ho]), (Utf8.encode?_eq_none_iff _).2 ⟨_, hc, hs, hb⟩]
    rfl

/-- Nothing is written through a closed writer. -/
theorem write_of_closed (hc : sw.closed = true) (key : Text) (value : SettingValue) (w : World) :
    ∃ f, sw.write key value w = .error f w ∧ (f = .writerClosed sw.path ∨ f = .tooManyDigits) := by
  rcases value.render_cases with ⟨t, ht⟩ | ⟨i, rfl, hi⟩
  · refine ⟨.writerClosed sw.path, (StoreM.bind_lift_of_ok ht _ w).trans ?_, .inl rfl⟩
    rw [writeText, if_pos hc]
    rfl
  · exact ⟨_, StoreM.bind_of_error (StoreM.lift_of_error (Decimal.render_of_le hi) w) _, .inr rfl⟩

/-- What a call can do. -/
theorem write_cases (sw : SessionWriter) (key : Text) (value : SettingValue) (w : World) :
    (∃ f, sw.write key value w = .error f w) ∨
      sw.closed = false ∧ ∃ line, value.HasLine key line := by
  by_cases hc : sw.closed = true
  · obtain ⟨f, hf, -⟩ := write_of_closed hc key value w
    exact .inl ⟨f, hf⟩
  · rw [Bool.not_eq_true] at hc
    rcases value.line_cases key with hl | ⟨f, hf⟩
    · exact .inr ⟨hc, hl⟩
    · exact .inl ⟨f, write_of_lacksLine hc hf w⟩

/-! ### What has been written -/

/-- Through the writer, `written` was written into an open file that held nothing in the world `w`.
What of it is not in the file is held back. -/
structure HasWritten (w : World) (h : Handle) (mode : Nat) (written : Bytes) (sw : SessionWriter)
    (w' : World) : Prop where
  handle : sw.handle = h
  closed : sw.closed = false
  sent : ∃ c, sw.sent = c.length ∧ c ++ sw.buffer.held = written ∧ Rewritten w w' h mode c

theorem hasWritten_new (path : FilePath) (hr : Rewritten w w' h mode []) :
    HasWritten w h mode [] (new path h) w' :=
  ⟨rfl, rfl, [], rfl, rfl, hr⟩

/-- Sending puts bytes at the end of the file. -/
theorem exists_send_eq {c : Bytes} (sw : SessionWriter) (hs : sw.handle = h)
    (hc : sw.sent = c.length) (hr : Rewritten w w' h mode c) (bytes : Bytes) :
    ∃ w'', sw.send bytes w' = .ok { sw with sent := (c ++ bytes).length } w'' ∧
      Rewritten w w'' h mode (c ++ bytes) := by
  obtain ⟨w'', hw, hr'⟩ := hr.write bytes
  refine ⟨w'', ?_, hr'⟩
  rw [send, hs, hc, List.length_append]
  exact StoreM.bind_of_ok hw _

/-- Writing a line goes on with what was written. -/
theorem HasWritten.write (hs : HasWritten w h mode written sw w') (hl : value.HasLine key line) :
    ∃ sw' w'', sw.write key value w' = .ok sw' w'' ∧
      HasWritten w h mode (written ++ line) sw' w'' := by
  obtain ⟨c, hc, rfl, hr⟩ := hs.sent
  let room : SessionWriter := { sw with buffer := (sw.buffer.push line).2 }
  obtain ⟨w'', hw, hr'⟩ := exists_send_eq room hs.handle hc hr (sw.buffer.push line).1
  refine ⟨{ room with sent := (c ++ (sw.buffer.push line).1).length }, w'',
    (write_of_hasLine hs.closed hl w').trans hw, ⟨hs.handle, hs.closed, _, rfl, ?_, hr'⟩⟩
  show (c ++ (sw.buffer.push line).1) ++ (sw.buffer.push line).2.held = _
  rw [List.append_assoc, LineBuffer.push_append_held, List.append_assoc]

/-- When the writer is closed, everything is in the file. -/
theorem HasWritten.close (hs : HasWritten w h mode written sw w') :
    ∃ sw' w'', sw.close w' = .ok sw' w'' ∧ Rewritten w w'' h mode written := by
  obtain ⟨c, hc, rfl, hr⟩ := hs.sent
  let done : SessionWriter := { sw with buffer := .empty, closed := true }
  obtain ⟨w'', hw, hr'⟩ := exists_send_eq done hs.handle hc hr sw.buffer.held
  refine ⟨{ done with sent := (c ++ sw.buffer.held).length }, w'', ?_, hr'⟩
  rw [SessionWriter.close, hs.closed]
  exact hw

/-- Settings that have lines are written one after the other. -/
theorem HasWritten.exists_writeAll_append {es : List (Text × SettingValue)} {lines : Bytes}
    (hs : HasWritten w h mode written sw w') (hv : ∀ e ∈ es, ∃ t, e.2.render = .ok t)
    (hl : Utf8.encode? (Settings.formatEntries (es.map fun e => (e.1, e.2.rendered))) =
      some lines) (rest : List (Text × SettingValue)) :
    ∃ sw' w'', sw.writeAll (es ++ rest) w' = sw'.writeAll rest w'' ∧
      HasWritten w h mode (written ++ lines) sw' w'' := by
  induction es generalizing sw w' written lines with
  | nil =>
    obtain rfl : [] = lines := Option.some.inj hl
    exact ⟨sw, w', rfl, by rwa [List.append_nil]⟩
  | cons e es ih =>
    obtain ⟨key, value⟩ := e
    obtain ⟨t, ht⟩ : ∃ t, value.render = .ok t := hv _ List.mem_cons_self
    rw [List.map_cons, SettingValue.rendered_eq ht, Settings.formatEntries, List.flatMap_cons] at hl
    obtain ⟨line, later, hline, hlater, rfl⟩ := Utf8.exists_of_encode?_append hl
    obtain ⟨sw', u, hwrite, hs'⟩ := hs.write ⟨t, ht, hline⟩
    obtain ⟨sw'', w'', hw, hs''⟩ := ih hs' (fun f hf => hv f (List.mem_cons_of_mem _ hf)) hlater
    refine ⟨sw'', w'', ?_, by rwa [← List.append_assoc]⟩
    rw [List.cons_append, SessionWriter.writeAll]
    exact (StoreM.bind_of_ok (StoreM.attempt_of_ok hwrite) _).trans hw

/-- **A session that is written is in the file**, behind what was written before. -/
theorem HasWritten.writeAll {es : List (Text × SettingValue)} {lines : Bytes}
    (hs : HasWritten w h mode written sw w') (hv : ∀ e ∈ es, ∃ t, e.2.render = .ok t)
    (hl : Utf8.encode? (Settings.formatEntries (es.map fun e => (e.1, e.2.rendered))) =
      some lines) :
    ∃ w'', sw.writeAll es w' = .ok () w'' ∧ Rewritten w w'' h mode (written ++ lines) := by
  obtain ⟨sw', u, hw, hs'⟩ := hs.exists_writeAll_append hv hl []
  obtain ⟨sw'', w'', hclose, hr⟩ := hs'.close
  rw [List.append_nil] at hw
  exact ⟨w'', hw.trans (StoreM.bind_of_ok hclose _), hr⟩

/-- **A session that breaks off is in the file up to the setting that has no line**, and the rest of
it is not. -/
theorem HasWritten.writeAll_of_lacksLine {es : List (Text × SettingValue)} {lines : Bytes}
    (hs : HasWritten w h mode written sw w') (hv : ∀ e ∈ es, ∃ t, e.2.render = .ok t)
    (hl : Utf8.encode? (Settings.formatEntries (es.map fun e => (e.1, e.2.rendered))) =
      some lines) (hf : value.LacksLine key f) (rest : List (Text × SettingValue)) :
    ∃ w'', sw.writeAll (es ++ (key, value) :: rest) w' = .error f w'' ∧
      Rewritten w w'' h mode (written ++ lines) := by
  obtain ⟨sw', u, hw, hs'⟩ := hs.exists_writeAll_append hv hl ((key, value) :: rest)
  obtain ⟨sw'', w'', hclose, hr⟩ := hs'.close
  have hattempt : (sw'.write key value).attempt u = .ok (.error f) u := by
    rw [StoreM.attempt, write_of_lacksLine hs'.closed hf]
  exact ⟨w'', hw.trans ((StoreM.bind_of_ok hattempt _).trans (StoreM.bind_of_ok hclose _)), hr⟩

end SessionWriter

end ClientStore
