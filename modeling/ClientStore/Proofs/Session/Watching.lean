import ClientStore.Proofs.Session.Buffer
import ClientStore.Proofs.Session.Writing

/-!
# Reading a session while it is written

A reader that opens a profile in the middle of its being written does not see every call that has
returned. It sees the first calls, as many as have left the buffer of the writer: none at all until
there is enough, and all of them once the writer is closed. What it sees is the settings of these
calls and nothing else, since the buffer never cuts a line in two.

## Main results

* `SessionWriter.Writing.exists_buffer_eq` — the buffer is that of the lines that were written.
* `SessionWriter.openForRead_of_writing` — what a reader is given at any moment.
* `SessionWriter.exists_writing_openForRead_empty` — a setting that was written and is not seen.
-/

namespace ClientStore

namespace SessionWriter

open Disk SettingValue LineBuffer

variable {s : SessionStore} {name : ProfileName} {w u v : World} {sw sw' : SessionWriter}
  {es : List (Text × SettingValue)} {key : Text} {value : SettingValue} {bytes : Bytes}

/-! ### The buffer of a writer -/

/-- Sending changes only how much was sent. -/
theorem of_send_ok (h : sw.send bytes u = .ok sw' v) :
    sw' = { sw with sent := sw.sent + bytes.length } := by
  obtain ⟨_, _, -, h⟩ := StoreM.exists_of_bind_ok h
  injection h with h _
  exact h.symm

theorem closed_of_close_ok (h : sw.close u = .ok sw' v) : sw'.closed = true := by
  rw [close] at h
  split at h
  · injection h with h _
    rwa [← h]
  · rw [of_send_ok h]

/-- A call that returns pushes its line. -/
theorem of_write_ok (h : sw.write key value u = .ok sw' v) :
    ∃ line, value.HasLine key line ∧ sw.closed = false ∧
      sw'.buffer = (sw.buffer.push line).2 := by
  rcases sw.write_cases key value u with ⟨f, hf⟩ | ⟨ho, line, hl⟩
  · exact absurd (hf.symm.trans h) (by simp)
  · refine ⟨line, hl, ho, ?_⟩
    rw [write_of_hasLine ho hl] at h
    rw [of_send_ok h]

/-- **The buffer is that of the lines that were written**, as long as the writer is open. -/
theorem Writing.exists_buffer_eq (hw : w.IsSound) (h : Writing s name w sw u es)
    (ho : sw.closed = false) : ∃ lines, HaveLines es lines ∧ sw.buffer = after lines := by
  induction h with
  | opened h =>
    obtain ⟨path, handle, -, rfl, -⟩ := SessionStore.of_openForWrite_ok hw h
    exact ⟨[], .nil, rfl⟩
  | @wrote sw sw' u v es key value h hwrite ih =>
    obtain ⟨line, hl, ho', hbuffer⟩ := of_write_ok hwrite
    obtain ⟨lines, hlines, ih⟩ := ih ho'
    refine ⟨lines ++ [line], List.rel_append hlines (.cons hl .nil), ?_⟩
    rw [hbuffer, ih, after_concat]
  | failed h hwrite ih => exact ih ho
  | closed h hclose ih => exact absurd ((closed_of_close_ok hclose).symm.trans ho) (by simp)
  | elsewhere h hv hopens ih => exact ih ho

/-- What the file holds is what is not in the buffer. -/
theorem Writing.exists_holds (hw : w.IsSound) (h : Writing s name w sw u es) :
    ∃ path lines c, s.layout.session name = .ok path ∧ HaveLines es lines ∧ u.Holds path c ∧
      c ++ sw.buffer.held = lines.flatten ∧
      (sw.closed = true → sw.buffer.held = []) ∧ (sw.closed = false → sw.buffer = after lines) := by
  obtain ⟨hpath, lines, hlines, hi⟩ := h.isWriting hw
  obtain ⟨c, -, he, hopens⟩ := hi.sent
  refine ⟨sw.path, lines, c, hpath, hlines, holds_iff.2 ⟨_, hopens⟩, he, hi.held, fun ho => ?_⟩
  obtain ⟨lines', hlines', hbuffer⟩ := h.exists_buffer_eq hw ho
  rwa [HaveLines.unique hlines hlines']

/-! ### What is seen -/

/-- **What a reader is given at any moment** is the settings of the first calls that returned, each
key with the value that it was given last by one of them. While the writer is open, the other calls
are behind as far as the lines in its buffer are; when it is closed, there are none. -/
theorem openForRead_of_writing (hw : w.IsSound) (h : Writing s name w sw u es) :
    ∃ seen waiting early late record, es = seen ++ waiting ∧
      HaveLines seen early ∧ HaveLines waiting late ∧
      s.openForRead name u = .ok (some record) u ∧
      record = Settings.ofText (Utf8.decode early.flatten) ∧
      ((∀ e ∈ SessionStore.texts seen, Settings.Endures e) →
        record.keys = OrderedMap.firstKeys (SessionStore.texts seen) ∧
        ∀ key, record.get? key =
          (OrderedMap.lastValue (SessionStore.texts seen) key).map Settings.readBack) ∧
      (sw.closed = true → waiting = []) ∧ (sw.closed = false → Lags early late) := by
  obtain ⟨path, lines, c, hpath, hlines, hholds, heq, hclosed, hopen⟩ := h.exists_holds hw
  -- the buffer has whole lines, so that the file has whole lines as well
  obtain ⟨early, late, rfl, rfl, hdone, hlags⟩ : ∃ early late, early ++ late = lines ∧
      c = early.flatten ∧ (sw.closed = true → late = []) ∧
      (sw.closed = false → Lags early late) := by
    cases hc : sw.closed with
    | true =>
      refine ⟨lines, [], List.append_nil _, ?_, fun _ => rfl, fun ho => by contradiction⟩
      rw [← heq, hclosed hc, List.append_nil]
    | false =>
      obtain ⟨early, late, rfl, hheld, hlags⟩ := exists_lags_after hlines.nil_not_mem
      rw [hopen hc, hheld, List.flatten_append] at heq
      exact ⟨early, late, rfl, List.append_cancel_right heq, fun hd => by contradiction,
        fun _ => hlags⟩
  have hseen := List.forall₂_take_append es early late hlines
  have hwaiting := List.forall₂_drop_append es early late hlines
  refine ⟨es.take early.length, es.drop early.length, early, late, _,
    (List.take_append_drop _ _).symm, hseen, hwaiting,
    SessionStore.openForRead_of_holds hpath hholds, rfl, fun hendures => ?_, fun hc => ?_, hlags⟩
  · obtain ⟨c, hc, hback⟩ := Settings.exists_encode?_formatEntries hendures
    obtain rfl : early.flatten = c :=
      Option.some.inj ((HaveLines.encode?_formatEntries hseen).symm.trans hc)
    rw [hback]
    exact ⟨SessionStore.keys_recordOf _, SessionStore.get?_recordOf _⟩
  · rw [hdone hc] at hwaiting
    exact List.forall₂_nil_right_iff.1 hwaiting

/-! ### A short session -/

theorem hasLine_sample : SettingValue.HasLine "k" (.text "1") [0x6B, 0x3D, 0x31, 0x0A] :=
  ⟨_, rfl, by decide⟩

/-- A profile is opened on a fresh root and one setting is written. -/
theorem exists_writing_sample :
    ∃ sw u, Writing .sample (.text "a") .bare sw u [("k", .text "1")] ∧ sw.closed = false := by
  obtain ⟨w₁, h₁, d, hd, hempty⟩ := Layout.isFresh_sample.made
  have hsound := (Layout.keeps_of_ensureSessions World.isSound_bare h₁).isSound World.isSound_bare
  have hfind := SessionStore.isUsable_text.finds_of_none hd (hempty _) .creation
  obtain ⟨handle, _, u₀, hopen, -⟩ := SessionStore.openForWrite_of_finds (s := .sample)
    SessionStore.isUsable_text.session_eq h₁ hsound (.inl hfind)
  have hrun : Writing .sample (.text "a") .bare _ u₀ [] := .opened hopen
  obtain ⟨-, _, -, hi⟩ := hrun.isWriting World.isSound_bare
  obtain ⟨sw, u, hwrite, ho, -⟩ := hi.write rfl hasLine_sample
  exact ⟨sw, u, hrun.wrote hwrite, ho⟩

/-- When the writer is closed, a reader is given the setting. -/
theorem openForRead_of_writing_sample :
    ∃ sw u record, Writing .sample (.text "a") .bare sw u [("k", .text "1")] ∧ sw.closed = true ∧
      SessionStore.sample.openForRead (.text "a") u = .ok (some record) u ∧
      record.get? "k" = some (Text.ofString "1") := by
  obtain ⟨sw, u, hrun, -⟩ := exists_writing_sample
  obtain ⟨-, _, -, hi⟩ := hrun.isWriting World.isSound_bare
  obtain ⟨sw', u', hclose, hc, -⟩ := hi.close
  obtain ⟨seen, waiting, _, _, record, heq, -, -, hread, -, hrecord, hdone, -⟩ :=
    openForRead_of_writing World.isSound_bare (hrun.closed hclose)
  rw [hdone hc, List.append_nil] at heq
  subst heq
  refine ⟨sw', u', record, hrun.closed hclose, hc, hread, ?_⟩
  have hwritable : Settings.IsWritable ("k", "1") :=
    ⟨by decide, by decide, by decide, by decide, by decide⟩
  have hendures := List.forall_mem_singleton.2 hwritable.endures
  exact ((hrecord hendures).2 "k").trans (by decide)

/-- **A setting that was written and is not seen.** While the writer is open, a reader is given a
record without the only setting that there is. -/
theorem exists_writing_openForRead_empty :
    ∃ sw u, Writing .sample (.text "a") .bare sw u [("k", .text "1")] ∧ sw.closed = false ∧
      SessionStore.sample.openForRead (.text "a") u = .ok (some (.ofList [])) u := by
  obtain ⟨sw, u, hrun, ho⟩ := exists_writing_sample
  obtain ⟨path, lines, c, hpath, hlines, hholds, heq, -, hopen⟩ :=
    hrun.exists_holds World.isSound_bare
  obtain rfl := HaveLines.unique hlines (.cons hasLine_sample .nil)
  rw [hopen ho, after_of_lt (by decide)] at heq
  obtain rfl : c = [] := List.append_left_eq_self.1 heq
  exact ⟨sw, u, hrun, ho, SessionStore.openForRead_of_holds hpath hholds⟩

end SessionWriter

end ClientStore
