import ClientStore.Proofs.Session.Store

/-!
# A session file while it is written

Settings are written one by one, and some of them cannot be: a text may have a surrogate without
bytes, a number may have too many digits. A call that fails leaves the writer and the file as they
were. At every moment the file holds the beginning of the lines of the calls that returned, and the
writer holds the rest until it is closed.

This is an induction on what happens after the file was opened. Nobody else writes or deletes the
file, but everything else in the world may change at any time.

## Main definitions

* `SessionWriter.Writing` — what can happen to a writer.
* `SessionWriter.IsWriting` — the invariant.
* `SessionWriter.IsReliable` — what the file holds, and what the next call does.

## Main results

* `SessionWriter.Writing.isWriting` — the invariant holds at every moment.
* `SessionWriter.isReliable_of_writing` — a writer is reliable at every moment.
-/

namespace ClientStore

namespace SessionWriter

open Disk

variable {w w' : World} {sw sw' : SessionWriter} {key : Text} {value : SettingValue} {line : Bytes}
  {written : Bytes}

/-! ### The invariant -/

/-- Through the writer, `written` was written. What of it is not in the file at its path is held
back, and a closed writer holds nothing back. -/
structure IsWriting (sw : SessionWriter) (written : Bytes) (w : World) : Prop where
  sound : w.IsSound
  sent : ∃ c, sw.sent = c.length ∧ c ++ sw.buffer.held = written ∧ w.Opens sw.path sw.handle c
  held : sw.closed = true → sw.buffer.held = []

theorem isWriting_new {path : FilePath} {handle : Handle} (hw : w.IsSound)
    (ho : w.Opens path handle []) : IsWriting (.new path handle) [] w :=
  ⟨hw, ⟨[], rfl, rfl, ho⟩, fun hc => by contradiction⟩

/-- What is sent comes to stand behind what is in the file at the path. -/
theorem send_of_opens {c : Bytes} (sw : SessionWriter) (hw : w.IsSound) (hs : sw.sent = c.length)
    (ho : w.Opens sw.path sw.handle c) (bytes : Bytes) :
    ∃ w', sw.send bytes w = .ok { sw with sent := (c ++ bytes).length } w' ∧
      w'.Opens sw.path sw.handle (c ++ bytes) ∧ w'.IsSound := by
  obtain ⟨mode, hf⟩ := id ho
  obtain ⟨w', hw', hr⟩ := exists_send_eq sw rfl hs (rewritten_self (hf.isIn hw)) bytes
  exact ⟨w', hw', hr.opens hw hf, hr.keeps.isSound hw⟩

namespace IsWriting

/-- A call that returns adds its line. -/
theorem write (h : IsWriting sw written w) (ho : sw.closed = false)
    (hl : value.HasLine key line) :
    ∃ sw' w', sw.write key value w = .ok sw' w' ∧ sw'.closed = false ∧ sw'.path = sw.path ∧
      IsWriting sw' (written ++ line) w' := by
  obtain ⟨c, hs, rfl, hopens⟩ := h.sent
  let room : SessionWriter := { sw with buffer := (sw.buffer.push line).2 }
  obtain ⟨w', hw', hopens', hw⟩ :=
    send_of_opens room h.sound hs hopens (sw.buffer.push line).1
  refine ⟨_, w', (write_of_hasLine ho hl w).trans hw', ho, rfl, hw, ⟨_, rfl, ?_, hopens'⟩,
    fun hc => ?_⟩
  · rw [List.append_assoc, LineBuffer.push_append_held, List.append_assoc]
  · exact absurd (ho.symm.trans hc) (by simp)

/-- Closing returns. It sends what is held back, the first time. -/
theorem close (h : IsWriting sw written w) :
    ∃ sw' w', sw.close w = .ok sw' w' ∧ sw'.closed = true ∧ sw'.path = sw.path ∧
      IsWriting sw' written w' ∧ (sw.closed = true → sw' = sw ∧ w' = w) := by
  by_cases hc : sw.closed = true
  · refine ⟨sw, w, ?_, hc, rfl, h, fun _ => ⟨rfl, rfl⟩⟩
    rw [SessionWriter.close, if_pos hc]
    rfl
  · obtain ⟨c, hs, rfl, hopens⟩ := h.sent
    let done : SessionWriter := { sw with buffer := .empty, closed := true }
    obtain ⟨w', hw', hopens', hw⟩ := send_of_opens done h.sound hs hopens sw.buffer.held
    refine ⟨{ done with sent := (c ++ sw.buffer.held).length }, w', ?_, rfl, rfl,
      ⟨hw, ⟨_, rfl, List.append_nil _, hopens'⟩, fun _ => rfl⟩, fun hc' => absurd hc' hc⟩
    rw [SessionWriter.close, if_neg hc]
    exact hw'

/-- What happens to other files does not matter. -/
theorem elsewhere (h : IsWriting sw written w) (hw : w'.IsSound)
    (ho : ∀ c, w.Opens sw.path sw.handle c → w'.Opens sw.path sw.handle c) :
    IsWriting sw written w' := by
  obtain ⟨c, hs, he, hopens⟩ := h.sent
  exact ⟨hw, ⟨c, hs, he, ho c hopens⟩, h.held⟩

end IsWriting

/-! ### Any calls -/

/-- What can happen to the writer of a profile from the world `w` on, in which it was opened. The
calls that returned are listed in their order. Between the calls the world may change, except that
nobody writes or deletes the file. -/
inductive Writing (s : SessionStore) (name : ProfileName) (w : World) :
    SessionWriter → World → List (Text × SettingValue) → Prop
  | opened {sw : SessionWriter} {u : World} (h : s.openForWrite name w = .ok sw u) :
      Writing s name w sw u []
  | wrote {sw sw' : SessionWriter} {u v : World} {es : List (Text × SettingValue)} {key : Text}
      {value : SettingValue} (h : Writing s name w sw u es)
      (hw : sw.write key value u = .ok sw' v) : Writing s name w sw' v (es ++ [(key, value)])
  | failed {sw : SessionWriter} {u v : World} {es : List (Text × SettingValue)} {key : Text}
      {value : SettingValue} {f : Failure} (h : Writing s name w sw u es)
      (hw : sw.write key value u = .error f v) : Writing s name w sw v es
  | closed {sw sw' : SessionWriter} {u v : World} {es : List (Text × SettingValue)}
      (h : Writing s name w sw u es) (hw : sw.close u = .ok sw' v) : Writing s name w sw' v es
  | elsewhere {sw : SessionWriter} {u v : World} {es : List (Text × SettingValue)}
      (h : Writing s name w sw u es) (hv : v.IsSound)
      (ho : ∀ c, u.Opens sw.path sw.handle c → v.Opens sw.path sw.handle c) :
      Writing s name w sw v es

variable {s : SessionStore} {name : ProfileName} {u : World} {es : List (Text × SettingValue)}

/-- **The invariant holds at every moment**: the lines of the calls that returned were written. -/
theorem Writing.isWriting (hw : w.IsSound) (h : Writing s name w sw u es) :
    s.layout.session name = .ok sw.path ∧
      ∃ lines, List.Forall₂ (fun e line => e.2.HasLine e.1 line) es lines ∧
        IsWriting sw lines.flatten u := by
  induction h with
  | opened h =>
    obtain ⟨path, handle, hpath, rfl, ho, hu, -⟩ := SessionStore.of_openForWrite_ok hw h
    exact ⟨hpath, [], .nil, isWriting_new hu ho⟩
  | @wrote sw sw' u v es key value h hwrite ih =>
    obtain ⟨hpath, lines, hlines, hi⟩ := ih
    rcases sw.write_cases key value u with ⟨f, hf⟩ | ⟨ho, line, hl⟩
    · exact absurd (hf.symm.trans hwrite) (by simp)
    · obtain ⟨sw₁, v₁, hw₁, -, hsame, hi'⟩ := hi.write ho hl
      obtain ⟨rfl, rfl⟩ : sw₁ = sw' ∧ v₁ = v := by
        injection hw₁.symm.trans hwrite with hs hv
        exact ⟨hs, hv⟩
      refine ⟨hsame ▸ hpath, lines ++ [line], ?_, by simpa using hi'⟩
      exact List.rel_append hlines (.cons hl .nil)
  | @failed sw u v es key value f h hwrite ih =>
    rcases sw.write_cases key value u with ⟨g, hg⟩ | ⟨ho, line, hl⟩
    · injection hg.symm.trans hwrite with _ hv
      exact hv ▸ ih
    · obtain ⟨-, lines, -, hi⟩ := ih
      obtain ⟨_, _, hw₁, -⟩ := hi.write ho hl
      exact absurd (hw₁.symm.trans hwrite) (by simp)
  | @closed sw sw' u v es h hclose ih =>
    obtain ⟨hpath, lines, hlines, hi⟩ := ih
    obtain ⟨sw₁, v₁, hw₁, -, hsame, hi', -⟩ := hi.close
    obtain ⟨rfl, rfl⟩ : sw₁ = sw' ∧ v₁ = v := by
      injection hw₁.symm.trans hclose with hs hv
      exact ⟨hs, hv⟩
    exact ⟨hsame ▸ hpath, lines, hlines, hi'⟩
  | elsewhere h hv ho ih =>
    obtain ⟨hpath, lines, hlines, hi⟩ := ih
    exact ⟨hpath, lines, hlines, hi.elsewhere hv ho⟩

/-- What the file of a writer holds if the calls `es` have returned, and what the next call does. -/
structure IsReliable (sw : SessionWriter) (w : World) (es : List (Text × SettingValue)) : Prop where
  /-- The file holds the beginning of the lines of the calls, and all of them after closing. -/
  file : ∃ lines c, List.Forall₂ (fun e line => e.2.HasLine e.1 line) es lines ∧
    w.Holds sw.path c ∧ c <+: lines.flatten ∧ (sw.closed = true → c = lines.flatten)
  /-- A setting with a line is written. Any other fails, and nothing happens. -/
  write : sw.closed = false → ∀ key value,
    (∃ line sw' w', value.HasLine key line ∧ sw.write key value w = .ok sw' w') ∨
      ∃ f, value.LacksLine key f ∧ sw.write key value w = .error f w
  /-- After closing every call fails, and nothing happens. -/
  write_closed : sw.closed = true → ∀ key value, ∃ f, sw.write key value w = .error f w ∧
    (f = .writerClosed sw.path ∨ f = .tooManyDigits)
  /-- Closing returns, and the second time nothing happens. -/
  close : ∃ sw' w', sw.close w = .ok sw' w' ∧ sw'.closed = true ∧
    (sw.closed = true → sw' = sw ∧ w' = w)

theorem IsWriting.isReliable {lines : List Bytes} (h : IsWriting sw lines.flatten w)
    (hlines : List.Forall₂ (fun e line => e.2.HasLine e.1 line) es lines) :
    sw.IsReliable w es where
  file := by
    obtain ⟨c, -, he, ho⟩ := h.sent
    refine ⟨lines, c, hlines, holds_iff.2 ⟨_, ho⟩, ⟨_, he⟩, fun hc => ?_⟩
    rw [← he, h.held hc, List.append_nil]
  write ho key value := by
    rcases value.line_cases key with ⟨line, hl⟩ | ⟨f, hf⟩
    · obtain ⟨sw', w', hw', -⟩ := h.write ho hl
      exact .inl ⟨line, sw', w', hl, hw'⟩
    · exact .inr ⟨f, hf, write_of_lacksLine ho hf w⟩
  write_closed hc key value := write_of_closed hc key value w
  close := by
    obtain ⟨sw', w', hw', hc, -, -, hsame⟩ := h.close
    exact ⟨sw', w', hw', hc, hsame⟩

/-- **A writer is reliable at every moment** from the one on in which the file of the profile was
opened. -/
theorem isReliable_of_writing (hw : w.IsSound) (h : Writing s name w sw u es) :
    s.layout.session name = .ok sw.path ∧ sw.IsReliable u es := by
  obtain ⟨hpath, lines, hlines, hi⟩ := h.isWriting hw
  exact ⟨hpath, hi.isReliable hlines⟩

/-- One call returns, one fails because of a surrogate, and then the writer is closed. -/
theorem isReliable_of_writing_sample :
    ∃ sw u, Writing .sample (.text "a") .bare sw u [("k", .text "1")] ∧ sw.closed = true ∧
      u.Holds sw.path [0x6B, 0x3D, 0x31, 0x0A] := by
  obtain ⟨w₁, h₁, d, hd, hempty⟩ := Layout.isFresh_sample.made
  have hsound := (Layout.keeps_of_ensureSessions World.isSound_bare h₁).isSound World.isSound_bare
  have hfind := SessionStore.isUsable_text.finds_of_none hd (hempty _) .creation
  obtain ⟨handle, _, u₀, hopen, -⟩ := SessionStore.openForWrite_of_finds (s := .sample)
    SessionStore.isUsable_text.session_eq h₁ hsound (.inl hfind)
  have hline : SettingValue.HasLine "k" (.text "1") [0x6B, 0x3D, 0x31, 0x0A] := ⟨_, rfl, by decide⟩
  have hbad : SettingValue.LacksLine "k" (.text [.ofNat 0xD800]) .unencodable :=
    .surrogate (c := .ofNat 0xD800) rfl (by decide) (by decide) (by decide)
  -- one after the other
  have hrun₀ : Writing .sample (.text "a") .bare _ u₀ [] := .opened hopen
  obtain ⟨-, _, -, hi₀⟩ := hrun₀.isWriting World.isSound_bare
  obtain ⟨sw₁, u₁, hwrite, ho₁, -, hi₁⟩ := hi₀.write rfl hline
  have hrun₁ := (hrun₀.wrote hwrite).failed (write_of_lacksLine ho₁ hbad u₁)
  obtain ⟨sw₂, u₂, hclose, hc₂, -⟩ := hi₁.close
  have hrun₂ := hrun₁.closed hclose
  obtain ⟨-, hreliable⟩ := isReliable_of_writing World.isSound_bare hrun₂
  obtain ⟨_, c, hlines, hholds, -, hwhole⟩ := hreliable.file
  obtain ⟨_, _, ⟨t, ht, he⟩, hrest, rfl⟩ := List.forall₂_cons_left_iff.1 hlines
  obtain rfl := List.forall₂_nil_left_iff.1 hrest
  refine ⟨sw₂, u₂, hrun₂, hc₂, ?_⟩
  obtain ⟨t', ht', he'⟩ := hline
  obtain rfl : t' = t := Except.ok.inj (ht'.symm.trans ht)
  rw [hwhole hc₂] at hholds
  rw [Option.some.inj (he'.symm.trans he)]
  simpa using hholds

end SessionWriter

end ClientStore
