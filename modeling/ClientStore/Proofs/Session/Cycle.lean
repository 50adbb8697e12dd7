import ClientStore.Proofs.Session.Store

/-!
# A session that is read and saved again

Whatever the bytes in the file of a profile are, they give a record, and saving the record puts a
file there that gives the same record. So a file that was damaged, or that somebody else wrote, is
brought into order once and then stays as it is. A file that is in order already is written as it
was.

## Main results

* `SessionStore.exists_cycle` — what was read can be saved, and it is read again.
-/

namespace ClientStore

namespace SessionStore

open Disk

variable {s : SessionStore} {w : World} {name : ProfileName} {path : FilePath} {bytes : Bytes}

/-- Texts that are saved where a file can be read are in that file. -/
theorem exists_save_of_holds {es : List (Text × Text)} {c : Bytes} (hw : w.IsSound)
    (hpath : s.layout.session name = .ok path) (hown : path ≠ s.layout.sessions)
    (hold : w.Holds path bytes) (hc : Utf8.encode? (Settings.formatEntries es) = some c) :
    ∃ w', s.save name (es.map fun e => (e.1, .text e.2)) w = .ok () w' ∧ w'.Holds path c := by
  obtain ⟨h, old, hf⟩ := holds_iff.1 hold
  -- the file lies in the sessions directory, so there is nothing to make
  have hd : w.HasDirectoryAt s.layout.sessions := by
    obtain ⟨t, ht, rfl⟩ := Layout.exists_child_of_session hpath hown
    exact hf.parent ht
  have hv : ∀ e ∈ es.map fun e => (e.1, SettingValue.text e.2), ∃ t, e.2.render = .ok t := by
    intro e he
    obtain ⟨f, -, rfl⟩ := List.mem_map.1 he
    exact ⟨f.2, rfl⟩
  rw [← texts_map_text es] at hc
  obtain ⟨handle, mode, w', hw', hplace, hr⟩ :=
    save_of_finds hpath (Layout.ensureSessions_of_hasDirectoryAt hd) hw
      (.inr ⟨h.serial, old, bytes, hf.creation rfl⟩) hv hc
  exact ⟨w', hw', holds_iff.2 ⟨handle, hr.opens hw (hplace ▸ hf)⟩⟩

/-- **Any bytes survive being read and saved.** The file of a profile gives a record, whatever is in
it. The entries of the record can be saved in their order, and the record is read again. A file in
normal form has the same bytes afterwards. -/
theorem exists_cycle (hw : w.IsSound) (hpath : s.layout.session name = .ok path)
    (hown : path ≠ s.layout.sessions) (hold : w.Holds path bytes) :
    ∃ record w', s.openForRead name w = .ok (some record) w ∧
      s.save name (record.entries.map fun e => (e.1, .text e.2)) w = .ok () w' ∧
      s.openForRead name w' = .ok (some record) w' ∧
      (Settings.IsNormal (Utf8.decode bytes) → w'.Holds path bytes) := by
  obtain ⟨c, hc, hback⟩ := Settings.exists_encode?_entries bytes
  obtain ⟨w', hsave, hnew⟩ := exists_save_of_holds hw hpath hown hold hc
  refine ⟨_, w', openForRead_of_holds hpath hold, hsave, ?_, fun hn => ?_⟩
  · rw [openForRead_of_holds hpath hnew, hback]
  · have hsame : some c = some bytes := by
      rw [← hc, Settings.formatEntries_of_isNormal hn, Utf8.encode?_decode]
    exact Option.some.inj hsame ▸ hnew

/-- A file with a byte that is no character, a line without a key, a key that comes again, and half
a character in place of the end of the last line: `a=\xff\r\nb\na=\xc3`. -/
def damaged : Bytes := [0x61, 0x3D, 0xFF, 0x0D, 0x0A, 0x62, 0x0A, 0x61, 0x3D, 0xC3]

/-- The world in which this is the file of a profile. -/
def damagedWorld : World :=
  World.bare.after do
    Layout.sample.ensureSessions
    let handle ← openEmptied (Layout.sample.profile [0x61]) sharedFileMode
    append handle damaged

/-- The key has the value that it was given last, and that value is half a character. -/
theorem exists_cycle_damaged :
    ∃ record w', sample.openForRead (.text "a") damagedWorld = .ok (some record) damagedWorld ∧
      sample.save (.text "a") (record.entries.map fun e => (e.1, .text e.2)) damagedWorld =
        .ok () w' ∧
      sample.openForRead (.text "a") w' = .ok (some record) w' ∧
      record.get? "a" = some [Utf8.escape 0xC3] := by
  have hw : damagedWorld.IsSound := FileTree.hasDirectory_root _
  have hold : damagedWorld.Holds (Layout.sample.profile [0x61]) damaged := rfl
  obtain ⟨record, w', hread, hsave, hagain, -⟩ :=
    exists_cycle (s := sample) hw isUsable_text.session_eq (by decide) hold
  refine ⟨record, w', hread, hsave, hagain, ?_⟩
  have heq : some record = some (Settings.ofText (Utf8.decode damaged)) := by
    injection hread.symm.trans (openForRead_of_holds (s := sample) isUsable_text.session_eq hold)
  rw [Option.some.inj heq]
  decide

end SessionStore

end ClientStore
