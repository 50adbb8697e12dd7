import ClientStore.HostKey.Store
import ClientStore.Proofs.Layout
import ClientStore.Session.Store

/-!
# What the stores tell

Apart from log messages the stores tell nothing, whatever they do to the files, and whether they
fail or not. Lines for people come from commands only, and the source of defaults is asked only
where a setting is looked up. Nor do the stores look at what was told before.

## Main definitions

* `World.news` — what was told besides log messages.
* `StoreM.OnlyLogs` — the operations that tell nothing but log messages.

## Main results

* `SessionStore.onlyLogs_save`, `TrustFile.onlyLogs_record` and others — the stores only log.
* `SessionStore.ignoresJournal_openForRead` and others — what is read depends on the files only.
-/

namespace ClientStore

variable {α β : Type}

/-- Whether an event is no log message. -/
def Event.isNews : Event → Bool
  | logged _ _ => false
  | _ => true

/-- What was told besides log messages. -/
def World.news (w : World) : List Event := w.journal.filter Event.isNews

namespace StoreM

/-- The operation tells nothing but log messages. -/
abbrev OnlyLogs (x : StoreM α) : Prop := x.Preserves World.news

theorem IsQuiet.onlyLogs {x : StoreM α} (hx : x.IsQuiet) : x.OnlyLogs :=
  hx.preserves_journal.comp fun journal => journal.filter Event.isNews

/-- Nothing that can be seen of the journal without its log messages is changed by an operation that
only logs. -/
theorem OnlyLogs.filterMap_journal {x : StoreM α} {f : Event → Option β} (hx : x.OnlyLogs)
    (hf : ∀ severity message, f (.logged severity message) = none) :
    x.Preserves fun w => w.journal.filterMap f := by
  have hnews (w : World) : w.news.filterMap f = w.journal.filterMap f := by
    rw [World.news, List.filterMap_filter]
    congr 1
    funext e
    cases e with
    | logged severity message => exact (hf severity message).symm
    | _ => rfl
  intro w
  dsimp only
  rw [← hnews, hx w, hnews]

theorem onlyLogs_log (severity : Severity) (message : Text) : (log severity message).OnlyLogs := by
  intro w
  show (w.journal ++ [_]).filter Event.isNews = _
  rw [List.filter_append, List.filter_cons_of_neg (by simp [Event.isNews]), List.filter_nil,
    List.append_nil]
  rfl

theorem onlyLogs_forPurpose {x : StoreM α} (hx : x.OnlyLogs) (purpose : Purpose)
    (path : FilePath) : (x.forPurpose purpose path).OnlyLogs :=
  .onRefusal hx fun _ => .throw _

end StoreM

open StoreM

namespace SessionWriter

theorem isQuiet_send (sw : SessionWriter) (bytes : Bytes) : (sw.send bytes).IsQuiet :=
  fun _ _ => rfl

theorem isQuiet_write (sw : SessionWriter) (key : Text) (value : SettingValue) :
    (sw.write key value).IsQuiet := by
  refine .bind (.lift _) fun t => ?_
  rw [writeText]
  split
  · exact .throw _
  · split
    · exact .throw _
    · exact isQuiet_send _ _

theorem isQuiet_close (sw : SessionWriter) : sw.close.IsQuiet := by
  rw [close]
  split
  · exact .pure _
  · exact isQuiet_send _ _

theorem isQuiet_writeAll (sw : SessionWriter) (es : List (Text × SettingValue)) :
    (sw.writeAll es).IsQuiet := by
  induction es generalizing sw with
  | nil => exact .bind (isQuiet_close sw) fun _ => .pure _
  | cons e es ih =>
    refine .bind (.attempt (isQuiet_write sw e.1 e.2)) ?_
    rintro (failure | sw')
    · exact .bind (isQuiet_close sw) fun _ => .throw _
    · exact ih sw'

end SessionWriter

namespace SessionStore

variable (s : SessionStore) (name : ProfileName)

theorem onlyLogs_save (entries : List (Text × SettingValue)) : (s.save name entries).OnlyLogs := by
  refine .bind (.bind (.lift _) fun path => .bind (onlyLogs_forPurpose ?_ _ _) fun handle => ?_)
    fun sw => (sw.isQuiet_writeAll entries).onlyLogs
  · exact .bind (Layout.isQuiet_ensureSessions _).onlyLogs fun _ =>
      (Disk.isQuiet_change _ _).onlyLogs
  · exact .bind (onlyLogs_log _ _) fun _ => .pure _

theorem onlyLogs_delete : (s.delete name).OnlyLogs := by
  refine .bind (.lift _) fun path => .onRefusal ?_ fun r => ?_
  · exact .bind (Disk.isQuiet_change _ _).onlyLogs fun _ => onlyLogs_log _ _
  · split
    · exact .pure _
    · exact .throw _

theorem onlyLogs_openForRead : (s.openForRead name).OnlyLogs := by
  refine .bind (.lift _) fun path => .onRefusal ?_ fun r => ?_
  · exact .bind (Disk.isQuiet_ask _ _).onlyLogs fun _ => .pure _
  · rw [unreadable]
    split
    · exact .bind (onlyLogs_log _ _) fun _ => .pure _
    · exact .bind (onlyLogs_log _ _) fun _ => .pure _

end SessionStore

namespace TrustFile

variable (l : Layout)

theorem onlyLogs_lines? : (lines? l).OnlyLogs := by
  refine .onRefusal (.bind (Disk.isQuiet_ask _ _).onlyLogs fun _ => .pure _) fun r => ?_
  rw [unreadable]
  split
  · exact .bind (onlyLogs_log _ _) fun _ => .pure _
  · exact .pure _

theorem onlyLogs_check (identity : Except Failure Text) (agrees : Text → Bool) :
    (check l identity agrees).OnlyLogs := by
  refine .bind (onlyLogs_lines? l) ?_
  rintro (- | lines)
  · exact .pure _
  · refine .bind (.lift _) fun identity => ?_
    dsimp only
    split
    · exact .bind (onlyLogs_log _ _) fun _ => .pure _
    · exact .bind (.pure _) fun _ => .pure _

theorem isQuiet_openAtEnd : (openAtEnd l).IsQuiet := l.isQuiet_openOrMake l.hostKeys

theorem onlyLogs_record (k : HostKey) : (record l k).OnlyLogs := by
  refine .bind (.onRefusal (isQuiet_openAtEnd l).onlyLogs fun _ => .throw _) fun handle =>
    .bind (.lift _) fun line => ?_
  split
  · exact .throw _
  · exact .bind (fun _ => rfl) fun _ => .bind (.lift _) fun _ => onlyLogs_log _ _

end TrustFile

/-! ### Reading does not depend on the journal -/

namespace Cursor

theorem isQuiet_start (directory : Text) : (start directory).IsQuiet := by
  have hget (v : World) : (get : StoreM World) v = .ok v v := rfl
  intro w j
  cases hb : directory.systemBytes with
  | error f =>
    rw [start, hb]
    rfl
  | ok path =>
    rw [start, hb, bind_of_ok (lift_of_ok rfl _), bind_of_ok (lift_of_ok rfl _),
      bind_of_ok (hget _), bind_of_ok (hget _)]
    dsimp only
    cases w.tree.openDirectory w.here path <;> rfl

theorem isQuiet_rest (c : Cursor) : c.rest.IsQuiet := by
  intro w j
  cases c with
  | finished => rfl
  | opened path number =>
    exact (IsQuiet.bind (IsQuiet.lift (namesOf w path (w.tree.names number))) fun names =>
      .pure (names, Cursor.fetched path [])) w j
  | fetched path entries =>
    exact (IsQuiet.bind (IsQuiet.lift (namesOf w path entries)) fun names =>
      .pure (names, Cursor.fetched path [])) w j

end Cursor

namespace SessionStore

variable (s : SessionStore)

theorem isQuiet_list : s.list.IsQuiet :=
  .bind (Cursor.isQuiet_start _) fun c => .bind c.isQuiet_rest fun _ => .pure _

theorem ignoresJournal_openForRead (name : ProfileName) :
    (s.openForRead name).IgnoresJournal := by
  refine .bind (.lift _) fun path => .onRefusal ?_ fun r => ?_
  · exact .bind (Disk.isQuiet_ask _ _).ignoresJournal fun _ => .pure _
  · rw [unreadable]
    split
    · exact .bind (.tell _) fun _ => .pure _
    · exact .bind (.tell _) fun _ => .pure _

theorem ignoresJournal_readText (record : SessionRecord) (key : Text) :
    (s.readText record key).IgnoresJournal := by
  rw [readText]
  split
  · exact .pure _
  · rw [fallback]
    split
    · exact .pure _
    · exact .bind (.tell _) fun _ => .pure _
    · exact .pure _

end SessionStore

namespace TrustFile

variable (l : Layout)

theorem ignoresJournal_lines? : (lines? l).IgnoresJournal := by
  refine .onRefusal (.bind (Disk.isQuiet_ask _ _).ignoresJournal fun _ => .pure _) fun r => ?_
  rw [unreadable]
  split
  · exact .bind (.tell _) fun _ => .pure _
  · exact .pure _

theorem ignoresJournal_entries : (entries l).IgnoresJournal := by
  refine .bind (ignoresJournal_lines? l) ?_
  rintro (- | lines)
  · exact .pure _
  · exact .bind (.lift _) fun _ => .pure _

end TrustFile

end ClientStore
