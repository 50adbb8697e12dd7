import ClientStore.Proofs.Command.Arguments
import ClientStore.Proofs.Command.Listing
import ClientStore.Proofs.Failures

/-!
# When a run of the program ends with an exit status

Commands that only read have an answer for a directory or a file that is not there, or that cannot
be read. What they find may still be more than they can report. Standard output takes no surrogates,
and making a text safe for a terminal leaves them in; so a name, a setting or a host key that was
read from bytes which are no UTF-8 is the end of the run. So is a port with more digits than may be
converted, in a line of the trust file.

Here it is said exactly which contents those are. Nothing else in the files keeps a reading command
from its exit status; the rest is up to the arguments, of which the root needs bytes and no place
that is looked at may have been left empty.

## Main definitions

* `Command.isReading` — the commands that only read.
* `Command.CanReport` — whatever there is for a command to report can be reported.

## Main results

* `Command.exists_run_ok_iff` — when a reading command ends well.
* `exists_ending_eq_exit_iff` — when a run with a reading command ends with an exit status.
-/

namespace ClientStore

open StoreM

/-! ### What a reading command can fail with -/

namespace StoreM

theorem refuses_print (line : Text) : (print line).Refuses := by
  rw [print]
  cases line.hasSurrogate with
  | true => exact refuses_throw_of_eq_false rfl
  | false => exact refuses_tell _

end StoreM

theorem Text.concernsFiles_of_systemBytes {t : Text} {f : Failure} (h : t.systemBytes = .error f) :
    f.concernsFiles = false := by
  rw [systemBytes] at h
  split at h
  · rw [← Except.error.inj h]
    rfl
  · split at h
    · rw [← Except.error.inj h]
      rfl
    · contradiction

theorem HostKey.eq_of_identity_eq_error {k : HostKey} {f : Failure} (h : k.identity = .error f) :
    f = .tooManyDigits := by
  refine eq_of_line_eq_error (k := k) ?_
  rw [line, h]
  rfl

theorem HostKey.eq_of_ofLine_eq_error {t : Text} {f : Failure} (h : ofLine t = .error f) :
    f = .tooManyDigits := by
  rw [ofLine] at h
  split at h
  · contradiction
  split at h
  · contradiction
  rename_i port _ _ _ _
  rw [Decimal.natural] at h
  split at h
  · contradiction
  · exact (Except.error.inj h).symm

namespace SessionStore

variable (s : SessionStore)

theorem refuses_list : s.list.Refuses := by
  have hget : (get : StoreM World).Refuses := fun _ _ _ h => nomatch h
  refine .bind (.bind (refuses_lift fun _ => Text.concernsFiles_of_systemBytes) fun path =>
    .bind hget fun w => ?_) fun c => .bind (fun w f w' h => ?_) fun _ => .pure _
  · split <;> exact .pure _
  · obtain ⟨names, c', hr, -⟩ := c.exists_rest_eq w
    rw [hr] at h
    contradiction

theorem refuses_openForRead (name : ProfileName) : (s.openForRead name).Refuses := by
  refine .bind (refuses_lift fun f hf => ?_) fun path => Refuses.onRefusal ?_ fun r => ?_
  · rw [Layout.eq_of_session_eq_error hf]
    rfl
  · exact .bind (Disk.refuses_ask _ _) fun _ => .pure _
  · rw [unreadable]
    split
    · exact .bind (refuses_tell _) fun _ => .pure _
    · exact .bind (refuses_tell _) fun _ => .pure _

end SessionStore

namespace TrustFile

variable (l : Layout)

theorem refuses_lines? : (lines? l).Refuses := by
  refine Refuses.onRefusal (.bind (Disk.refuses_ask _ _) fun _ => .pure _) fun r => ?_
  rw [unreadable]
  split
  · exact .bind (refuses_tell _) fun _ => .pure _
  · exact .pure _

theorem refuses_check {identity : Except Failure Text}
    (hi : ∀ f, identity = .error f → f.concernsFiles = false) (agrees : Text → Bool) :
    (check l identity agrees).Refuses := by
  refine .bind (refuses_lines? l) ?_
  rintro (- | lines)
  · exact .pure _
  · refine .bind (refuses_lift hi) fun identity => ?_
    dsimp only
    split
    · exact .bind (refuses_tell _) fun _ => .pure _
    · exact .pure _

end TrustFile

namespace HostKeyArguments

variable {a : HostKeyArguments} {port : Int}

/-- Arguments with a port name a key. -/
theorem exists_hostKey (a : HostKeyArguments) (h : a.port = some port) :
    ∃ k, a.hostKey = .ok k ∧ k.port = port := by
  rw [hostKey, h]
  exact ⟨_, rfl, rfl⟩

theorem identity_of_hostKey {k : HostKey} (h : a.hostKey = .ok k) : a.identity = k.identity := by
  rw [identity, h, Except.bind]

theorem exists_identity (a : HostKeyArguments) (h : a.port = some port)
    (hp : port.natAbs < 10 ^ Decimal.maxDigits) : ∃ identity, a.identity = .ok identity := by
  obtain ⟨k, hk, rfl⟩ := a.exists_hostKey h
  rw [identity_of_hostKey hk, HostKey.identity_of_lt hp]
  exact ⟨_, rfl⟩

theorem identity_of_port_eq_none (h : a.port = none) :
    a.identity = .error (.emptyArgument .port) := by
  rw [identity, hostKey, h]
  rfl

/-- Only the port is needed. -/
theorem eq_of_hostKey_eq_error {f : Failure} (h : a.hostKey = .error f) :
    f = .emptyArgument .port := by
  rw [hostKey] at h
  cases hp : a.port with
  | none =>
    rw [hp] at h
    exact (Except.error.inj h).symm
  | some port =>
    rw [hp] at h
    contradiction

/-- A key that is not named, or not written, is no matter of files. -/
theorem concernsFiles_of_identity {f : Failure} (h : a.identity = .error f) :
    f.concernsFiles = false := by
  cases hk : a.hostKey with
  | error e =>
    rw [identity, hk] at h
    rw [← Except.error.inj h, eq_of_hostKey_eq_error hk]
    rfl
  | ok k =>
    rw [identity_of_hostKey hk] at h
    rw [HostKey.eq_of_identity_eq_error h]
    rfl

end HostKeyArguments

namespace Command

/-- The commands that only read, apart from the one about the random seed. -/
def isReading : Command → Bool
  | checkHostKey _ => true
  | c => c.isListing

/-- **A reading command does not complain about a file that was needed.** -/
theorem refuses_run {s : SessionStore} {c : Command} (hs : s.resources.default? = none)
    (hc : c.isReading = true) : (c.run s).Refuses := by
  cases c with
  | list =>
    exact .bind (SessionStore.refuses_list s) fun _ =>
      .bind (.forM fun _ _ => refuses_print _) fun _ => .pure _
  | «show» name keys =>
    refine .bind (SessionStore.refuses_openForRead s _) fun record => ?_
    split
    · exact .bind (refuses_tell _) fun _ => .pure _
    · refine .bind ?_ fun _ => .pure _
      rw [printSettings_eq hs]
      refine .forM fun place _ => .bind (refuses_lift fun f hf => ?_) fun line? => ?_
      · cases place with
        | none =>
          rw [← Except.error.inj hf]
          rfl
        | some key => contradiction
      · cases line? with
        | none => exact .pure _
        | some line => exact refuses_print _
  | listHostKeys =>
    refine .bind (TrustFile.refuses_lines? _) fun lines? => .bind ?_ fun _ => .pure _
    rw [printHostKeys_eq]
    refine .forM fun line _ => .bind (refuses_lift fun f hf => ?_) fun line? => ?_
    · rw [hostKeyFound] at hf
      cases hk : HostKey.ofLine line with
      | error e =>
        rw [hk] at hf
        rw [← Except.error.inj hf, HostKey.eq_of_ofLine_eq_error hk]
        rfl
      | ok k? =>
        rw [hk] at hf
        contradiction
    · cases line? with
      | none => exact .pure _
      | some line => exact refuses_print _
  | checkHostKey a =>
    have hcheck : (TrustFile.check s.layout a.identity fun k => some k = a.keydata).Refuses :=
      TrustFile.refuses_check _ (fun _ => HostKeyArguments.concernsFiles_of_identity) _
    exact .bind hcheck fun _ => .bind (refuses_print _) fun _ => .pure _
  | _ => contradiction

end Command

/-- What is made of a value is as wanted exactly if there is a value, and what is made of it is. -/
theorem StoreM.exists_bind_pure_ok_iff {α β : Type} {x : StoreM α} {g : α → β} {P : β → Prop}
    {w : World} :
    (∃ b u, (x >>= fun a => pure (g a)) w = .ok b u ∧ P b) ↔
      (∃ a u, x w = .ok a u) ∧ ∀ a, w.outcome x = .ok a → P (g a) := by
  constructor
  · rintro ⟨b, u, h, hb⟩
    obtain ⟨a, v, ha, h⟩ := exists_of_bind_ok h
    injection h with hg
    subst hg
    refine ⟨⟨a, v, ha⟩, fun a' ha' => ?_⟩
    obtain rfl := Except.ok.inj ((World.outcome_of_ok ha).symm.trans ha')
    exact hb
  · rintro ⟨⟨a, v, ha⟩, h⟩
    exact ⟨g a, v, bind_of_ok ha _, h a (World.outcome_of_ok ha)⟩

/-! ### Items that can be printed -/

/-- Whether there is a surrogate in some part of an item. -/
def Item.hasSurrogate : Item → Bool
  | profile name => name.hasSurrogate
  | setting key value => key.hasSurrogate || value.hasSurrogate
  | hostKey k => k.keytype.hasSurrogate || k.hostname.hasSurrogate || k.keydata.hasSurrogate

/-- **The line for an item has a surrogate exactly if a part of the item has one.** -/
theorem Item.hasSurrogate_line (item : Item) : item.line.hasSurrogate = item.hasSurrogate := by
  have hat : (CodePoint.ofChar '@').isSurrogate = false := by decide
  have hcolon : (CodePoint.ofChar ':').isSurrogate = false := by decide
  have hspace : (CodePoint.ofChar ' ').isSurrogate = false := by decide
  have hequals : (CodePoint.ofChar '=').isSurrogate = false := by decide
  cases item with
  | profile name => exact Text.hasSurrogate_sanitized_eq name
  | setting key value =>
    simp [line, Command.settingLine, hasSurrogate, Text.hasSurrogate_sanitized_eq, hequals]
  | hostKey k =>
    simp [line, HostKey.identityText, hasSurrogate, Text.hasSurrogate_sanitized_eq, hat, hcolon,
      hspace, Decimal.hasSurrogate_numeral, Bool.or_assoc]

namespace Command

/-! ### What can be reported -/

/-- Whatever there is for a reading command to report can be reported: no profile that is listed, no
setting that is shown and no host key has a surrogate; and a name has bytes, a port on a line of the
trust file is not too long, and no place that is looked at is empty. -/
def CanReport (s : SessionStore) (w : World) : Command → Prop
  | list =>
    ∀ names, w.outcome s.list = .ok names → ∀ name ∈ names, (Item.profile name).hasSurrogate = false
  | «show» name keys =>
    (∃ raw, Utf8.encode? name = some raw) ∧
      ∀ record, w.outcome (s.openForRead (.text name)) = .ok record →
        ∀ place ∈ places record keys, ∃ key, place = some key ∧
          ∀ item ∈ s.setting? record w key, item.hasSurrogate = false
  | listHostKeys =>
    ∀ lines, w.outcome (TrustFile.lines? s.layout) = .ok (some lines) →
      ∀ line ∈ lines, ∃ k?, HostKey.ofLine line = .ok k? ∧
        ∀ k ∈ k?, (Item.hostKey k).hasSurrogate = false
  | checkHostKey a =>
    a.port = none → w.outcome (TrustFile.lines? s.layout) = .ok none
  | _ => True

section Report

variable {s : SessionStore} {c : Command} {w v : World}

/-- What can be reported does not depend on the journal. -/
theorem CanReport.congr (h : c.CanReport s w) (ht : w.tree = v.tree) (hh : w.here = v.here) :
    c.CanReport s v := by
  have hlines := (TrustFile.ignoresJournal_lines? s.layout).outcome_eq ht hh
  cases c with
  | list =>
    have hlist := s.isQuiet_list.ignoresJournal.outcome_eq ht hh
    exact fun names hn => h names (hlist.trans hn)
  | «show» name keys =>
    refine ⟨h.1, fun record hr => ?_⟩
    rw [← setting?_congr s record ht hh]
    exact h.2 record (((s.ignoresJournal_openForRead _).outcome_eq ht hh).trans hr)
  | listHostKeys => exact fun lines hl => h lines (hlines.trans hl)
  | checkHostKey a => exact fun hp => hlines.symm.trans (h hp)
  | _ => trivial

/-- A command that lists something ends well exactly if everything that it finds can be printed. -/
theorem exists_run_ok_iff_of_isListing (hs : s.resources.default? = none)
    (hc : c.isListing = true) :
    (∃ status u, c.run s w = .ok status u) ↔
      ∃ found u, c.finds s w = .ok found u ∧
        ∀ lines, found = .ok lines → ∀ line ∈ lines, CanPrint line := by
  rw [run_of_isListing hs hc]
  constructor
  · rintro ⟨status, u, h⟩
    obtain ⟨found, v, hf, h⟩ := exists_of_bind_ok h
    refine ⟨found, v, hf, ?_⟩
    rintro lines rfl
    obtain ⟨_, v', hprint, -⟩ := exists_of_bind_ok h
    exact canPrint_of_forM_ok hprint
  · rintro ⟨found, u, hf, h⟩
    cases found with
    | error complaint => exact ⟨1, _, bind_of_ok hf _⟩
    | ok lines =>
      have hprint := forM_printFound (h lines rfl) u
      exact ⟨0, _, (bind_of_ok hf _).trans (bind_of_ok hprint _)⟩

theorem canPrint_settingFound_iff (hs : s.resources.default? = none) {record : SessionRecord}
    {place : Option Text} :
    CanPrint (settingFound s record place) ↔
      ∃ key, place = some key ∧ ∀ item ∈ s.setting? record w key, item.hasSurrogate = false := by
  cases place with
  | none => exact iff_of_false not_canPrint_error (by simp)
  | some key =>
    simp only [Option.some.injEq, exists_eq_left', SessionStore.setting?, readText_eq_pure hs]
    show CanPrint (.ok (((record.bind (·.get? key)).or (s.resources.values.get? key)).map _)) ↔
      ∀ item ∈ ((record.bind (·.get? key)).or (s.resources.values.get? key)).map (Item.setting key),
        item.hasSurrogate = false
    generalize (record.bind (·.get? key)).or (s.resources.values.get? key) = value?
    cases value? with
    | none => exact iff_of_true canPrint_none (by simp)
    | some value =>
      show CanPrint (.ok (some (Item.setting key value).line)) ↔ _
      rw [canPrint_some, Option.map_some]
      simpa using (Item.setting key value).hasSurrogate_line

theorem canPrint_hostKeyFound_iff {line : Text} :
    CanPrint (hostKeyFound line) ↔
      ∃ k?, HostKey.ofLine line = .ok k? ∧ ∀ k ∈ k?, (Item.hostKey k).hasSurrogate = false := by
  rw [hostKeyFound]
  cases HostKey.ofLine line with
  | error f => exact iff_of_false not_canPrint_error (by simp)
  | ok k? =>
    simp only [Except.ok.injEq, exists_eq_left']
    cases k? with
    | none => exact iff_of_true canPrint_none (by simp)
    | some k =>
      show CanPrint (.ok (some (Item.hostKey k).line)) ↔ _
      rw [canPrint_some]
      simpa using (Item.hostKey k).hasSurrogate_line

/-- **When a command that lists something ends well.** -/
theorem exists_run_ok_iff_canReport (hs : s.resources.default? = none)
    (hc : c.isListing = true) :
    (∃ status u, c.run s w = .ok status u) ↔
      (∃ b, s.layout.root.bytes = .ok b) ∧ c.CanReport s w := by
  rw [exists_run_ok_iff_of_isListing hs hc]
  cases c with
  | list =>
    refine exists_bind_pure_ok_iff.trans (and_congr SessionStore.exists_list_ok_iff ?_)
    refine forall_congr' fun names => imp_congr_right fun _ => ?_
    simp only [Except.ok.injEq, forall_eq', List.forall_mem_map, canPrint_some]
    exact forall₂_congr fun name _ => by rw [← (Item.profile name).hasSurrogate_line]; rfl
  | «show» name keys =>
    have hfinds : (Command.show name keys).finds s =
        s.openForRead (.text name) >>= fun record => pure (if record.isNone && keys.isEmpty then
          .error (noSession name) else .ok ((places record keys).map (settingFound s record))) := by
      rw [finds]
      congr 1
      funext record
      split <;> rfl
    rw [hfinds]
    refine exists_bind_pure_ok_iff.trans ?_
    rw [SessionStore.exists_openForRead_ok_iff, and_comm (a := ∃ raw, _), and_assoc]
    refine and_congr_right fun _ => and_congr_right fun _ => ?_
    refine forall_congr' fun record => imp_congr_right fun _ => ?_
    split
    · rename_i hnone
      obtain ⟨rfl, rfl⟩ : record = none ∧ keys = [] := by simpa using hnone
      refine iff_of_true (by simp) ?_
      have hplaces : places none [] = [] := by
        simp [places, Text.sort, OrderedMap.empty, OrderedMap.keys]
      rw [hplaces]
      exact List.forall_mem_nil _
    · simp only [Except.ok.injEq, forall_eq', List.forall_mem_map]
      exact forall₂_congr fun place _ => canPrint_settingFound_iff hs
  | listHostKeys =>
    refine exists_bind_pure_ok_iff.trans (and_congr TrustFile.exists_lines?_ok_iff ?_)
    refine ⟨fun h lines hl => ?_, fun h lines? hl => ?_⟩
    · have := h (some lines) hl
      simpa only [Except.ok.injEq, forall_eq', List.forall_mem_map, canPrint_hostKeyFound_iff,
        Option.getD_some] using this
    · cases lines? with
      | none => exact fun _ he => by cases he; exact List.forall_mem_nil _
      | some lines =>
        simpa only [Except.ok.injEq, forall_eq', List.forall_mem_map, canPrint_hostKeyFound_iff,
          Option.getD_some] using h lines hl
  | _ => contradiction

/-- A verdict can always be printed. -/
theorem exists_checkHostKey_ok_iff {a : HostKeyArguments} :
    (∃ status u, (checkHostKey a).run s w = .ok status u) ↔
      ∃ verdict, w.outcome (TrustFile.check s.layout a.identity fun k => some k = a.keydata) =
        .ok verdict := by
  constructor
  · rintro ⟨status, u, h⟩
    obtain ⟨verdict, v, hv, -⟩ := exists_of_bind_ok h
    exact ⟨verdict, World.outcome_of_ok hv⟩
  · rintro ⟨verdict, h⟩
    obtain ⟨u, hcheck⟩ := World.outcome_eq_ok_iff.1 h
    have hprint := print_eq verdict.hasSurrogate_word u
    exact ⟨verdict.status, _, (bind_of_ok hcheck _).trans (bind_of_ok hprint _)⟩

/-- **When a reading command ends well.** -/
theorem exists_run_ok_iff (hs : s.resources.default? = none) (hc : c.isReading = true)
    (hp : ∀ a port, c = .checkHostKey a → a.port = some port →
      port.natAbs < 10 ^ Decimal.maxDigits) :
    (∃ status u, c.run s w = .ok status u) ↔
      (∃ b, s.layout.root.bytes = .ok b) ∧ c.CanReport s w := by
  by_cases hl : c.isListing = true
  · exact exists_run_ok_iff_canReport hs hl
  obtain ⟨a, rfl⟩ : ∃ a, c = .checkHostKey a := by
    cases c with
    | checkHostKey a => exact ⟨a, rfl⟩
    | _ => contradiction
  rw [exists_checkHostKey_ok_iff, TrustFile.outcome_check,
    ← TrustFile.exists_lines?_ok_iff (w := w)]
  simp only [← World.outcome_eq_ok_iff, CanReport]
  cases w.outcome (TrustFile.lines? s.layout) with
  | error f => exact iff_of_false (fun ⟨_, h⟩ => by cases h) fun ⟨⟨_, h⟩, _⟩ => by cases h
  | ok lines? =>
    cases lines? with
    | none => exact iff_of_true ⟨.absent, rfl⟩ ⟨⟨_, rfl⟩, fun _ => rfl⟩
    | some lines =>
      cases hport : a.port with
      | none =>
        rw [HostKeyArguments.identity_of_port_eq_none hport]
        exact iff_of_false (fun ⟨_, h⟩ => by cases h) fun ⟨_, h⟩ => by cases h rfl
      | some port =>
        obtain ⟨identity, ha⟩ := a.exists_identity hport (hp a port rfl hport)
        rw [ha]
        exact iff_of_true ⟨_, rfl⟩ ⟨⟨_, rfl⟩, fun h => by cases h⟩

end Report

end Command

/-! ### Runs of the program -/

/-- **When a run with a reading command ends with an exit status.** It takes a root with bytes,
arguments none of which is empty, and contents that can be reported; and that is enough, whatever
else is in the files. -/
theorem exists_ending_eq_exit_iff {env : Environment} {args : List Text} {i : Invocation}
    {w : World} (hi : Invocation.parse args = .ok i) (hc : i.command.isReading = true) :
    (∃ status, (execute env args w).1.ending = .exit status) ↔
      none ∉ i.resources ∧ ∃ l, i.layout env = .ok l ∧ (∃ b, l.root.bytes = .ok b) ∧
        i.command.CanReport (i.store l) w := by
  have hport (a : HostKeyArguments) (port : Int) (ha : i.command = .checkHostKey a)
      (hp : a.port = some port) : port.natAbs < 10 ^ Decimal.maxDigits :=
    Invocation.port_lt_of_parse hi (by rw [ha]; rfl) hp
  -- the command itself decides, since it does not complain about a file that was needed
  have hrun (l : Layout) : (∃ status u, i.command.run (i.store l) (i.start w) = .ok status u) ↔
      (∃ b, l.root.bytes = .ok b) ∧ i.command.CanReport (i.store l) w := by
    refine (Command.exists_run_ok_iff (s := i.store l) rfl hc hport).trans (and_congr_right ?_)
    exact fun _ => ⟨fun h => h.congr rfl rfl, fun h => h.congr rfl rfl⟩
  rw [execute_of_parse hi]
  constructor
  · rintro ⟨status, h⟩
    obtain ⟨l, hl, hr, he⟩ := Invocation.exists_of_ending_eq_exit h
    rw [he, Invocation.ending_conclude_eq_exit_iff] at h
    refine ⟨hr, l, hl, (hrun l).1 ?_⟩
    rcases h with ⟨u, h⟩ | ⟨-, purpose, path, r, u, h⟩
    · exact ⟨status, u, h⟩
    · obtain ⟨_, he⟩ := Command.refuses_run (s := i.store l) rfl hc _ _ _ h rfl
      contradiction
  · rintro ⟨hr, l, hl, h⟩
    obtain ⟨status, u, h⟩ := (hrun l).2 h
    refine ⟨status, ?_⟩
    rw [Invocation.execute_eq_conclude hl hr, Invocation.ending_conclude_eq_exit_iff]
    exact .inl ⟨u, h⟩

/-- A profile whose name on disk is one byte that is no UTF-8. -/
def undecodableWorld : World :=
  World.bare.after do
    Layout.sample.ensureSessions
    let _ ← Disk.openEmptied (Layout.sample.sessions.child "%FF") 0o644

/-- The profile is listed, and standard output does not take its name; other commands are not
kept from their end by it. -/
theorem exists_ending_eq_exit_undecodableWorld :
    (¬ ∃ status, (execute ⟨"/home", none⟩ ["--root", "store", "list"] undecodableWorld).1.ending =
      .exit status) ∧
    ∃ status, (execute ⟨"/home", none⟩ ["--root", "store", "hostkey-list"]
      undecodableWorld).1.ending = .exit status := by
  have hlist : Invocation.parse ["--root", "store", "list"] =
      .ok ⟨some (some "store"), [], 0, .list⟩ := rfl
  have hkeys : Invocation.parse ["--root", "store", "hostkey-list"] =
      .ok ⟨some (some "store"), [], 0, .listHostKeys⟩ := rfl
  rw [exists_ending_eq_exit_iff hlist rfl, exists_ending_eq_exit_iff hkeys rfl]
  constructor
  · rintro ⟨-, l, hl, -, hreport⟩
    obtain rfl : Layout.sample = l := Except.ok.inj hl
    have hnames : undecodableWorld.outcome (SessionStore.list ⟨Layout.sample, .empty⟩) =
        .ok [[.ofNat 0xDCFF]] := by decide +kernel
    have hplain := hreport _ hnames _ List.mem_cons_self
    contradiction
  · refine ⟨by decide, Layout.sample, rfl, ⟨_, rfl⟩, fun lines hl => ?_⟩
    have hmissing : undecodableWorld.outcome (TrustFile.lines? Layout.sample) = .ok none := by
      decide +kernel
    injection hmissing.symm.trans hl with h
    contradiction

/-- A name that is no UTF-8 is the end of the run. -/
theorem ending_undecodableWorld :
    (execute ⟨"/home", none⟩ ["--root", "store", "list"] undecodableWorld).1.ending =
      .failed .unencodable := by
  decide +kernel

end ClientStore
