import ClientStore.Proofs.Command.Endings
import ClientStore.Proofs.Disclosures

/-!
# What a run that fails leaves of the reports

A run that does not end with status 0 has mostly changed nothing that is reported. Commands that
read leave the files alone, and so does a command whose arguments are refused; a change of the files
that fails loses nothing. The exception is a session that is written and breaks off. The profile is
emptied before the first setting is written, and a setting with a surrogate that stands for no byte
cannot be: what the profile had is gone then, and it has the settings before that one.

## Main definitions

* `Command.changesFiles` — the commands that can change files.
* `SessionStore.BreaksOff` — a profile that was written as far as a setting that has no bytes.

## Main results

* `Command.run_error_cases`, `Command.retains_of_outcome_ne` — what a command that fails has done,
  and what it leaves of the files.
* `reports_of_ending_ne_exit_zero` — what a run that fails leaves of the reports.
-/

namespace ClientStore

open StoreM

/-! ### Commands that leave the files alone -/

section Reading

theorem StoreM.leavesFiles_print (line : Text) : (print line).LeavesFiles := by
  rw [print]
  split
  · exact .throw _
  · exact .tell _

theorem SessionStore.leavesFiles_list (s : SessionStore) : s.list.LeavesFiles := by
  have hget : (get : StoreM World).LeavesFiles := fun _ => ⟨rfl, rfl⟩
  refine .bind (.bind (.lift _) fun path => .bind hget fun w => ?_) fun c => .bind ?_ fun _ =>
    .pure _
  · split <;> exact .pure _
  · cases c with
    | finished => exact .pure _
    | opened path number => exact .bind hget fun w => .bind (.lift _) fun _ => .pure _
    | fetched path entries => exact .bind hget fun w => .bind (.lift _) fun _ => .pure _

theorem SessionStore.leavesFiles_readText (s : SessionStore) (record : SessionRecord)
    (key : Text) : (s.readText record key).LeavesFiles := by
  rw [readText]
  split
  · exact .pure _
  · rw [fallback]
    split
    · exact .pure _
    · exact .bind (.tell _) fun _ => .pure _
    · exact .pure _

theorem TrustFile.leavesFiles_check (l : Layout) (identity : Except Failure Text)
    (agrees : Text → Bool) : (check l identity agrees).LeavesFiles := by
  refine .bind (leavesFiles_lines? l) ?_
  rintro (- | lines)
  · exact .pure _
  · refine .bind (.lift _) fun identity => ?_
    dsimp only
    split
    · exact .bind (.log _ _) fun _ => .pure _
    · exact .pure _

theorem Seed.leavesFiles_read (l : Layout) (size : Int) : (read l size).LeavesFiles := by
  refine .bind (.onRefusal (.bind (Disk.leavesFiles_read _) fun _ => .pure _) fun r => ?_)
    fun content => ?_
  · split
    · exact .bind (.log _ _) fun _ => .pure _
    · exact .pure _
  · split
    · exact .pure _
    · exact .lift _

namespace Command

/-- The commands that can change files. -/
def changesFiles : Command → Bool
  | set _ _ | delete _ | addHostKey _ => true
  | _ => false

/-- **No other command changes any.** -/
theorem leavesFiles_run {c : Command} (hc : c.changesFiles = false) (s : SessionStore) :
    (c.run s).LeavesFiles := by
  cases c with
  | list =>
    exact .bind s.leavesFiles_list fun _ => .bind (.forM fun _ _ => leavesFiles_print _) fun _ =>
      .pure _
  | «show» name keys =>
    refine .bind (s.leavesFiles_openForRead _) fun record => ?_
    split
    · exact .bind (.tell _) fun _ => .pure _
    · refine .bind (.forM fun place _ => .bind (.lift _) fun key => ?_) fun _ => .pure _
      refine .bind (s.leavesFiles_readText _ _) fun value => ?_
      split
      · exact leavesFiles_print _
      · exact .pure _
  | listHostKeys =>
    refine .bind (TrustFile.leavesFiles_lines? _) fun lines => .bind (.forM fun line _ => ?_)
      fun _ => .pure _
    refine .bind (.lift _) fun key => ?_
    split
    · exact .bind (.lift _) fun _ => leavesFiles_print _
    · exact .pure _
  | checkHostKey a =>
    exact .bind (TrustFile.leavesFiles_check _ _ _) fun _ => .bind (leavesFiles_print _) fun _ =>
      .pure _
  | seedSize =>
    exact .bind (Seed.leavesFiles_read _ _) fun _ => .bind (leavesFiles_print _) fun _ => .pure _
  | _ => contradiction

end Command

end Reading

/-! ### Sessions that break off -/

namespace SessionStore

variable {s : SessionStore} {w w' u : World} {name : ProfileName} {es : List (Text × Text)}

/-- The profile was written with some settings, as far as one that has no bytes. It has the settings
before that one and nothing of what it had, and no other file has changed. -/
inductive BreaksOff (s : SessionStore) (w w' : World) (name : ProfileName) :
    List (Text × Text) → Prop
  | mk {front rest : List (Text × Text)} {e : Text × Text} {c : Bytes} {path : FilePath}
      {handle : Handle} (written : Utf8.encode? (Settings.formatEntries front) = some c)
      (unwritable : Utf8.encode? (Settings.formatLine e.1 e.2) = none)
      (path_eq : s.layout.session name = .ok path) (file : w'.Opens path handle c)
      (record : w'.outcome (s.openForRead name) = .ok (some (.ofText (Utf8.decode c))))
      (others : ∀ p k b, w.Opens p k b → k.place ≠ handle.place → w'.Opens p k b) :
      BreaksOff s w w' name (front ++ e :: rest)

/-- **A session that could be opened and not be written has broken off.** -/
theorem breaksOff_of_writeAll {sw : SessionWriter} {f : Failure} (hw : w.IsSound)
    (ho : s.openForWrite name w = .ok sw u)
    (h : sw.writeAll (es.map fun e => (e.1, .text e.2)) u = .error f w') :
    s.BreaksOff w w' name es := by
  obtain ⟨path, handle, hpath, rfl, hopens, hu, mode, hr⟩ := of_openForWrite_ok hw ho
  obtain ⟨mode', hfind⟩ := id hopens
  have hnew := SessionWriter.hasWritten_new path (Disk.rewritten_self (hfind.isIn hu))
  have hrender (es : List (Text × Text)) :
      ∀ e ∈ es.map fun e => (e.1, SettingValue.text e.2), ∃ t, e.2.render = .ok t := by
    intro e he
    obtain ⟨f, -, rfl⟩ := List.mem_map.1 he
    exact ⟨f.2, rfl⟩
  rcases Settings.encode?_formatEntries_cases es with ⟨c, hc⟩ | ⟨front, e, rest, c, rfl, hc, he⟩
  · rw [← texts_map_text es] at hc
    obtain ⟨v, hv, -⟩ := hnew.writeAll (hrender es) hc
    exact absurd (hv.symm.trans h) (by simp)
  obtain ⟨x, hx, hs, hb⟩ := (Utf8.encode?_eq_none_iff _).1 he
  have hlacks : (SettingValue.text e.2).LacksLine e.1 .unencodable := .surrogate rfl hx hs hb
  have hline := hc
  rw [← texts_map_text front] at hline
  obtain ⟨v, hv, hr'⟩ := hnew.writeAll_of_lacksLine (hrender front) hline hlacks
    (rest.map fun e => (e.1, .text e.2))
  rw [List.map_append, List.map_cons] at h
  obtain ⟨-, rfl⟩ : _ ∧ v = w' := by
    injection hv.symm.trans h with hf hv
    exact ⟨hf, hv⟩
  rw [List.nil_append] at hr'
  have hfile := hr'.opens hu hfind
  refine .mk hc he hpath hfile
    (World.outcome_of_ok (openForRead_of_holds hpath (Disk.holds_iff.2 ⟨_, hfile⟩)))
    fun p k b hk hne => ?_
  -- before the file was opened, only directories were made
  have hadds := Layout.adds_ensureSessions hw s.layout
  obtain ⟨old, hk⟩ := hk
  have hmade : (w.after s.layout.ensureSessions).Opens p k b := ⟨old, hadds.finds hw hk (by simp)⟩
  exact hr'.opens_of_ne hu (hr.opens_of_ne (hadds.keeps.isSound hw) hmade hne) hne

end SessionStore

/-! ### Commands that fail -/

namespace Command

variable {s : SessionStore} {c : Command} {w w' : World}

/-- A command that ends with another status than 0 leaves the files alone. -/
theorem files_of_run_eq_ok {status : Nat} (h : c.run s w = .ok status w') (hs : status ≠ 0) :
    w'.tree = w.tree ∧ w'.here = w.here := by
  by_cases hc : c.changesFiles = false
  · rw [← World.after_of_ok h]
    exact leavesFiles_run hc s w
  cases c with
  | set name pairs =>
    cases hfind : pairs.find? fun arg => (pair? arg).isNone with
    | some arg =>
      rw [run, hfind] at h
      cases h
      exact ⟨rfl, rfl⟩
    | none =>
      rw [run, hfind] at h
      obtain ⟨_, u, -, h⟩ := exists_of_bind_ok h
      injection h with h
      exact absurd h.symm hs
  | delete name =>
    obtain ⟨_, u, -, h⟩ := exists_of_bind_ok h
    injection h with h
    exact absurd h.symm hs
  | addHostKey a =>
    obtain ⟨_, u, -, h⟩ := exists_of_bind_ok h
    obtain ⟨_, v, -, h⟩ := exists_of_bind_ok h
    injection h with h
    exact absurd h.symm hs
  | _ => exact absurd rfl hc

/-- **What a command that fails has done.** It has left the files alone, it has failed in a change,
or it has broken off a session. -/
theorem run_error_cases {f : Failure} (hw : w.IsSound) (h : c.run s w = .error f w') :
    (w'.tree = w.tree ∧ w'.here = w.here) ∨
    (∃ change : SessionStore.Change, change.run s w = .error f w') ∨
    ∃ name pairs, c = .set name pairs ∧ (∀ arg ∈ pairs, (pair? arg).isSome = true) ∧
      s.BreaksOff w w' (.text name) (pairs.filterMap pair?) := by
  by_cases hc : c.changesFiles = false
  · rw [← World.after_of_error h]
    exact .inl (leavesFiles_run hc s w)
  cases c with
  | set name pairs =>
    cases hfind : pairs.find? fun arg => (pair? arg).isNone with
    | some arg =>
      rw [run, hfind] at h
      contradiction
    | none =>
      rw [run, hfind] at h
      rcases bind_error_cases h with h | ⟨_, _, -, h⟩
      case inr => contradiction
      rcases bind_error_cases h with h | ⟨sw, u, ho, h⟩
      · exact .inr (.inl ⟨.openForWrite (.text name), bind_of_error h _⟩)
      · refine .inr (.inr ⟨name, pairs, rfl, fun arg ha => ?_, ?_⟩)
        · have hsome := List.find?_eq_none.1 hfind arg ha
          exact Option.isSome_iff_ne_none.2 (by simpa using hsome)
        · exact SessionStore.breaksOff_of_writeAll hw ho h
  | delete name =>
    rcases bind_error_cases h with h | ⟨_, _, -, h⟩
    · exact .inr (.inl ⟨.delete (.text name), h⟩)
    · contradiction
  | addHostKey a =>
    rcases lift_bind_error_cases h with ⟨-, rfl⟩ | ⟨k, -, h⟩
    · exact .inl ⟨rfl, rfl⟩
    rcases bind_error_cases h with h | ⟨_, _, -, h⟩
    · exact .inr (.inl ⟨.record k, h⟩)
    · contradiction
  | _ => exact absurd rfl hc

/-- **What a command that does not end with status 0 leaves of the files.** It may have broken off a
session; otherwise nothing is lost, and where nothing is hidden nothing comes to light. -/
theorem retains_of_outcome_ne (hw : w.IsSound) (h : w.outcome (c.run s) ≠ .ok 0) :
    (∃ name pairs, c = .set name pairs ∧ (∀ arg ∈ pairs, (pair? arg).isSome = true) ∧
      s.BreaksOff w (w.after (c.run s)) (.text name) (pairs.filterMap pair?)) ∨
    s.layout.Retains w (w.after (c.run s)) ∧
      (s.layout.HidesNothing w → s.layout.Retains (w.after (c.run s)) w) := by
  have same {v : World} (ht : v.tree = w.tree) (hh : v.here = w.here) :
      s.layout.Retains w v ∧ (s.layout.HidesNothing w → s.layout.Retains v w) :=
    ⟨.of_eq _ ht.symm hh.symm, fun _ => .of_eq _ ht hh⟩
  rcases ok_or_error (c.run s) w with ⟨status, hrun⟩ | ⟨f, hrun⟩
  · have hstatus : status ≠ 0 := fun hz => h (hz ▸ World.outcome_of_ok hrun)
    obtain ⟨ht, hh⟩ := files_of_run_eq_ok hrun hstatus
    exact .inr (same ht hh)
  · rcases run_error_cases hw hrun with ⟨ht, hh⟩ | ⟨change, hchange⟩ | hbroken
    · exact .inr (same ht hh)
    · exact .inr (SessionStore.Change.retains_of_error hw hchange)
    · exact .inl hbroken

end Command

/-! ### Runs of the program -/

/-- A run leaves the files that its command leaves. -/
theorem Invocation.files_conclude (i : Invocation) (w : World) (x : StoreM Nat) (u : World) :
    (i.conclude w (x u)).2.tree = (u.after x).tree ∧
      (i.conclude w (x u)).2.here = (u.after x).here := by
  rw [World.after]
  cases x u with
  | ok status v => exact ⟨rfl, rfl⟩
  | error f v => cases f <;> exact ⟨rfl, rfl⟩

theorem SessionStore.BreaksOff.congr {s s' : SessionStore} {w w' v v' : World}
    {name : ProfileName} {es : List (Text × Text)} (h : s.BreaksOff w w' name es)
    (hl : s.layout = s'.layout) (hw : w.tree = v.tree ∧ w.here = v.here)
    (hw' : w'.tree = v'.tree ∧ w'.here = v'.here) : s'.BreaksOff v v' name es := by
  have hopens {p : FilePath} {k : Handle} {b : Bytes} : w'.Opens p k b ↔ v'.Opens p k b :=
    World.opens_congr hw'.1 hw'.2
  cases h with
  | mk hwritten hunwritable hpath hfile hrecord hothers =>
    have hpath' : s'.layout.session name = .ok _ := hl ▸ hpath
    have hholds := Disk.holds_iff.2 ⟨_, hopens.1 hfile⟩
    exact .mk hwritten hunwritable hpath' (hopens.1 hfile)
      (World.outcome_of_ok (SessionStore.openForRead_of_holds hpath' hholds)) fun p k b ho hne =>
      hopens.1 (hothers p k b ((World.opens_congr hw.1 hw.2).2 ho) hne)

/-- **What a run that does not end with status 0 leaves of the reports.** It may have broken off a
session; otherwise all that was reported still is, and there is nothing new where nothing was
hidden. -/
theorem reports_of_ending_ne_exit_zero {env : Environment} {args : List Text} {w : World}
    {s : SessionStore} (hw : w.IsSound)
    (hs : ∀ i l, Invocation.parse args = .ok i → i.layout env = .ok l → s.layout = l)
    (h : (execute env args w).1.ending ≠ .exit 0) :
    (∃ i name pairs, Invocation.parse args = .ok i ∧ i.command = .set name pairs ∧
      (∀ arg ∈ pairs, (Command.pair? arg).isSome = true) ∧
      s.BreaksOff w (execute env args w).2 (.text name) (pairs.filterMap Command.pair?)) ∨
    s.StillReports w (execute env args w).2 ∧
      (s.layout.HidesNothing w → s.ReportsAlike w (execute env args w).2) := by
  have same {v : World} (ht : v.tree = w.tree) (hh : v.here = w.here) :
      s.StillReports w v ∧ (s.layout.HidesNothing w → s.ReportsAlike w v) :=
    have hto := Layout.Retains.of_eq s.layout ht.symm hh.symm
    ⟨hto.stillReports, fun _ => hto.reportsAlike (.of_eq s.layout ht hh)⟩
  cases hi : Invocation.parse args with
  | error interruption =>
    rw [execute, hi]
    exact .inr (same rfl rfl)
  | ok i =>
    rw [execute_of_parse hi] at h ⊢
    rcases Invocation.execute_cases env i w with ⟨f, -, he⟩ | ⟨l, -, -, he⟩ | ⟨l, hl, -, he⟩
    · rw [he]
      exact .inr (same rfl rfl)
    · rw [he]
      exact .inr (same rfl rfl)
    have hlayout : s.layout = (i.store l).layout := hs i l hi hl
    obtain ⟨ht, hh⟩ := i.files_conclude w (i.command.run (i.store l)) (i.start w)
    rw [he, ne_eq, Invocation.ending_conclude_eq_exit_iff, not_or] at h
    rw [he]
    have hne : (i.start w).outcome (i.command.run (i.store l)) ≠ .ok 0 := fun ho =>
      h.1 (World.outcome_eq_ok_iff.1 ho)
    have hw' : (i.start w).IsSound := hw
    rcases Command.retains_of_outcome_ne hw' hne with ⟨name, pairs, hc, hpairs, hb⟩ | ⟨hto, hfrom⟩
    · refine .inl ⟨i, name, pairs, rfl, hc, hpairs, ?_⟩
      exact hb.congr hlayout.symm ⟨rfl, rfl⟩ ⟨ht.symm, hh.symm⟩
    · rw [← hlayout] at hto hfrom
      -- at both ends of the command only the journal changes
      have hstart : s.layout.Retains w (i.start w) := .of_eq _ rfl rfl
      have hback : s.layout.Retains (i.start w) w := .of_eq _ rfl rfl
      have hto' := (hstart.trans hto).trans (.of_eq _ ht.symm hh.symm)
      refine .inr ⟨hto'.stillReports, fun hhides => hto'.reportsAlike ?_⟩
      exact ((Layout.Retains.of_eq _ ht hh).trans (hfrom (hhides.congr rfl rfl))).trans hback

/-- The arguments for setting some keys of the profile `p`. -/
def setArguments (pairs : List Text) : List Text :=
  "--root" :: "store" :: "set" :: "p" :: pairs

/-- The world in which the profile `p` has one setting. -/
def savedWorld : World := (execute ⟨"/home", none⟩ (setArguments ["A=1"]) .bare).2

/-- Two pairs, the second of which has no bytes. -/
def brokenPairs : List Text := ["B=2", ("C=" : Text) ++ [.ofNat 0xD800]]

/-- The arguments for recording a key whose data have no bytes. -/
def brokenKey : List Text :=
  ["--root", "store", "hostkey-add", "h", "22", "ssh-rsa", [.ofNat 0xD800]]

/-- A profile that is set to a pair without bytes is gone, and a run that fails to record a key on a
fresh install changes nothing that is reported. -/
theorem reports_of_ending_ne_exit_zero_broken :
    (∃ name es, SessionStore.sample.BreaksOff savedWorld
      (execute ⟨"/home", none⟩ (setArguments brokenPairs) savedWorld).2 name es) ∧
    SessionStore.sample.ReportsAlike .bare (execute ⟨"/home", none⟩ brokenKey .bare).2 := by
  have hset : Invocation.parse (setArguments brokenPairs) =
      .ok ⟨some (some "store"), [], 0, .set "p" brokenPairs⟩ := rfl
  have hkey : Invocation.parse brokenKey = .ok ⟨some (some "store"), [], 0,
      .addHostKey ⟨some "h", some 22, some "ssh-rsa", some [.ofNat 0xD800]⟩⟩ := rfl
  constructor
  · have hends : (execute ⟨"/home", none⟩ (setArguments brokenPairs) savedWorld).1.ending ≠
        .exit 0 := by decide +kernel
    have hw : savedWorld.IsSound := by
      show _ < _
      decide +kernel
    have hs : ∀ i l, Invocation.parse (setArguments brokenPairs) = .ok i →
        i.layout ⟨"/home", none⟩ = .ok l → SessionStore.sample.layout = l := by
      intro i l hi hl
      obtain rfl := Except.ok.inj (hset.symm.trans hi)
      exact Except.ok.inj hl
    rcases reports_of_ending_ne_exit_zero hw hs hends with
      ⟨i, name, pairs, -, -, -, hb⟩ | ⟨hstill, -⟩
    · exact ⟨_, _, hb⟩
    · have hbefore : savedWorld.outcome (SessionStore.sample.openForRead (.text "p")) =
          .ok (some (.ofList [("A", "1")])) := by decide +kernel
      exact absurd (hstill.record _ _ hbefore) (by decide +kernel)
  · have hends : (execute ⟨"/home", none⟩ brokenKey .bare).1.ending ≠ .exit 0 := by
      decide +kernel
    have hs : ∀ i l, Invocation.parse brokenKey = .ok i →
        i.layout ⟨"/home", none⟩ = .ok l → SessionStore.sample.layout = l := by
      intro i l hi hl
      obtain rfl := Except.ok.inj (hkey.symm.trans hi)
      exact Except.ok.inj hl
    rcases reports_of_ending_ne_exit_zero World.isSound_bare hs hends with
      ⟨i, name, pairs, hi, hc, -⟩ | ⟨-, halike⟩
    · obtain rfl := Except.ok.inj (hkey.symm.trans hi)
      cases hc
    · exact halike (Layout.hidesNothing_of_not_hasDirectoryAt (by decide)
        Layout.not_hasDirectoryAt_sample)

/-- The setting that the profile had is lost, and it has the first of the new ones. -/
theorem openForRead_after_brokenPairs :
    (execute ⟨"/home", none⟩ (setArguments brokenPairs) savedWorld).1.ending =
        .failed .unencodable ∧
      savedWorld.outcome (SessionStore.sample.openForRead (.text "p")) =
        .ok (some (.ofList [("A", "1")])) ∧
      (execute ⟨"/home", none⟩ (setArguments brokenPairs) savedWorld).2.outcome
        (SessionStore.sample.openForRead (.text "p")) = .ok (some (.ofList [("B", "2")])) := by
  decide +kernel

end ClientStore
