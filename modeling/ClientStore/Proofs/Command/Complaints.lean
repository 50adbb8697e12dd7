import ClientStore.Proofs.Command.Endings

/-!
# What a run writes to standard error

Messages repeat much of what was given or stored: names, resource strings, paths, keys of hosts. A
text that is repeated may hold anything, so that a message either quotes it or makes it safe for a
terminal first; and the path of a file has no control characters if the root has none, because the
names of profiles are percent-coded. This is followed through every message of every command.

Two messages are different. The warning about a host key that differs from the recorded one, and the
message about a key that was added, have the type of the key and the name of the host in them as
they were given. The first one is always shown; for the second one more messages must be asked for.

## Main definitions

* `World.complaints`, `World.IsTidy` — standard error, and that no line on it has control
  characters.
* `StoreM.TellsCleanly` — operations after which this is the same.
* `Command.named?` — the key that a command names just as it was given.

## Main results

* `Command.isTidy_after_run` — what a command does to standard error.
* `forall_isClean_complaints_iff` — when every line on standard error is clean.
-/

namespace ClientStore

open StoreM

/-! ### Paths and refusals -/

theorem FilePath.isClean_toText_child {p : FilePath} {t : Text} (hs : CodePoint.ofChar '/' ∉ t)
    (hp : p.toText.IsClean) (ht : t.IsClean) : (p.child t).toText.IsClean := by
  by_cases hc : isComponent t = true
  · rw [toText_child hc]
    refine Text.isClean_append.2 ⟨?_, ht⟩
    obtain ⟨anchor, cs⟩ := p
    cases cs with
    | nil => cases anchor <;> decide
    | cons c cs =>
      rw [stem_cons]
      exact Text.isClean_append.2 ⟨hp, by decide⟩
  · rwa [child_of_not_isComponent (eq_false_of_ne_true hc) hs]

theorem Percent.isClean_encode (bytes : Bytes) : (encode bytes).IsClean := by
  intro c hc
  obtain ⟨hgt, hlt, -⟩ := val_of_mem_encode hc
  exact Sanitize.isControl_eq_false_iff.2 ⟨Nat.le_of_lt hgt, Nat.ne_of_lt hlt⟩

namespace Layout

variable {l : Layout} {name : ProfileName} {path : FilePath}

theorem isClean_hostKeys (h : l.root.toText.IsClean) : l.hostKeys.toText.IsClean :=
  FilePath.isClean_toText_child (by decide) h (by decide)

theorem isClean_seed (h : l.root.toText.IsClean) : l.seed.toText.IsClean :=
  FilePath.isClean_toText_child (by decide) h (by decide)

/-- **The path of a profile is clean**, whatever the profile is called. -/
theorem isClean_session (h : l.root.toText.IsClean) (hs : l.session name = .ok path) :
    path.toText.IsClean := by
  have hsessions : l.sessions.toText.IsClean :=
    FilePath.isClean_toText_child (by decide) h (by decide)
  rw [session, ProfileName.stored?] at hs
  cases hraw : name.raw? with
  | none =>
    rw [hraw] at hs
    contradiction
  | some raw =>
    rw [hraw] at hs
    rw [← Except.ok.inj hs]
    exact FilePath.isClean_toText_child (Percent.slash_not_mem_encode raw) hsessions
      (Percent.isClean_encode raw)

end Layout

theorem Refusal.isClean_message (r : Refusal) : r.message.IsClean := by
  obtain ⟨fault, path⟩ := r
  have hfault : fault.number.IsClean ∧ fault.description.IsClean := by
    cases fault <;> decide
  cases path with
  | none =>
    simp only [message, Text.isClean_append]
    exact ⟨⟨⟨⟨by decide, hfault.1⟩, by decide⟩, hfault.2⟩, Text.isClean_nil⟩
  | some path =>
    simp only [message, Text.isClean_append]
    exact ⟨⟨⟨⟨by decide, hfault.1⟩, by decide⟩, hfault.2⟩, by decide, Text.isClean_quoted _⟩

theorem Decimal.isClean_numeral (i : Int) : (numeral i).IsClean := by
  intro c hc
  rcases mem_numeral hc with hd | rfl
  · simp only [CodePoint.isAsciiDigit, Bool.and_eq_true, decide_eq_true_eq] at hd
    rw [Sanitize.isControl_eq_false_iff]
    omega
  · decide

theorem HostKey.isClean_identity {k : HostKey} {identity : Text} (h : k.identity = .ok identity) :
    identity.IsClean ↔ k.keytype.IsClean ∧ k.hostname.IsClean := by
  have hport : (Decimal.numeral k.port).IsClean := Decimal.isClean_numeral k.port
  have hat : Sanitize.isControl (.ofChar '@') = false := by decide
  have hcolon : Sanitize.isControl (.ofChar ':') = false := by decide
  rcases Nat.lt_or_ge k.port.natAbs (10 ^ Decimal.maxDigits) with hp | hp
  · rw [identity_of_lt hp] at h
    rw [← Except.ok.inj h]
    simp [identityText, hport, hat, hcolon]
  · rw [identity_of_le hp] at h
    cases h

theorem ProfileName.isClean_quoted (name : ProfileName) : name.quoted.IsClean := by
  cases name with
  | default => decide
  | text t => exact t.isClean_quoted
  | bytes b => exact Text.isClean_cons.2 ⟨by decide, Quoted.isClean_bytes b⟩

/-! ### Lines on standard error -/

/-- What is spelled out on standard error are surrogates, which are no control characters. -/
theorem isClean_flatMap_spellSurrogate {t : Text} :
    Text.IsClean (t.flatMap spellSurrogate) ↔ t.IsClean := by
  constructor
  · intro h c hc
    cases hs : c.isSurrogate with
    | true =>
      rw [CodePoint.isSurrogate, Bool.and_eq_true, decide_eq_true_eq, decide_eq_true_eq] at hs
      rw [Sanitize.isControl_eq_false_iff]
      omega
    | false => exact h c (List.mem_flatMap.2 ⟨c, hc, by simp [spellSurrogate, hs]⟩)
  · intro h
    refine Text.isClean_flatMap fun c hc => ?_
    rw [spellSurrogate]
    split
    · exact Text.isClean_of_isGraphic (CodePoint.isGraphic_of_mem_escaped (by decide)
        (CodePoint.isGraphic_of_mem_padded 4 c.val))
    · exact Text.isClean_cons.2 ⟨h c hc, Text.isClean_nil⟩

theorem Logging.isClean_line {severity : Severity} {message : Text} :
    (line severity message).IsClean ↔ message.IsClean := by
  have hlabel : severity.label.IsClean := by cases severity <;> decide
  have hfront : Text.IsClean (.ofChar '[' :: severity.label ++ ("] " : Text)) :=
    Text.isClean_append.2 ⟨Text.isClean_cons.2 ⟨by decide, hlabel⟩, by decide⟩
  rw [line, Text.isClean_append]
  exact and_iff_right hfront

/-- The line on standard error that an event is, if it is one, has no control characters. -/
def Event.IsClean (threshold : Int) (e : Event) : Prop :=
  ∀ line ∈ e.complaint? threshold, line.IsClean

section Events

variable {t : Int}

theorem Event.isClean_complained {line : Text} : (complained line).IsClean t ↔ line.IsClean := by
  simp [IsClean, complaint?, isClean_flatMap_spellSurrogate]

theorem Event.isClean_logged {severity : Severity} {message : Text} :
    (logged severity message).IsClean t ↔
      (Logging.passes t severity = true → message.IsClean) := by
  rw [IsClean, complaint?]
  cases Logging.passes t severity with
  | true => simp [isClean_flatMap_spellSurrogate, Logging.isClean_line]
  | false => simp

/-- The lines on standard error, if messages below a threshold are not shown. -/
def World.complaints (threshold : Int) (w : World) : List Text :=
  w.journal.filterMap (Event.complaint? threshold)

/-- No line on standard error has control characters. -/
def World.IsTidy (threshold : Int) (w : World) : Prop :=
  ∀ line ∈ w.complaints threshold, line.IsClean

theorem World.isTidy_iff {w : World} : w.IsTidy t ↔ ∀ e ∈ w.journal, e.IsClean t := by
  rw [IsTidy, complaints, List.forall_mem_filterMap]
  exact forall₂_congr fun e _ => by simp [Event.IsClean]

theorem World.isTidy_after_tell {w : World} {e : Event} :
    (w.after (tell e)).IsTidy t ↔ w.IsTidy t ∧ e.IsClean t := by
  rw [isTidy_iff, isTidy_iff]
  show (∀ e' ∈ w.journal ++ [e], e'.IsClean t) ↔ _
  rw [List.forall_mem_append, List.forall_mem_singleton]

end Events

/-! ### Operations that tell nothing but clean messages -/

namespace StoreM

variable {α β : Type} {t : Int}

/-- Whatever the operation tells has no control characters, if it is shown on standard error. -/
abbrev TellsCleanly (t : Int) (x : StoreM α) : Prop := x.Preserves (World.IsTidy t)

theorem IsQuiet.tellsCleanly {x : StoreM α} (hx : x.IsQuiet) : x.TellsCleanly t := by
  intro w
  rw [World.IsTidy, World.complaints, hx.preserves_journal w]
  rfl

theorem tellsCleanly_tell {e : Event} (h : e.IsClean t) : (tell e).TellsCleanly t :=
  fun _ => propext (World.isTidy_after_tell.trans (and_iff_left h))

theorem tellsCleanly_log (severity : Severity) {message : Text} (h : message.IsClean) :
    (log severity message).TellsCleanly t :=
  tellsCleanly_tell (Event.isClean_logged.2 fun _ => h)

theorem tellsCleanly_print (line : Text) : (print line).TellsCleanly t := by
  rw [print]
  split
  · exact .throw _
  · exact tellsCleanly_tell fun _ h => by cases h

end StoreM

/-! ### The stores -/

section Stores

variable {t : Int} {l : Layout}

namespace SessionStore

variable {s : SessionStore}

theorem tellsCleanly_openForRead (hr : s.layout.root.toText.IsClean) (name : ProfileName) :
    (s.openForRead name).TellsCleanly t := by
  refine .lift_bind fun path hpath => .onRefusal ?_ fun r => ?_
  · exact .bind (Disk.isQuiet_ask _ _).tellsCleanly fun _ => .pure _
  have hclean := Layout.isClean_session hr hpath
  rw [unreadable]
  split
  · refine .bind (tellsCleanly_log _ ?_) fun _ => .pure _
    simp only [Text.isClean_append]
    exact ⟨⟨⟨by decide, name.isClean_quoted⟩, by decide⟩, hclean⟩
  · refine .bind (tellsCleanly_log _ ?_) fun _ => .pure _
    simp only [Text.isClean_append]
    exact ⟨⟨⟨by decide, hclean⟩, by decide⟩, r.isClean_message⟩

theorem tellsCleanly_openForWrite (hr : s.layout.root.toText.IsClean) (name : ProfileName) :
    (s.openForWrite name).TellsCleanly t := by
  refine .lift_bind fun path hpath => .bind (IsQuiet.tellsCleanly ?_) fun handle =>
    .bind (tellsCleanly_log _ ?_) fun _ => .pure _
  · exact .onRefusal (.bind (Layout.isQuiet_ensureSessions _) fun _ => Disk.isQuiet_change _ _)
      fun _ => .throw _
  · simp only [Text.isClean_append]
    exact ⟨⟨⟨by decide, name.isClean_quoted⟩, by decide⟩, Layout.isClean_session hr hpath⟩

theorem tellsCleanly_save (hr : s.layout.root.toText.IsClean) (name : ProfileName)
    (entries : List (Text × SettingValue)) : (s.save name entries).TellsCleanly t :=
  .bind (tellsCleanly_openForWrite hr name) fun sw => (sw.isQuiet_writeAll entries).tellsCleanly

theorem tellsCleanly_delete (hr : s.layout.root.toText.IsClean) (name : ProfileName) :
    (s.delete name).TellsCleanly t := by
  refine .lift_bind fun path hpath => .onRefusal ?_ fun r => ?_
  · refine .bind (Disk.isQuiet_change _ _).tellsCleanly fun _ => tellsCleanly_log _ ?_
    simp only [Text.isClean_append]
    exact ⟨⟨⟨⟨by decide, name.isClean_quoted⟩, by decide⟩, Layout.isClean_session hr hpath⟩,
      by decide⟩
  · split
    · exact .pure _
    · exact .throw _

end SessionStore

theorem Seed.tellsCleanly_read (hr : l.root.toText.IsClean) (size : Int) :
    (read l size).TellsCleanly t := by
  refine .bind (.onRefusal ?_ fun r => ?_) fun content? => ?_
  · exact IsQuiet.tellsCleanly (.bind (Disk.isQuiet_ask _ _) fun _ => .pure _)
  · split
    · refine .bind (tellsCleanly_log _ ?_) fun _ => .pure _
      simp only [Text.isClean_append]
      exact ⟨⟨⟨by decide, Layout.isClean_seed hr⟩, by decide⟩, r.isClean_message⟩
    · exact .pure _
  · split
    · exact .pure _
    · exact .lift _

namespace TrustFile

theorem tellsCleanly_lines? (hr : l.root.toText.IsClean) : (lines? l).TellsCleanly t := by
  refine .onRefusal (.bind (Disk.isQuiet_ask _ _).tellsCleanly fun _ => .pure _) fun r => ?_
  rw [unreadable]
  split
  · refine .bind (tellsCleanly_log _ ?_) fun _ => .pure _
    simp only [Text.isClean_append]
    exact ⟨⟨⟨by decide, Layout.isClean_hostKeys hr⟩, by decide⟩, r.isClean_message⟩
  · exact .pure _

/-! ### The trust file -/

variable {w : World}

theorem isClean_differs {identity : Text} : (differs identity).IsClean ↔ identity.IsClean := by
  have hfront : Text.IsClean "Host key for " := by decide
  have hback : Text.IsClean " does not match the stored key" := by decide
  rw [differs, Text.isClean_append, Text.isClean_append]
  exact ⟨fun h => h.1.2, fun h => ⟨⟨hfront, h⟩, hback⟩⟩

/-- **A check tells the identity of the key as it is** exactly if another key is recorded. -/
theorem isTidy_after_check (hr : l.root.toText.IsClean)
    (ht : Logging.passes t .warning = true) (identity : Except Failure Text)
    (agrees : Text → Bool) :
    (w.after (check l identity agrees)).IsTidy t ↔ w.IsTidy t ∧
      (w.outcome (check l identity agrees) = .ok .different →
        ∃ text, identity = .ok text ∧ text.IsClean) := by
  have hlines : (w.after (lines? l)).IsTidy t = w.IsTidy t := tellsCleanly_lines? hr w
  rw [← hlines]
  rcases ok_or_error (lines? l) w with ⟨lines, hl⟩ | ⟨f, hl⟩
  case inr =>
    have hc : check l identity agrees w = .error f _ := bind_of_error hl _
    rw [World.after_of_error hc, World.outcome_of_error hc]
    simp
  cases lines with
  | none =>
    have hc : check l identity agrees w = .ok .absent _ := bind_of_ok hl _
    rw [World.after_of_ok hc, World.outcome_of_ok hc]
    simp
  | some lines =>
    cases hi : identity with
    | error f =>
      have hc : check l (.error f) agrees w = .error f _ := bind_of_ok hl _
      rw [World.after_of_error hc, World.outcome_of_error hc]
      simp
    | ok text =>
      generalize w.after (lines? l) = u at hl
      have hc : check l (.ok text) agrees w = _ :=
        (bind_of_ok hl _).trans (bind_lift_of_ok rfl _ u)
      by_cases hv : HostKey.firstVerdict (text ++ [.ofChar ' ']) agrees lines = .different
      · rw [if_pos hv, hv] at hc
        rw [World.after_congr hc, World.outcome_congr hc]
        have htold : (u.after (log .warning (differs text))).IsTidy t ↔
            u.IsTidy t ∧ text.IsClean := by
          rw [log, World.isTidy_after_tell, Event.isClean_logged, ht, isClean_differs]
          simp
        refine htold.trans (and_congr_right fun _ => ⟨fun h _ => ⟨text, rfl, h⟩, fun h => ?_⟩)
        obtain ⟨_, he, hclean⟩ := h rfl
        exact Except.ok.inj he ▸ hclean
      · rw [if_neg hv] at hc
        rw [World.after_congr hc, World.outcome_congr hc]
        exact (and_iff_left fun he => absurd (Except.ok.inj he) hv).symm

/-- Another key is recorded only for an identity that can be written. -/
theorem exists_identity_of_check {identity : Except Failure Text} {agrees : Text → Bool}
    {u : World} (h : check l identity agrees w = .ok .different u) :
    ∃ text, identity = .ok text := by
  obtain ⟨lines?, v, -, h⟩ := exists_of_bind_ok h
  cases lines? with
  | none => cases h
  | some lines =>
    obtain ⟨text, _, hi, -⟩ := exists_of_bind_ok h
    exact ⟨text, (of_lift_ok hi).1⟩

theorem isClean_recorded {k : HostKey} :
    (recorded k (Decimal.numeral k.port)).IsClean ↔ k.keytype.IsClean ∧ k.hostname.IsClean := by
  have hstored : Text.IsClean "Stored " := by decide
  have hfor : Text.IsClean " host key for " := by decide
  have hport : Text.IsClean (.ofChar ':' :: Decimal.numeral k.port) :=
    Text.isClean_cons.2 ⟨by decide, Decimal.isClean_numeral k.port⟩
  simp only [recorded, Text.isClean_append, hstored, hfor, hport, true_and, and_true]

theorem isTidy_after_addLine {k : HostKey} (hk : k.port.natAbs < 10 ^ Decimal.maxDigits)
    (handle : Handle) (line : Text) :
    (w.after (addLine k handle line)).IsTidy t ↔ w.IsTidy t ∧
      (w.outcome (addLine k handle line) = .ok () → Logging.passes t .info = true →
        k.keytype.IsClean ∧ k.hostname.IsClean) := by
  rw [addLine]
  cases Utf8.encode? line with
  | none => exact (and_iff_left fun h => by cases h).symm
  | some bytes =>
    have hreport : report k = log .info (recorded k (Decimal.numeral k.port)) := by
      rw [report, Decimal.render_of_lt hk]
      rfl
    have hadd : (Disk.append handle bytes >>= fun _ => report k) w =
        log .info (recorded k (Decimal.numeral k.port))
          { w with tree := w.tree.append handle bytes } := by
      rw [hreport]
      rfl
    rw [World.after_congr hadd, World.outcome_congr hadd, log, World.isTidy_after_tell,
      Event.isClean_logged, isClean_recorded]
    exact and_congr_right fun _ => ⟨fun h _ => h, fun h => h rfl⟩

/-- **Recording a key tells its type and the name of the host as they are**, if it ends well and
such messages are shown. -/
theorem isTidy_after_record (k : HostKey) :
    (w.after (record l k)).IsTidy t ↔ w.IsTidy t ∧
      (w.outcome (record l k) = .ok () → Logging.passes t .info = true →
        k.keytype.IsClean ∧ k.hostname.IsClean) := by
  let opening : StoreM Handle := (openAtEnd l).onRefusal fun r =>
    throw (.store .recordHostKey l.hostKeys r)
  have hopening : (w.after opening).IsTidy t = w.IsTidy t :=
    (IsQuiet.onRefusal (isQuiet_openAtEnd l) fun _ => .throw _).tellsCleanly w
  rw [← hopening]
  rcases ok_or_error opening w with ⟨handle, ho⟩ | ⟨f, ho⟩
  case inr =>
    have hc : record l k w = .error f _ := bind_of_error ho _
    rw [World.after_of_error hc, World.outcome_of_error hc]
    simp
  cases hline : k.line with
  | error f =>
    have hc : record l k w = .error f (w.after opening) := by
      rw [record_eq, bind_of_ok ho, bind_of_error (lift_of_error hline _)]
    rw [World.after_of_error hc, World.outcome_of_error hc]
    simp
  | ok line =>
    have hc : record l k w = addLine k handle line (w.after opening) := by
      rw [record_eq, bind_of_ok ho, bind_lift_of_ok hline]
    rw [World.after_congr hc, World.outcome_congr hc]
    exact isTidy_after_addLine (HostKey.line_eq_ok_iff.1 hline).1 handle line

end TrustFile

end Stores

/-! ### Commands -/

namespace Command

/-- The key that a command names on standard error just as it was given: one that differs from what
is recorded, or one that has been added, if messages about that are shown. -/
def named? (threshold : Int) (status : Nat) : Command → Option HostKey
  | checkHostKey a =>
    if status = HostKey.Verdict.different.status then a.hostKey.toOption else none
  | addHostKey a =>
    if status = 0 ∧ Logging.passes threshold .info = true then a.hostKey.toOption else none
  | _ => none

/-- The status of a complaint about a file is not one of those with which a command names a key. -/
theorem named?_one (threshold : Int) (c : Command) : c.named? threshold 1 = none := by
  cases c <;> simp [named?, HostKey.Verdict.status]

section Run

variable {t : Int} {s : SessionStore} {c : Command} {w : World}

theorem tellsCleanly_forM_printFound {ι : Type} (found : ι → Except Failure (Option Text))
    (as : List ι) : (as.forM fun a => StoreM.printFound (found a)).TellsCleanly t := by
  refine .forM fun a _ => .bind (.lift _) fun line? => ?_
  cases line? with
  | none => exact .pure _
  | some line => exact tellsCleanly_print line

/-- **Commands that are not about one host key tell nothing but clean messages.** -/
theorem tellsCleanly_run (hs : s.resources.default? = none)
    (hr : s.layout.root.toText.IsClean) (hc : c.hostKeyArguments? = none) :
    (c.run s).TellsCleanly t := by
  cases c with
  | list =>
    exact .bind s.isQuiet_list.tellsCleanly fun _ =>
      .bind (.forM fun _ _ => tellsCleanly_print _) fun _ => .pure _
  | «show» name keys =>
    refine .bind (SessionStore.tellsCleanly_openForRead hr _) fun record => ?_
    split
    · refine .bind (tellsCleanly_tell (Event.isClean_complained.2 ?_)) fun _ => .pure _
      exact Text.isClean_append.2 ⟨by decide, Text.isClean_sanitized name⟩
    · refine .bind ?_ fun _ => .pure _
      rw [printSettings_eq hs]
      exact tellsCleanly_forM_printFound _ _
  | set name pairs =>
    rw [run]
    split
    · refine .bind (tellsCleanly_tell (Event.isClean_complained.2 ?_)) fun _ => .pure _
      exact Text.isClean_append.2 ⟨by decide, Text.isClean_quoted _⟩
    · exact .bind (SessionStore.tellsCleanly_save hr _ _) fun _ => .pure _
  | delete name => exact .bind (SessionStore.tellsCleanly_delete hr _) fun _ => .pure _
  | listHostKeys =>
    refine .bind (TrustFile.tellsCleanly_lines? hr) fun lines? => ?_
    rw [printHostKeys_eq]
    exact .bind (tellsCleanly_forM_printFound _ _) fun _ => .pure _
  | seedSize =>
    exact .bind (Seed.tellsCleanly_read hr _) fun _ => .bind (tellsCleanly_print _) fun _ => .pure _
  | checkHostKey a => contradiction
  | addHostKey a => contradiction

theorem isTidy_after_checkHostKey (hr : s.layout.root.toText.IsClean)
    (ht : Logging.passes t .warning = true) (a : HostKeyArguments) :
    (w.after ((checkHostKey a).run s)).IsTidy t ↔ w.IsTidy t ∧
      ∀ status, w.outcome ((checkHostKey a).run s) = .ok status →
        ∀ k ∈ (checkHostKey a).named? t status, k.keytype.IsClean ∧ k.hostname.IsClean := by
  let checking := TrustFile.check s.layout a.identity fun keydata => some keydata = a.keydata
  have hchecking : (w.after checking).IsTidy t ↔ w.IsTidy t ∧
      (w.outcome checking = .ok .different → ∃ text, a.identity = .ok text ∧ text.IsClean) :=
    TrustFile.isTidy_after_check hr ht _ _
  rcases ok_or_error checking w with ⟨verdict, hv⟩ | ⟨f, hv⟩
  case inr =>
    have hrun : (checkHostKey a).run s w = .error f (w.after checking) := bind_of_error hv _
    rw [World.outcome_of_error hv] at hchecking
    rw [World.after_of_error hrun, World.outcome_of_error hrun, hchecking]
    simp
  have hprint := print_eq verdict.hasSurrogate_word (w.after checking)
  have hrun : (checkHostKey a).run s w = .ok verdict.status _ :=
    (bind_of_ok hv _).trans (bind_of_ok hprint _)
  have htidy :
      ((w.after checking).print [verdict.word]).IsTidy t = (w.after checking).IsTidy t := by
    rw [← tellsCleanly_print verdict.word (w.after checking), World.after_of_ok hprint]
  rw [World.outcome_of_ok hv] at hchecking
  rw [World.after_of_ok hrun, World.outcome_of_ok hrun, htidy, hchecking]
  refine and_congr_right fun _ => ?_
  cases verdict with
  | same => simp [named?, HostKey.Verdict.status]
  | absent => simp [named?, HostKey.Verdict.status]
  | different =>
    obtain ⟨text, htext⟩ := TrustFile.exists_identity_of_check hv
    cases hk : a.hostKey with
    | error f =>
      rw [HostKeyArguments.identity, hk] at htext
      cases htext
    | ok k =>
      have hidentity := (HostKeyArguments.identity_of_hostKey hk).symm.trans htext
      have hclean := HostKey.isClean_identity hidentity
      simp [named?, htext, hk, hclean, Except.toOption]

theorem isTidy_after_addHostKey (a : HostKeyArguments) :
    (w.after ((addHostKey a).run s)).IsTidy t ↔ w.IsTidy t ∧
      ∀ status, w.outcome ((addHostKey a).run s) = .ok status →
        ∀ k ∈ (addHostKey a).named? t status, k.keytype.IsClean ∧ k.hostname.IsClean := by
  cases hk : a.hostKey with
  | error f =>
    have hrun : (addHostKey a).run s w = .error f w := bind_of_error (lift_of_error hk w) _
    rw [World.after_of_error hrun, World.outcome_of_error hrun]
    simp
  | ok k =>
    have hrecord := TrustFile.isTidy_after_record (t := t) (l := s.layout) (w := w) k
    have hrun : (addHostKey a).run s w =
        (TrustFile.record s.layout k >>= fun _ => pure 0) w := bind_lift_of_ok hk _ w
    rw [World.after_congr hrun, World.outcome_congr hrun]
    rcases ok_or_error (TrustFile.record s.layout k) w with ⟨_, hv⟩ | ⟨f, hv⟩
    · have hdone := bind_of_ok hv fun _ => (pure 0 : StoreM Nat)
      rw [World.outcome_of_ok hv] at hrecord
      rw [World.after_congr hdone, World.outcome_congr hdone]
      refine hrecord.trans (and_congr_right fun _ => ?_)
      have hzero :
          (w.after (TrustFile.record s.layout k)).outcome (pure 0 : StoreM Nat) = .ok 0 := rfl
      rw [hzero]
      cases hp : Logging.passes t .info <;> simp [named?, hp, hk, Except.toOption]
    · have hdone := bind_of_error hv fun _ => (pure 0 : StoreM Nat)
      rw [World.outcome_of_error hv] at hrecord
      rw [World.after_of_error hdone, World.outcome_of_error hdone, hrecord]
      simp

/-- **What a command does to standard error.** Every line stays clean, but for the one in which the
command names a key. -/
theorem isTidy_after_run (hs : s.resources.default? = none)
    (hr : s.layout.root.toText.IsClean) (ht : Logging.passes t .warning = true) :
    (w.after (c.run s)).IsTidy t ↔ w.IsTidy t ∧
      ∀ status, w.outcome (c.run s) = .ok status → ∀ k ∈ c.named? t status,
        k.keytype.IsClean ∧ k.hostname.IsClean := by
  cases hc : c.hostKeyArguments? with
  | none =>
    have hnamed (status : Nat) : c.named? t status = none := by
      cases c with
      | checkHostKey a => contradiction
      | addHostKey a => contradiction
      | _ => rfl
    rw [tellsCleanly_run hs hr hc w]
    exact (and_iff_left fun status _ k hk => by simp [hnamed status] at hk).symm
  | some a =>
    cases c with
    | checkHostKey a => exact isTidy_after_checkHostKey hr ht a
    | addHostKey a => exact isTidy_after_addHostKey a
    | _ => contradiction

end Run

/-! ### What a command fails for -/

theorem concernsFiles_of_chunksOf {size : Int} {content : Bytes} {f : Failure}
    (h : Seed.chunksOf size content = .error f) : f.concernsFiles = false := by
  rw [Seed.chunksOf] at h
  repeat' split at h
  all_goals first
    | contradiction
    | exact (Except.error.inj h) ▸ rfl

theorem refuses_seedSize (s : SessionStore) : (seedSize.run s).Refuses := by
  have hread : (Seed.read s.layout Seed.chunkSize).Refuses := by
    refine .bind (Refuses.onRefusal (.bind (Disk.refuses_ask _ _) fun _ => .pure _) fun r => ?_)
      fun content? => ?_
    · split
      · exact .bind (refuses_tell _) fun _ => .pure _
      · exact .pure _
    · split
      · exact .pure _
      · exact refuses_lift fun _ => concernsFiles_of_chunksOf
  exact .bind hread fun _ => .bind (refuses_print _) fun _ => .pure _

/-- **The path that a command fails for is clean.** -/
theorem isClean_of_run_eq_error {s : SessionStore} {c : Command} {w u : World} {purpose : Purpose}
    {path : FilePath} {r : Refusal} (hs : s.resources.default? = none)
    (hr : s.layout.root.toText.IsClean) (h : c.run s w = .error (.store purpose path r) u) :
    path.toText.IsClean := by
  have hnot {c : Command} (hc : (c.run s).Refuses)
      (h : c.run s w = .error (.store purpose path r) u) : path.toText.IsClean := by
    obtain ⟨_, he⟩ := hc _ _ _ h rfl
    contradiction
  cases c with
  | set name pairs =>
    cases hfind : pairs.find? fun arg => (pair? arg).isNone with
    | some arg =>
      rw [run, hfind] at h
      contradiction
    | none =>
      rw [run, hfind] at h
      rcases bind_error_cases h with h | ⟨_, _, -, h⟩
      case inr => contradiction
      rcases bind_error_cases h with h | ⟨sw, v, -, h⟩
      · obtain ⟨path, r, hpath, he⟩ := SessionStore.exists_of_openForWrite h rfl
        injection he with _ he
        rw [he]
        exact Layout.isClean_session hr hpath
      · have hf := SessionWriter.failsWith_writeAll _ _ _ _ _ h
        contradiction
  | delete name =>
    rcases bind_error_cases h with h | ⟨_, _, -, h⟩
    case inr => contradiction
    obtain ⟨path, r, hpath, he⟩ := (SessionStore.eq_of_delete h).2 rfl
    injection he with _ he
    rw [he]
    exact Layout.isClean_session hr hpath
  | addHostKey a =>
    rcases lift_bind_error_cases h with ⟨he, -⟩ | ⟨k, -, h⟩
    · have hf := HostKeyArguments.eq_of_hostKey_eq_error he
      contradiction
    rcases bind_error_cases h with h | ⟨_, _, -, h⟩
    case inr => contradiction
    obtain ⟨r, he⟩ := TrustFile.reports_record _ _ _ _ _ h rfl
    injection he with _ he
    rw [he]
    exact Layout.isClean_hostKeys hr
  | seedSize => exact hnot (refuses_seedSize s) h
  | list => exact hnot (refuses_run hs rfl) h
  | «show» name keys => exact hnot (refuses_run hs rfl) h
  | listHostKeys => exact hnot (refuses_run hs rfl) h
  | checkHostKey a => exact hnot (refuses_run hs rfl) h

end Command

/-! ### Runs of the program -/

namespace Invocation

theorem passes_warning (i : Invocation) : Logging.passes i.threshold .warning = true := by
  rw [threshold]
  by_cases h0 : i.verbosity = 0
  · rw [if_pos h0]
    decide
  · rw [if_neg h0]
    by_cases h1 : i.verbosity = 1
    · rw [if_pos h1]
      decide
    · rw [if_neg h1]
      decide

/-- A complaint about a file names its path. -/
theorem isClean_complaint (purpose : Purpose) {path : FilePath} (r : Refusal)
    (hpath : path.toText.IsClean) :
    (complaintFront ++ (Failure.store purpose path r).message).IsClean := by
  have hpurpose : purpose.complaint.IsClean := by cases purpose <;> decide
  simp only [Failure.message, Text.isClean_append]
  exact ⟨by decide, ⟨⟨hpurpose, hpath⟩, by decide⟩, r.isClean_message⟩

/-- The warnings about resource strings quote them. -/
theorem isTidy_start (i : Invocation) (t : Int) (w : World) : (i.start w).IsTidy t := by
  rw [World.isTidy_iff]
  intro e he
  obtain ⟨string, -, rfl⟩ := List.mem_map.1 he
  refine Event.isClean_logged.2 fun _ => ?_
  simp only [Resource.complaint, Text.isClean_append]
  exact ⟨⟨by decide, Text.isClean_quoted string⟩, by decide⟩

end Invocation

/-- **When every line on standard error is clean.** Unless the command names a host key of which the
type or the host has control characters, there are none, whatever is given or stored. -/
theorem forall_isClean_complaints_iff {env : Environment} {args : List Text} {i : Invocation}
    {w : World} (hi : Invocation.parse args = .ok i)
    (hr : ∀ l, i.layout env = .ok l → l.root.toText.IsClean) :
    (∀ line ∈ (execute env args w).1.complaints, line.IsClean) ↔
      ∀ status, (execute env args w).1.ending = .exit status →
        ∀ k ∈ i.command.named? i.threshold status, k.keytype.IsClean ∧ k.hostname.IsClean := by
  rw [execute_of_parse hi]
  rcases Invocation.execute_cases env i w with ⟨f, -, he⟩ | ⟨l, -, -, he⟩ | ⟨l, hl, hres, he⟩
  · rw [he]
    simp
  · rw [he, Invocation.conclude_of_forall_ne (by simp)]
    exact iff_of_true (i.isTidy_start i.threshold w) (by simp [Report.ofEvents])
  rw [he]
  have hroot : (i.store l).layout.root.toText.IsClean := hr l hl
  have hrun := Command.isTidy_after_run (c := i.command) (w := i.start w) rfl hroot i.passes_warning
  rw [and_iff_right (i.isTidy_start i.threshold w)] at hrun
  cases hc : i.command.run (i.store l) (i.start w) with
  | ok status u =>
    rw [World.after_of_ok hc, World.outcome_of_ok hc] at hrun
    refine hrun.trans (forall_congr' fun status' => imp_congr ⟨fun h => ?_, fun h => ?_⟩ Iff.rfl)
    · exact congrArg Ending.exit (Except.ok.inj h)
    · injection h with h
      exact congrArg Except.ok h
  | error f u =>
    rw [World.after_of_error hc, World.outcome_of_error hc] at hrun
    have htidy : u.IsTidy i.threshold := hrun.2 fun _ h => by cases h
    by_cases hf : ∃ purpose path r, f = .store purpose path r
    · obtain ⟨purpose, path, r, rfl⟩ := hf
      have hcomplaint := Invocation.isClean_complaint purpose r
        (Command.isClean_of_run_eq_error rfl hroot hc)
      have htold := World.isTidy_after_tell.2 ⟨htidy, Event.isClean_complained.2 hcomplaint⟩
      refine iff_of_true htold fun status h k hk => ?_
      injection h with h
      rw [← h, Command.named?_one] at hk
      contradiction
    · have hne : ∀ purpose path r, f ≠ .store purpose path r := fun purpose path r he =>
        hf ⟨purpose, path, r, he⟩
      rw [Invocation.conclude_of_forall_ne hne]
      exact iff_of_true htidy fun _ h => by cases h

/-- The arguments for a question about the key of a host with a carriage return in its name. -/
def carriageQuestion (keydata : Text) : List Text :=
  ["--root", "store", "hostkey-check", "a\rb", "22", "ssh-rsa", keydata]

/-- The world in which the key of that host was added. -/
def carriageWorld : World :=
  (execute ⟨"/home", none⟩
    ["--root", "store", "hostkey-add", "a\rb", "22", "ssh-rsa", "AAAA"] .bare).2

/-- The carriage return is on standard error if another key is offered, and only then. -/
theorem isClean_complaints_carriageWorld :
    (¬ ∀ line ∈ (execute ⟨"/home", none⟩ (carriageQuestion "BBBB") carriageWorld).1.complaints,
      line.IsClean) ∧
    ∀ line ∈ (execute ⟨"/home", none⟩ (carriageQuestion "AAAA") carriageWorld).1.complaints,
      line.IsClean := by
  let question (keydata : Text) : Invocation := ⟨some (some "store"), [], 0,
    .checkHostKey ⟨some "a\rb", some 22, some "ssh-rsa", some keydata⟩⟩
  have hother : Invocation.parse (carriageQuestion "BBBB") = .ok (question "BBBB") := rfl
  have hsame : Invocation.parse (carriageQuestion "AAAA") = .ok (question "AAAA") := rfl
  have hroot (l : Layout) (hl : Layout.ofRoot ⟨"/home", none⟩ (some "store") = .ok l) :
      l.root.toText.IsClean := by
    obtain rfl : Layout.sample = l := Except.ok.inj hl
    decide
  rw [forall_isClean_complaints_iff hother hroot, forall_isClean_complaints_iff hsame hroot]
  constructor
  · intro h
    have hends : (execute ⟨"/home", none⟩ (carriageQuestion "BBBB") carriageWorld).1.ending =
        .exit 2 := by decide +kernel
    have hclean := (h 2 hends ⟨"ssh-rsa", 22, "a\rb", "BBBB"⟩ rfl).2
    exact absurd hclean (by decide)
  · intro status h k hk
    have hends : (execute ⟨"/home", none⟩ (carriageQuestion "AAAA") carriageWorld).1.ending =
        .exit 0 := by decide +kernel
    injection hends.symm.trans h with hstatus
    have hnone : (question "AAAA").command.named? (question "AAAA").threshold 0 = none := rfl
    rw [← hstatus, hnone] at hk
    cases hk

/-- The warning about the other key moves the cursor. -/
theorem complaints_carriageWorld :
    (execute ⟨"/home", none⟩ (carriageQuestion "BBBB") carriageWorld).1.complaints =
      [("[WARNING] Host key for ssh-rsa@22:a\rb does not match the stored key" : Text)] := by
  decide +kernel

end ClientStore
