import ClientStore.Proofs.Additions
import ClientStore.Proofs.HostKey.Store
import ClientStore.Proofs.Session.Store

/-!
# What a failed operation leaves

An operation that is to change the files may be refused at several points: when it opens its file,
when it makes directories, and when it opens the file again. Wherever that happens, nothing that
was there has changed, and all that is new are directories that were needed. A trust file that was
opened stays there, empty, if the key turns out to have no line.

Whatever the file tree refuses is reported under the path of the file that was needed.

## Main definitions

* `Failure.concernsFiles` — the failures that come from the file tree.
* `StoreM.FailsWith` — what an operation can fail with.
* `SessionStore.Change` — the operations that are to change the files.

## Main results

* `Disk.refuses_ensureDirectory` and others — directories and files are refused without a report.
* `SessionStore.Change.adds_of_error` — what a failed operation leaves, and what it reports.
-/

namespace ClientStore

variable {α β : Type}

/-- Whether a failure tells that the file tree refused something. -/
def Failure.concernsFiles : Failure → Bool
  | refused _ | store .. => true
  | _ => false

theorem FilePath.concernsFiles_of_bytes {p : FilePath} {e : Failure} (h : p.bytes = .error e) :
    e.concernsFiles = false := by
  rcases eq_of_bytes_eq_error h with rfl | rfl <;> rfl

namespace StoreM

/-! ### What an operation can fail with -/

/-- If the operation fails, the failure satisfies `P`. -/
def FailsWith (P : Failure → Prop) (x : StoreM α) : Prop :=
  ∀ w f w', x w = .error f w' → P f

namespace FailsWith

variable {P Q : Failure → Prop}

theorem pure (a : α) : FailsWith P (Pure.pure a : StoreM α) := fun _ _ _ h => nomatch h

theorem throw {e : Failure} (h : P e) : FailsWith P (MonadExcept.throw e : StoreM α) := by
  intro w f w' hf
  injection hf with he
  exact he ▸ h

theorem bind {x : StoreM α} {g : α → StoreM β} (hx : x.FailsWith P) (hg : ∀ a, (g a).FailsWith P) :
    (x >>= g).FailsWith P := by
  intro w f w' h
  rcases bind_error_cases h with h | ⟨a, u, -, h⟩
  · exact hx w f w' h
  · exact hg a u f w' h

theorem onRefusal {x : StoreM α} {handler : Refusal → StoreM α} (hx : x.FailsWith Q)
    (hQ : ∀ f, Q f → (∀ r, f ≠ .refused r) → P f) (hh : ∀ r, (handler r).FailsWith P) :
    (x.onRefusal handler).FailsWith P := by
  intro w f w' h
  rcases onRefusal_error_cases h with ⟨h, hf⟩ | ⟨r, u, -, h⟩
  · exact hQ f (hx w f w' h) hf
  · exact hh r u f w' h

theorem forM {g : α → StoreM Unit} {as : List α} (h : ∀ a ∈ as, (g a).FailsWith P) :
    (as.forM g).FailsWith P := by
  induction as with
  | nil => exact .pure ()
  | cons a as ih =>
    rw [List.forall_mem_cons] at h
    exact .bind h.1 fun _ => ih h.2

/-- After an attempt it is known what can have gone wrong. -/
theorem attempt_bind {x : StoreM α} {g : Except Failure α → StoreM β} (hx : x.FailsWith Q)
    (hok : ∀ a, (g (.ok a)).FailsWith P) (herror : ∀ f, Q f → (g (.error f)).FailsWith P) :
    (x.attempt >>= g).FailsWith P := by
  intro w f w' h
  cases hr : x w with
  | ok a u => exact hok a u f w' ((bind_of_ok (attempt_of_ok hr) g).symm.trans h)
  | error e u =>
    have ha : x.attempt w = .ok (.error e) u := by rw [attempt, hr]
    exact herror e (hx w e u hr) u f w' ((bind_of_ok ha g).symm.trans h)

end FailsWith

/-- The operation may be refused something, but it does not say what for. -/
abbrev Refuses (x : StoreM α) : Prop :=
  x.FailsWith fun f => f.concernsFiles = true → ∃ r, f = .refused r

/-- Whatever the operation is refused, it reports it under a path. -/
abbrev Reports (purpose : Purpose) (path : FilePath) (x : StoreM α) : Prop :=
  x.FailsWith fun f => f.concernsFiles = true → ∃ r, f = .store purpose path r

theorem Refuses.onRefusal {x : StoreM α} {handler : Refusal → StoreM α} (hx : x.Refuses)
    (hh : ∀ r, (handler r).Refuses) : (x.onRefusal handler).Refuses :=
  FailsWith.onRefusal hx (fun _ hf _ => hf) hh

theorem refuses_throw (r : Refusal) : (throw (.refused r) : StoreM α).Refuses :=
  .throw fun _ => ⟨r, rfl⟩

/-- A failure that does not concern files is no refusal that should be reported. -/
theorem refuses_throw_of_eq_false {f : Failure} (h : f.concernsFiles = false) :
    (throw f : StoreM α).Refuses :=
  .throw fun hc => absurd (h.symm.trans hc) Bool.false_ne_true

theorem refuses_lift {e : Except Failure α} (h : ∀ f, e = .error f → f.concernsFiles = false) :
    (liftM e : StoreM α).Refuses := by
  cases e with
  | ok a => exact .pure a
  | error f => exact refuses_throw_of_eq_false (h f rfl)

theorem refuses_tell (e : Event) : (tell e).Refuses := fun _ _ _ h => nomatch h

/-- **A refusal is reported** where it is known what for. -/
theorem reports_forPurpose {x : StoreM α} (hx : x.Refuses) (purpose : Purpose) (path : FilePath) :
    (x.forPurpose purpose path).Reports purpose path := by
  refine FailsWith.onRefusal hx (fun f hf hne hc => ?_) fun r => .throw fun _ => ⟨r, rfl⟩
  obtain ⟨r, rfl⟩ := hf hc
  exact absurd rfl (hne r)

/-- A report does nothing to the world. -/
theorem exists_of_forPurpose_error {x : StoreM α} {purpose : Purpose} {path : FilePath}
    {w w' : World} {f : Failure} (h : x.forPurpose purpose path w = .error f w') :
    ∃ e, x w = .error e w' := by
  rcases onRefusal_error_cases h with ⟨h, -⟩ | ⟨r, u, h, ht⟩
  · exact ⟨f, h⟩
  · injection ht with _ hu
    exact ⟨_, hu ▸ h⟩

end StoreM

open StoreM

namespace Disk

theorem refuses_ask (p : FilePath) (f : FileTree → Nat → Bytes → Except Fault α) :
    (ask p f).Refuses := by
  intro w e w' h hc
  cases hb : p.bytes with
  | error e' =>
    injection (ask_of_bytes hb).symm.trans h with he
    rw [← he, FilePath.concernsFiles_of_bytes hb] at hc
    contradiction
  | ok b =>
    have ha := (ask_eq hb).symm.trans h
    cases hf : f w.tree w.here b with
    | ok a =>
      rw [hf] at ha
      contradiction
    | error fault =>
      rw [hf] at ha
      injection ha with he
      exact ⟨_, he.symm⟩

theorem refuses_change (p : FilePath)
    (g : FileTree → Nat → Bytes → Except Fault (α × FileTree)) : (change p g).Refuses :=
  .bind (refuses_ask p g) fun _ _ _ _ h => nomatch h

theorem refuses_isDirectory (p : FilePath) : (isDirectory p).Refuses := by
  intro w e w' h hc
  cases hb : p.bytes with
  | error e' =>
    have hd : isDirectory p w = .error e' w := by
      rw [isDirectory, hb]
      rfl
    injection hd.symm.trans h with he
    rw [← he, FilePath.concernsFiles_of_bytes hb] at hc
    contradiction
  | ok b =>
    have hd := (isDirectory_eq hb).symm.trans h
    cases hl : w.tree.locate w.here .denoted b with
    | ok spot =>
      rw [hl] at hd
      contradiction
    | error fault =>
      rw [hl] at hd
      dsimp only at hd
      split at hd
      · contradiction
      · injection hd with he
        exact ⟨_, he.symm⟩

theorem refuses_unlessDirectory (p : FilePath) (r : Refusal) : (unlessDirectory p r).Refuses := by
  refine .bind (refuses_isDirectory p) ?_
  intro b
  cases b with
  | true => exact .pure ()
  | false => exact refuses_throw r

theorem refuses_ensureNames (anchor : Anchor) (depth : Nat) (names : List Component)
    (mode : Nat) : (ensureNames anchor depth names mode).Refuses := by
  induction depth generalizing names mode with
  | zero => exact .throw nofun
  | succ depth ih =>
    cases names with
    | nil => exact Refuses.onRefusal (refuses_change _ _) (refuses_unlessDirectory _)
    | cons name above =>
      refine Refuses.onRefusal (refuses_change _ _) ?_
      intro r
      split
      · exact .bind (ih above _) fun _ =>
          Refuses.onRefusal (refuses_change _ _) (refuses_unlessDirectory _)
      · exact refuses_unlessDirectory _ r

theorem refuses_ensureDirectory (p : FilePath) (mode : Nat) : (ensureDirectory p mode).Refuses :=
  refuses_ensureNames _ _ _ _

end Disk

open World

/-! ### The sessions -/

theorem SettingValue.LacksLine.concernsFiles {key : Text} {value : SettingValue} {f : Failure}
    (h : value.LacksLine key f) : f.concernsFiles = false := by
  cases h <;> rfl

namespace SessionWriter

/-- A file that is open takes what is written; only a setting that has no line cannot be. -/
theorem failsWith_writeAll (sw : SessionWriter) (es : List (Text × SettingValue)) :
    (sw.writeAll es).FailsWith fun f => f.concernsFiles = false := by
  have hclose (sw : SessionWriter) : sw.close.FailsWith fun f => f.concernsFiles = false := by
    rw [close]
    split
    · exact .pure _
    · exact fun _ _ _ h => by cases h
  induction es generalizing sw with
  | nil => exact .bind (hclose sw) fun _ => .pure _
  | cons e es ih =>
    refine .attempt_bind (Q := fun f => f.concernsFiles = false) ?_ ih fun f hf =>
      .bind (hclose sw) fun _ => .throw hf
    intro w f w' h
    rcases Bool.eq_false_or_eq_true sw.closed with hc | ho
    · obtain ⟨e', he, hf⟩ := write_of_closed hc e.1 e.2 w
      injection he.symm.trans h with he
      rcases hf with hf | hf <;> rw [← he, hf] <;> rfl
    · rcases e.2.line_cases e.1 with ⟨line, hl⟩ | ⟨e', hl⟩
      · rw [write_of_hasLine ho hl] at h
        cases h
      · injection (write_of_lacksLine ho hl w).symm.trans h with he
        exact he ▸ hl.concernsFiles

end SessionWriter

namespace Layout

variable {l : Layout} {w : World}

theorem refuses_ensureSessions (l : Layout) : l.ensureSessions.Refuses :=
  .bind (Disk.refuses_ensureDirectory _ _) fun _ => Disk.refuses_ensureDirectory _ _

theorem isOnWayTo_sessions (l : Layout) : l.root.IsOnWayTo l.sessions :=
  FilePath.isOnWayTo_child isComponent_sessions _

theorem adds_ensureRoot (hw : w.IsSound) (l : Layout) :
    w.AddsDirectories (w.after l.ensureRoot) l.root :=
  Disk.adds_ensureDirectory hw l.root Disk.privateDirectoryMode

/-- Making the sessions directory adds only directories, also if it fails. -/
theorem adds_ensureSessions (hw : w.IsSound) (l : Layout) :
    w.AddsDirectories (w.after l.ensureSessions) l.sessions := by
  have hroot := l.adds_ensureRoot hw
  rcases ok_or_error l.ensureRoot w with ⟨_, hr⟩ | ⟨f, hr⟩
  · rw [ensureSessions, after_congr (bind_of_ok hr _)]
    refine hroot.trans ?_ hw l.isOnWayTo_sessions
    exact Disk.adds_ensureDirectory (hroot.keeps.isSound hw) _ _
  · rw [ensureSessions, after_of_error (bind_of_error hr _)]
    exact AddsDirectories.trans hroot (.refl _ _) hw l.isOnWayTo_sessions

/-- The names of profiles that have no path have no bytes. -/
theorem eq_of_session_eq_error {name : ProfileName} {f : Failure} (h : l.session name = .error f) :
    f = .unencodable := by
  rw [session] at h
  split at h
  · exact (Except.error.inj h).symm
  · contradiction

end Layout

namespace SessionStore

variable {s : SessionStore} {name : ProfileName} {w w' : World} {f : Failure}

/-- What is refused to a profile that is to be written is reported under its path. -/
theorem exists_of_openForWrite (h : s.openForWrite name w = .error f w')
    (hc : f.concernsFiles = true) :
    ∃ path r, s.layout.session name = .ok path ∧ f = .store .createSession path r := by
  rcases lift_bind_error_cases h with ⟨he, -⟩ | ⟨path, hpath, h⟩
  · rw [Layout.eq_of_session_eq_error he] at hc
    contradiction
  rcases bind_error_cases h with h | ⟨_, _, -, h⟩
  case inr => contradiction
  have hrefuses := FailsWith.bind s.layout.refuses_ensureSessions fun _ =>
    Disk.refuses_change path (FileTree.openEmptied · · · Disk.sharedFileMode)
  obtain ⟨r, hr⟩ := reports_forPurpose hrefuses _ _ w f w' h hc
  exact ⟨path, r, hpath, hr⟩

/-- A profile that could not be opened for writing has cost nothing, or the making of its
directories. -/
theorem openForWrite_error_cases (h : s.openForWrite name w = .error f w') :
    w' = w ∨ w' = w.after s.layout.ensureSessions := by
  rcases lift_bind_error_cases h with ⟨-, rfl⟩ | ⟨path, -, h⟩
  · exact .inl rfl
  rcases bind_error_cases h with h | ⟨_, _, -, h⟩
  case inr => contradiction
  obtain ⟨e, he⟩ := exists_of_forPurpose_error h
  rcases bind_error_cases he with he | ⟨_, u, hmade, he⟩
  · exact .inr (after_of_error he).symm
  · exact .inr ((Disk.eq_of_change_eq_error he).symm.trans (after_of_ok hmade).symm)

/-- **A profile that could not be opened for writing** has cost nothing but directories. -/
theorem adds_of_openForWrite (hw : w.IsSound) (h : s.openForWrite name w = .error f w') :
    w.AddsDirectories w' s.layout.sessions := by
  rcases openForWrite_error_cases h with rfl | rfl
  · exact .refl _ _
  · exact Layout.adds_ensureSessions hw s.layout

/-- **A profile that could not be deleted** is still there. -/
theorem eq_of_delete (h : s.delete name w = .error f w') :
    w = w' ∧ (f.concernsFiles = true →
      ∃ path r, s.layout.session name = .ok path ∧ f = .store .deleteSession path r) := by
  rcases lift_bind_error_cases h with ⟨he, rfl⟩ | ⟨path, hpath, h⟩
  · obtain rfl := Layout.eq_of_session_eq_error he
    exact ⟨rfl, nofun⟩
  have hremove {e : Failure} {v : World} (he : (do
      Disk.remove path
      log .debug
        ("Deleted session " ++ name.quoted ++ (" (" : Text) ++ path.toText ++ (")" : Text))) w =
      .error e v) : Disk.remove path w = .error e v := by
    rcases bind_error_cases he with he | ⟨_, _, -, he⟩
    · exact he
    · contradiction
  rcases onRefusal_error_cases h with ⟨h, hne⟩ | ⟨r, u, h, ht⟩
  · refine ⟨Disk.eq_of_change_eq_error (hremove h), fun hc => ?_⟩
    obtain ⟨r, hr⟩ := Disk.refuses_change _ _ w f w' (hremove h) hc
    exact absurd hr (hne r)
  · split at ht
    · contradiction
    · injection ht with hf hu
      obtain rfl := Disk.eq_of_change_eq_error (hremove h)
      exact ⟨hu, fun _ => ⟨path, r, hpath, hf.symm⟩⟩

end SessionStore

/-! ### The trust file -/

namespace TrustFile

variable {l : Layout} {k : HostKey} {w w' : World} {f : Failure} {handle : Handle}

theorem refuses_openAtEnd (l : Layout) : (openAtEnd l).Refuses := by
  refine Refuses.onRefusal (Disk.refuses_change _ _) ?_
  intro r
  split
  · exact .bind (Disk.refuses_ensureDirectory _ _) fun _ => Disk.refuses_change _ _
  · exact refuses_throw r

/-- A trust file that could not be opened has cost nothing, or the making of the root. -/
theorem openAtEnd_error_cases (h : openAtEnd l w = .error f w') :
    w' = w ∨ w' = w.after l.ensureRoot := by
  rw [openAtEnd_eq] at h
  exact Layout.openOrMake_error_cases h

/-- A trust file that could not be opened has not been made. -/
theorem adds_of_openAtEnd_error (hw : w.IsSound) (h : openAtEnd l w = .error f w') :
    w.AddsDirectories w' l.root := by
  rcases openAtEnd_error_cases h with rfl | rfl
  · exact .refl _ _
  · exact l.adds_ensureRoot hw

theorem adds_of_openKept {p : FilePath} {mode : Nat} (hw : w.IsSound)
    (h : Disk.openKept p mode w = .ok handle w') : w.Adds w' (w.IsNewFile w' p) := by
  rcases Disk.openKept_ok_cases h with rfl | ⟨place, hf, rfl⟩
  · exact .refl w _
  · exact Disk.adds_create hw hf mode

/-- A trust file that could be opened is there, and so are the directories that it needed. -/
theorem adds_of_openAtEnd_ok (hw : w.IsSound) (h : openAtEnd l w = .ok handle w') :
    w.Adds w' fun place node =>
      w.IsNewDirectory w' l.root place node ∨ w.IsNewFile w' l.hostKeys place node := by
  rw [openAtEnd_eq] at h
  rcases Layout.openOrMake_ok_cases h with h | ⟨-, v, hmade, hopen⟩
  · exact (adds_of_openKept hw h).mono fun _ _ hn => .inr hn
  have hroot := l.adds_ensureRoot hw
  rw [after_of_ok hmade] at hroot
  have hv := hroot.keeps.isSound hw
  have hfile := adds_of_openKept hv hopen
  exact Adds.trans hroot hfile (fun _ _ hn => .inl (hn.later hv hfile.keeps (.refl _)))
    fun _ _ hn => .inr (hn.earlier hw hroot)

/-- A key with a line is added, unless the line has no bytes. -/
theorem eq_of_addLine_error {line : Text} (hk : k.port.natAbs < 10 ^ Decimal.maxDigits)
    (h : addLine k handle line w = .error f w') : w = w' ∧ f = .unencodable := by
  cases he : Utf8.encode? line with
  | none =>
    rw [addLine, he] at h
    injection h with hf hw
    exact ⟨hw, hf.symm⟩
  | some bytes =>
    rw [addLine, he] at h
    rcases bind_error_cases h with h | ⟨_, u, -, h⟩
    · injection h
    · rcases lift_bind_error_cases h with ⟨he, -⟩ | ⟨_, -, h⟩
      · injection (Decimal.render_of_lt hk).symm.trans he
      · injection h

/-- What is refused to a key that is to be recorded is reported under the path of the trust file. -/
theorem reports_record (l : Layout) (k : HostKey) :
    (record l k).Reports .recordHostKey l.hostKeys := by
  refine .bind (reports_forPurpose (refuses_openAtEnd l) _ _) fun handle w f w' h hc => ?_
  rcases lift_bind_error_cases h with ⟨he, -⟩ | ⟨line, hline, h⟩
  · rw [HostKey.eq_of_line_eq_error he] at hc
    exact absurd hc Bool.false_ne_true
  · rw [(eq_of_addLine_error (HostKey.line_eq_ok_iff.1 hline).1 h).2] at hc
    exact absurd hc Bool.false_ne_true

/-- A key that could not be recorded has cost what opening the trust file has, and nothing was
appended. -/
theorem record_error_cases (h : record l k w = .error f w') :
    (∃ e, openAtEnd l w = .error e w') ∨
      f.concernsFiles = false ∧ ∃ handle, openAtEnd l w = .ok handle w' := by
  rw [record_eq] at h
  rcases bind_error_cases h with h | ⟨handle, u, hopen, h⟩
  · exact .inl (exists_of_forPurpose_error h)
  obtain ⟨rfl, hf⟩ : u = w' ∧ f.concernsFiles = false := by
    rcases lift_bind_error_cases h with ⟨he, hu⟩ | ⟨line, hline, h⟩
    · exact ⟨hu, by rw [HostKey.eq_of_line_eq_error he]; rfl⟩
    · obtain ⟨hu, hf⟩ := eq_of_addLine_error (HostKey.line_eq_ok_iff.1 hline).1 h
      exact ⟨hu, by rw [hf]; rfl⟩
  exact .inr ⟨hf, handle, SessionStore.of_forPurpose_ok hopen⟩

/-- **A key that could not be recorded** has cost nothing but directories, and perhaps a trust file
without content. -/
theorem adds_of_record (hw : w.IsSound) (h : record l k w = .error f w') :
    w.Adds w' fun place node => w.IsNewDirectory w' l.root place node ∨
      f.concernsFiles = false ∧ w.IsNewFile w' l.hostKeys place node := by
  rcases record_error_cases h with ⟨e, he⟩ | ⟨hf, handle, hopen⟩
  · exact (adds_of_openAtEnd_error hw he).mono fun _ _ hn => .inl hn
  · exact (adds_of_openAtEnd_ok hw hopen).mono fun _ _ hn => hn.imp_right fun hn => ⟨hf, hn⟩

end TrustFile

/-! ### Any change -/

namespace SessionStore

/-- The operations that are to change the files. -/
inductive Change where
  | openForWrite (name : ProfileName)
  | delete (name : ProfileName)
  | record (k : HostKey)

namespace Change

/-- Does what is to be done. -/
def run (s : SessionStore) : Change → StoreM Unit
  | openForWrite name => do
    let _ ← s.openForWrite name
  | delete name => s.delete name
  | record k => TrustFile.record s.layout k

/-- The file that is to be changed. -/
def path (l : Layout) : Change → Except Failure FilePath
  | openForWrite name | delete name => l.session name
  | record _ => .ok l.hostKeys

/-- What the file is needed for. -/
def purpose : Change → Purpose
  | openForWrite _ => .createSession
  | delete _ => .deleteSession
  | record _ => .recordHostKey

/-- What may be new after the change has failed: directories on the way to the file, and an empty
trust file, if it was not the file tree that refused. -/
def MayAdd (l : Layout) (w w' : World) (f : Failure) : Change → Place → Node → Prop
  | openForWrite _, place, node => w.IsNewDirectory w' l.sessions place node
  | delete _, _, _ => False
  | record _, place, node => w.IsNewDirectory w' l.root place node ∨
      f.concernsFiles = false ∧ w.IsNewFile w' l.hostKeys place node

variable {s : SessionStore} {change : Change} {w w' : World} {f : Failure}

/-- **A change that fails leaves alone what was there.** Every path still leads to what it led to,
every node is as it was and every directory has its mode; and if it was the file tree that refused,
the failure names the file that was to be changed. -/
theorem adds_of_error (hw : w.IsSound) (h : change.run s w = .error f w') :
    (∀ aim p spot, w.Finds aim p spot → (∀ place, spot ≠ .vacant place) → w'.Finds aim p spot) ∧
    w.Adds w' (change.MayAdd s.layout w w' f) ∧
    (f.concernsFiles = true →
      ∃ path r, change.path s.layout = .ok path ∧ f = .store change.purpose path r) := by
  have hall : w.Adds w' (change.MayAdd s.layout w w' f) ∧ (f.concernsFiles = true →
      ∃ path r, change.path s.layout = .ok path ∧ f = .store change.purpose path r) := by
    cases change with
    | openForWrite name =>
      rcases bind_error_cases h with h | ⟨_, _, -, h⟩
      · exact ⟨adds_of_openForWrite hw h, exists_of_openForWrite h⟩
      · contradiction
    | delete name =>
      obtain ⟨rfl, hr⟩ := eq_of_delete h
      exact ⟨.refl w _, hr⟩
    | record k =>
      refine ⟨TrustFile.adds_of_record hw h, fun hc => ?_⟩
      obtain ⟨r, hf⟩ := TrustFile.reports_record _ k w f w' h hc
      exact ⟨_, r, rfl, hf⟩
  exact ⟨fun aim p spot hf hs => hall.1.finds hw hf hs, hall⟩

/-- The world in which a file stands where the root should be. -/
def blockedWorld : World :=
  World.bare.after (Disk.openEmptied Layout.sample.root Disk.sharedFileMode)

/-- The root cannot be made, the failure names the file of the profile, and the file in the way is
still there. -/
theorem adds_of_error_blockedWorld :
    ∃ w', (openForWrite (.text "a")).run .sample blockedWorld =
        .error (.store .createSession (Layout.sample.profile [0x61])
          ⟨.exists, some Layout.sample.root⟩) w' ∧
      w'.Holds Layout.sample.root [] := by
  have hw : blockedWorld.IsSound := FileTree.hasDirectory_root _
  have hfails : blockedWorld.outcome ((openForWrite (.text "a")).run .sample) =
      .error (.store .createSession (Layout.sample.profile [0x61])
        ⟨.exists, some Layout.sample.root⟩) := by decide +kernel
  rcases ok_or_error ((openForWrite (.text "a")).run .sample) blockedWorld with
    ⟨_, hrun⟩ | ⟨f, hrun⟩
  · rw [outcome_of_ok hrun] at hfails
    contradiction
  rw [outcome_of_error hrun] at hfails
  obtain rfl := Except.error.inj hfails
  have hfile : blockedWorld.Holds Layout.sample.root [] := rfl
  exact ⟨_, hrun, (adds_of_error hw hrun).2.1.holds hw hfile⟩

end Change

end SessionStore

end ClientStore
