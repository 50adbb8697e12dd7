import ClientStore.HostKey.Store
import ClientStore.Proofs.HostKey.Line
import ClientStore.Proofs.Layout

/-!
# What the trust file remembers

The trust file is only ever appended to. Reduced to its content, recording a key is the one step
`c` to `c ++ data`, where `data` is nothing or a line, and everything else leaves the content alone;
`contains_after_record` says so for any key and any outcome, the fresh install included, where the
file and perhaps the root come into being on the way.

Two runs of such steps are looked at. If all keys are sane and all calls succeed, then the file is a
list of keys, and its answers are those of the list. If nothing at all is asked of the keys, then
the file still ends at the end of a line at any time, so that what is recorded later cannot change
what was read before.

## Main definitions

* `TrustFile.Missing` — there is no trust file.
* `TrustFile.Contains` — the content of the trust file, as far as there is one.
* `TrustFile.Recorded`, `TrustFile.Reaches` — the two kinds of runs.

## Main results

* `TrustFile.answers_of_recorded` — the trust file answers like the list of the recorded keys.
* `TrustFile.verify_of_reaches` — an answer other than `absent` is final.
-/

namespace ClientStore.TrustFile

open FileTree

variable {l : Layout} {w w' : World} {c : Bytes}

/-! ### The content of the trust file -/

/-- The trust file cannot be read, neither as things are nor once the root has been made. -/
structure Missing (l : Layout) (w : World) : Prop where
  now : w.Lacks l.hostKeys
  made : (w.after l.ensureRoot).Lacks l.hostKeys

/-- The content of the trust file. A missing one counts as empty. -/
def Contains (l : Layout) (w : World) (c : Bytes) : Prop :=
  w.Holds l.hostKeys c ∨ c = [] ∧ Missing l w

theorem Missing.congr (h : Missing l w) (ht : w.tree = w'.tree) (hh : w.here = w'.here) :
    Missing l w' := by
  have hq : l.ensureRoot.IsQuiet := Disk.isQuiet_ensureDirectory _ _
  have ht' := hq.tree_after ht hh
  have hh' := hq.here_after ht hh
  refine ⟨Disk.lacks_iff.2 ?_, Disk.lacks_iff.2 ?_⟩
  · obtain ⟨hb, hno⟩ := Disk.lacks_iff.1 h.now
    exact ⟨hb, fun c hc => hno c ((Disk.holds_congr ht hh).2 hc)⟩
  · obtain ⟨hb, hno⟩ := Disk.lacks_iff.1 h.made
    exact ⟨hb, fun c hc => hno c ((Disk.holds_congr ht' hh').2 hc)⟩

theorem Contains.congr (h : Contains l w c) (ht : w.tree = w'.tree) (hh : w.here = w'.here) :
    Contains l w' c :=
  h.imp (Disk.holds_congr ht hh).1 fun h => ⟨h.1, h.2.congr ht hh⟩

/-- Making the root does not bring a trust file about. -/
theorem Missing.after_ensureRoot (h : Missing l w) (hw : w.IsSound) :
    Missing l (w.after l.ensureRoot) := by
  refine ⟨h.made, ?_⟩
  rw [Layout.ensureRoot, Disk.after_after_ensureDirectory hw]
  exact h.made

/-! ### Asking -/

theorem leavesFiles_lines? (l : Layout) : (lines? l).LeavesFiles := by
  refine .onRefusal (.bind (Disk.leavesFiles_read _) fun c => .pure _) ?_
  intro r
  rw [unreadable]
  split
  · exact .bind (.log _ _) fun _ => .pure _
  · exact .pure _

theorem leavesFiles_verify (l : Layout) (q : HostKey) : (verify l q).LeavesFiles := by
  refine .bind (leavesFiles_lines? l) ?_
  intro lines
  cases lines with
  | none => exact .pure _
  | some lines =>
    refine .bind (.lift _) ?_
    intro identity
    dsimp only
    split
    · exact .bind (.log _ _) fun _ => .pure _
    · exact .pure _

theorem leavesFiles_entries (l : Layout) : (entries l).LeavesFiles := by
  refine .bind (leavesFiles_lines? l) ?_
  intro lines
  cases lines with
  | none => exact .pure _
  | some lines => exact .bind (.lift _) fun _ => .pure _

/-- What `lines?` does before it looks at a refusal. -/
def readLines (l : Layout) : StoreM (Option (List Text)) := do
  return some (Utf8.decode (← Disk.read l.hostKeys)).lines

theorem unreadable_eq (path : FilePath) (r : Refusal) (w : World) :
    ∃ w', unreadable path r w = .ok none w' := by
  rw [unreadable]
  split <;> exact ⟨_, rfl⟩

theorem lines?_of_holds (h : w.Holds l.hostKeys c) :
    lines? l w = .ok (some (Utf8.decode c).lines) w := by
  have hr : readLines l w = .ok (some (Utf8.decode c).lines) w := StoreM.bind_of_ok h _
  exact StoreM.onRefusal_of_ok hr _

/-- **What looking at the trust file gives** is a matter of what it holds. -/
theorem outcome_lines? (l : Layout) (w : World) :
    w.outcome (lines? l) = l.hostKeys.bytes.map fun _ =>
      (w.content? l.hostKeys).map fun c => (Utf8.decode c).lines := by
  cases hb : l.hostKeys.bytes with
  | ok b =>
    rcases Disk.read_cases l.hostKeys w with ⟨c, hc⟩ | ⟨hno, -⟩
    · rw [World.outcome_of_ok (lines?_of_holds hc), Disk.content?_eq_some_iff.2 hc]
      rfl
    · obtain ⟨r, hr⟩ := Disk.lacks_iff.2 ⟨⟨b, hb⟩, hno⟩
      have hr : readLines l w = .error (.refused r) w := StoreM.bind_of_error hr _
      obtain ⟨w', hu⟩ := unreadable_eq l.hostKeys r w
      have hlines : lines? l w = .ok none w' := (StoreM.onRefusal_of_refused hr _).trans hu
      rw [World.outcome_of_ok hlines, Disk.content?_eq_none_iff.2 hno]
      rfl
  | error f =>
    have hread : Disk.read l.hostKeys w = .error f w := Disk.ask_of_bytes hb
    exact World.outcome_of_error (StoreM.onRefusal_of_error (StoreM.bind_of_error hread _)
      (FilePath.ne_refused_of_bytes hb) _)

/-- **The trust file can be looked at**, whatever is in it and whether there is one, exactly if the
root has bytes. -/
theorem exists_lines?_ok_iff :
    (∃ lines w', lines? l w = .ok lines w') ↔ ∃ b, l.root.bytes = .ok b := by
  simp only [← World.outcome_eq_ok_iff, outcome_lines?]
  rw [← Layout.exists_bytes_hostKeys_iff]
  cases l.hostKeys.bytes with
  | ok b => exact iff_of_true ⟨_, rfl⟩ ⟨b, rfl⟩
  | error f => exact iff_of_false (fun ⟨_, h⟩ => by cases h) (fun ⟨_, h⟩ => by cases h)

/-- The lines of the trust file are those of its content. -/
theorem lines?_of_contains (h : Contains l w c) :
    ∃ w', lines? l w = .ok (some (Utf8.decode c).lines) w' ∨ c = [] ∧ lines? l w = .ok none w' := by
  rcases h with h | ⟨rfl, hm⟩
  · exact ⟨w, .inl (lines?_of_holds h)⟩
  · obtain ⟨r, hr⟩ := hm.now
    have hr : readLines l w = .error (.refused r) w := StoreM.bind_of_error hr _
    obtain ⟨w', hu⟩ := unreadable_eq l.hostKeys r w
    exact ⟨w', .inr ⟨rfl, (StoreM.onRefusal_of_refused hr _).trans hu⟩⟩

/-- What is said about an identity when there are lines to look at. -/
theorem exists_check_eq (lines : List Text) (identity : Text) (agrees : Text → Bool) (w : World) :
    ∃ w', (do
      let verdict := HostKey.firstVerdict (identity ++ [.ofChar ' ']) agrees lines
      if verdict = .different then StoreM.log .warning (differs identity)
      return verdict : StoreM HostKey.Verdict) w =
        .ok (HostKey.firstVerdict (identity ++ [.ofChar ' ']) agrees lines) w' := by
  dsimp only
  split <;> exact ⟨_, rfl⟩

/-- The answer about a key is that of the lines. -/
theorem verify_of_contains (h : Contains l w c) {q : HostKey} {identity : Text}
    (hi : q.identity = .ok identity) :
    ∃ w', verify l q w =
      .ok (HostKey.firstVerdict (identity ++ [.ofChar ' ']) (fun t => t = q.keydata)
        (Utf8.decode c).lines) w' := by
  obtain ⟨w₁, hl | ⟨rfl, hl⟩⟩ := lines?_of_contains h
  · obtain ⟨w₂, hc⟩ := exists_check_eq (Utf8.decode c).lines identity (fun t => t = q.keydata) w₁
    exact ⟨w₂, (StoreM.bind_of_ok hl _).trans
      ((StoreM.bind_lift_of_ok hi _ w₁).trans hc)⟩
  · exact ⟨w₁, StoreM.bind_of_ok hl _⟩

/-- What is said about an identity is a matter of the lines. -/
theorem outcome_check (l : Layout) (identity : Except Failure Text) (agrees : Text → Bool)
    (w : World) :
    w.outcome (check l identity agrees) = (w.outcome (lines? l)).bind fun lines? =>
      lines?.elim (.ok .absent) fun lines => identity.map fun text =>
        HostKey.firstVerdict (text ++ [.ofChar ' ']) agrees lines := by
  refine (StoreM.outcome_bind (lines? l) _ w).trans (congrArg _ (funext fun lines? => ?_))
  cases lines? with
  | none => rfl
  | some lines =>
    refine (StoreM.outcome_bind (liftM identity) _ _).trans ?_
    rw [StoreM.outcome_lift]
    cases identity with
    | error f => rfl
    | ok text =>
      obtain ⟨w', hv⟩ := exists_check_eq lines text agrees _
      exact World.outcome_of_ok hv

/-- **The answer about any key** is a matter of what the trust file holds. -/
theorem outcome_verify_eq (l : Layout) (q : HostKey) (w : World) :
    w.outcome (verify l q) = l.hostKeys.bytes.bind fun _ =>
      (w.content? l.hostKeys).elim (.ok .absent) fun c => q.verdict (Utf8.decode c).lines := by
  rw [verify, outcome_check, outcome_lines?]
  cases l.hostKeys.bytes with
  | error f => rfl
  | ok b => cases w.content? l.hostKeys <;> rfl

/-- The answer about a key that can be written, as a value. -/
theorem outcome_verify (h : Contains l w c) {q : HostKey}
    (hq : q.port.natAbs < 10 ^ Decimal.maxDigits) :
    w.outcome (verify l q) =
      .ok (HostKey.firstVerdict q.start (fun t => t = q.keydata) (Utf8.decode c).lines) := by
  obtain ⟨w', hv⟩ := verify_of_contains h (HostKey.identity_of_lt hq)
  exact World.outcome_of_ok hv

/-- If there is a trust file, then a key that cannot be written is not asked for in vain, as it is
where the file is missing. -/
theorem outcome_verify_of_le (h : w.Holds l.hostKeys c) {q : HostKey}
    (hq : 10 ^ Decimal.maxDigits ≤ q.port.natAbs) :
    w.outcome (verify l q) = .error .tooManyDigits := by
  have hi := StoreM.lift_of_error (HostKey.identity_of_le hq) w
  exact World.outcome_of_error
    ((StoreM.bind_of_ok (lines?_of_holds h) _).trans (StoreM.bind_of_error hi _))

/-- A key of which something is recorded has an identity that can be written. -/
theorem exists_identity_of_verify (h : Contains l w c) {q : HostKey} {v : HostKey.Verdict}
    (hv : verify l q w = .ok v w') (hne : v ≠ .absent) :
    ∃ identity, q.identity = .ok identity ∧
      v = HostKey.firstVerdict (identity ++ [.ofChar ' ']) (fun t => t = q.keydata)
        (Utf8.decode c).lines := by
  cases hi : q.identity with
  | ok identity =>
    obtain ⟨w₁, hv'⟩ := verify_of_contains h hi
    refine ⟨identity, rfl, ?_⟩
    injection hv.symm.trans hv'
  | error e =>
    obtain ⟨w₁, hl | ⟨rfl, hl⟩⟩ := lines?_of_contains h
    · have hc : verify l q w = .error e w₁ :=
        (StoreM.bind_of_ok hl _).trans (StoreM.bind_of_error (StoreM.lift_of_error hi w₁) _)
      exact absurd (hv.symm.trans hc) (by simp)
    · have hc : verify l q w = .ok .absent w₁ := StoreM.bind_of_ok hl _
      obtain rfl : v = .absent := by injection hv.symm.trans hc
      exact absurd rfl hne

/-- The keys that are listed are those of the lines. -/
theorem entries_of_contains (h : Contains l w c) {ks : List (Option HostKey)}
    (hk : (Utf8.decode c).lines.mapM HostKey.ofLine = .ok ks) :
    ∃ w', entries l w = .ok (ks.filterMap id) w' := by
  obtain ⟨w₁, hl | ⟨rfl, hl⟩⟩ := lines?_of_contains h
  · exact ⟨w₁, (StoreM.bind_of_ok hl _).trans (StoreM.bind_lift_of_ok hk _ w₁)⟩
  · obtain rfl : [] = ks := Except.ok.inj hk
    exact ⟨w₁, StoreM.bind_of_ok hl _⟩

/-! ### Recording -/

theorem openAtEnd_eq (l : Layout) : openAtEnd l = l.openOrMake l.hostKeys := rfl

/-- A trust file that is there can be opened. -/
theorem openAtEnd_of_holds (hw : w.IsSound) (h : w.Holds l.hostKeys c) :
    ∃ handle, openAtEnd l w = .ok handle w ∧ w.Opens l.hostKeys handle c := by
  rcases Disk.openKept_cases hw l.hostKeys Disk.privateFileMode with ⟨handle, c', ho, hc⟩ | ⟨hno, -⟩
  · obtain rfl := Disk.holds_unique h (Disk.holds_iff.2 ⟨handle, hc⟩)
    rw [openAtEnd_eq]
    exact ⟨handle, Layout.openOrMake_of_ok ho, hc⟩
  · exact absurd h (hno c)

/-- **What becomes of opening the trust file at its end.** If it is open, then it is there and has
the content that it had; and if not, the content is also the same. -/
theorem openAtEnd_cases (hw : w.IsSound) (h : Contains l w c) :
    (∃ handle w', openAtEnd l w = .ok handle w' ∧ w'.Opens l.hostKeys handle c ∧ w'.IsSound) ∨
    ∃ f w', openAtEnd l w = .error f w' ∧ Contains l w' c ∧ w'.IsSound := by
  rcases h with h | ⟨rfl, hm⟩
  · obtain ⟨handle, ho, hc⟩ := openAtEnd_of_holds hw h
    exact .inl ⟨handle, w, ho, hc, hw⟩
  rcases Disk.openKept_cases hw l.hostKeys Disk.privateFileMode with
    ⟨handle, c', ho, hc⟩ | ⟨-, ⟨handle, w', ho, hc, hk⟩ | ⟨f, ho⟩⟩
  · exact absurd (Disk.holds_iff.2 ⟨handle, hc⟩) ((Disk.lacks_iff.1 hm.now).2 c')
  · exact .inl ⟨handle, w', Layout.openOrMake_of_ok ho, hc, hk.isSound hw⟩
  by_cases hf : ∃ r : Refusal, f = .refused r ∧ r.fault = .notFound
  case neg =>
    refine .inr ⟨f, w, ?_, .inr ⟨rfl, hm⟩, hw⟩
    by_cases hr : ∃ r, f = .refused r
    · obtain ⟨r, rfl⟩ := hr
      have hfault : r.fault ≠ .notFound := fun he => hf ⟨r, rfl, he⟩
      exact (StoreM.onRefusal_of_refused ho _).trans (congrFun (if_neg hfault) w)
    · exact StoreM.onRefusal_of_error ho (fun r he => hr ⟨r, he⟩) _
  obtain ⟨r, rfl, hfault⟩ := hf
  -- a fresh install: the root is made, and then there is still no trust file
  have hopen : openAtEnd l w = (l.ensureRoot >>= fun _ =>
      Disk.openKept l.hostKeys Disk.privateFileMode) w :=
    (StoreM.onRefusal_of_refused ho _).trans (congrFun (if_pos hfault) w)
  have hs : (w.after l.ensureRoot).IsSound :=
    (Disk.ensures_ensureDirectory hw l.root _).keeps.isSound hw
  have hm' := hm.after_ensureRoot hw
  rcases StoreM.ok_or_error l.ensureRoot w with ⟨u, hr⟩ | ⟨f, hr⟩
  · rw [hopen, StoreM.bind_of_ok hr]
    rcases Disk.openKept_cases hs l.hostKeys Disk.privateFileMode with
      ⟨handle, c', ho, hc⟩ | ⟨-, ⟨handle, w', ho, hc, hk⟩ | ⟨f, ho⟩⟩
    · exact absurd (Disk.holds_iff.2 ⟨handle, hc⟩) ((Disk.lacks_iff.1 hm'.now).2 c')
    · exact .inl ⟨handle, w', ho, hc, hk.isSound hs⟩
    · exact .inr ⟨f, _, ho, .inr ⟨rfl, hm'⟩, hs⟩
  · exact .inr ⟨f, _, hopen.trans (StoreM.bind_of_error hr _), .inr ⟨rfl, hm'⟩, hs⟩

/-- The message that ends a recording. -/
def report (k : HostKey) : StoreM Unit := do
  StoreM.log .info (recorded k (← Decimal.render k.port))

theorem leavesFiles_report (k : HostKey) : (report k).LeavesFiles :=
  .bind (.lift _) fun _ => .log _ _

/-- What is done with the bytes of a line once the trust file is open. -/
def addLine (k : HostKey) (handle : Handle) (line : Text) : StoreM Unit :=
  match Utf8.encode? line with
  | none => throw .unencodable
  | some bytes => do
    Disk.append handle bytes
    report k

theorem record_eq (l : Layout) (k : HostKey) :
    record l k = (do
      let handle ← (openAtEnd l).onRefusal fun r => throw (.store .recordHostKey l.hostKeys r)
      let line ← k.line
      addLine k handle line) := rfl

/-- **What recording a key does to the content.** Either it fails and the content stays, or the line
of the key has bytes and they are appended. -/
theorem contains_after_record (hw : w.IsSound) (h : Contains l w c) (k : HostKey) :
    (w.after (record l k)).IsSound ∧
      ((∃ f, record l k w = .error f (w.after (record l k)) ∧
          Contains l (w.after (record l k)) c) ∨
        ∃ line data, k.line = .ok line ∧ Utf8.encode? line = some data ∧
          (w.after (record l k)).Holds l.hostKeys (c ++ data)) := by
  have failed {f : Failure} {v : World} (hr : record l k w = .error f v) (hv : v.IsSound)
      (hc : Contains l v c) : (w.after (record l k)).IsSound ∧
        ((∃ f, record l k w = .error f (w.after (record l k)) ∧
            Contains l (w.after (record l k)) c) ∨
          ∃ line data, k.line = .ok line ∧ Utf8.encode? line = some data ∧
            (w.after (record l k)).Holds l.hostKeys (c ++ data)) := by
    obtain rfl : w.after (record l k) = v := World.after_of_error hr
    exact ⟨hv, .inl ⟨f, hr, hc⟩⟩
  rcases openAtEnd_cases hw h with ⟨handle, v, ho, hc, hv⟩ | ⟨f, v, ho, hc, hv⟩
  case inr =>
    by_cases hr : ∃ r, f = .refused r
    · obtain ⟨r, rfl⟩ := hr
      exact failed (StoreM.bind_of_error (StoreM.onRefusal_of_refused ho _) _) hv hc
    · have ho' := StoreM.onRefusal_of_error ho (fun r he => hr ⟨r, he⟩) fun r =>
        throw (.store .recordHostKey l.hostKeys r)
      exact failed (StoreM.bind_of_error ho' _) hv hc
  have hholds : Contains l v c := .inl (Disk.holds_iff.2 ⟨handle, hc⟩)
  have hopen := StoreM.onRefusal_of_ok ho fun r => throw (.store .recordHostKey l.hostKeys r)
  have hcases : (∃ e, k.line = .error e) ∨ ∃ line, k.line = .ok line := by
    cases k.line with
    | error e => exact .inl ⟨e, rfl⟩
    | ok line => exact .inr ⟨line, rfl⟩
  rcases hcases with ⟨e, hl⟩ | ⟨line, hl⟩
  · refine failed (f := e) ?_ hv hholds
    rw [record_eq, StoreM.bind_of_ok hopen, StoreM.bind_of_error (StoreM.lift_of_error hl v)]
  have hr : record l k w = addLine k handle line v := by
    rw [record_eq, StoreM.bind_of_ok hopen, StoreM.bind_lift_of_ok hl]
  cases he : Utf8.encode? line with
  | none =>
    refine failed (f := .unencodable) ?_ hv hholds
    rw [hr, addLine, he]
    rfl
  | some data =>
    obtain ⟨u, ha, hu, hk⟩ := Disk.append_of_opens hv hc data
    rw [addLine, he] at hr
    have hr' : record l k w = report k u := hr.trans (StoreM.bind_of_ok ha _)
    obtain ⟨ht, hh⟩ := leavesFiles_report k u
    rw [World.after_congr hr']
    refine ⟨?_, .inr ⟨line, data, hl, he, ?_⟩⟩
    · rw [World.IsSound, ht, hh]
      exact hk.isSound hv
    · exact (Disk.holds_congr ht hh).2 (Disk.holds_iff.2 ⟨handle, hu⟩)

/-- A key that was recorded has a line, and the bytes of it are at the end of the trust file. -/
theorem holds_of_record {k : HostKey} (hw : w.IsSound) (h : Contains l w c)
    (hr : record l k w = .ok () w') :
    w'.IsSound ∧ k.port.natAbs < 10 ^ Decimal.maxDigits ∧
      ∃ data, Utf8.encode? (k.body ++ [.ofChar '\n']) = some data ∧
        w'.Holds l.hostKeys (c ++ data) := by
  obtain ⟨hs, ⟨f, hf, -⟩ | ⟨line, data, hl, hd, hc⟩⟩ := contains_after_record hw h k
  · exact absurd (hr.symm.trans hf) (by simp)
  obtain ⟨hlt, rfl⟩ := HostKey.line_eq_ok_iff.1 hl
  rw [World.after_of_ok hr] at hs hc
  exact ⟨hs, hlt, data, hd, hc⟩

/-! ### Fresh installs -/

/-- On a path that does not lead back there is no trust file once the root is made, if there was
none before. -/
theorem missing_of_lacks (hw : w.IsSound)
    (hback : ∀ c ∈ l.root.components, FilePath.isBack c = false) (h : w.Lacks l.hostKeys) :
    Missing l w := by
  refine ⟨h, Disk.lacks_iff.2 ⟨(Disk.lacks_iff.1 h).1, fun c hc => ?_⟩⟩
  have he := Disk.ensures_ensureDirectory hw l.root Disk.privateDirectoryMode
  obtain ⟨handle, mode, hf⟩ := Disk.holds_iff.1 hc
  by_cases hd : w.HasDirectoryAt l.root
  · rw [Layout.ensureRoot, World.after_of_ok (Disk.ensureDirectory_of_hasDirectoryAt hd)] at hc
    exact (Disk.lacks_iff.1 h).2 c hc
  · -- the root is new, so that there is nothing in it
    have hd' := hf.parent Layout.isComponent_hostKeys
    have hempty := Disk.isEmptyAt_of_ensureDirectory hw hback hd (he.ok hd')
    obtain ⟨place, hs⟩ := hempty.eq_vacant (c := ⟨_, Layout.isComponent_hostKeys⟩) rfl hf
    contradiction

section Record

variable {handle : Handle} {k : HostKey} {data : Bytes}
  (hlt : k.port.natAbs < 10 ^ Decimal.maxDigits)
  (hd : Utf8.encode? (k.body ++ [.ofChar '\n']) = some data)
  (ho : openAtEnd l w = .ok handle w')

include hlt hd ho

/-- Once the trust file is open, all that is left is to append the line and to report. -/
theorem record_of_openAtEnd {v : World} (ha : Disk.append handle data w' = .ok () v) :
    ∃ w'', record l k w = .ok () w'' ∧ w''.tree = v.tree ∧ w''.here = v.here := by
  have hopen := StoreM.onRefusal_of_ok ho fun r => throw (.store .recordHostKey l.hostKeys r)
  obtain ⟨w'', hr⟩ : ∃ w'', report k v = .ok () w'' :=
    ⟨_, StoreM.bind_lift_of_ok (Decimal.render_of_lt hlt) _ v⟩
  have hkept := leavesFiles_report k v
  rw [World.after_of_ok hr] at hkept
  refine ⟨w'', ?_, hkept⟩
  rw [record_eq, StoreM.bind_of_ok hopen, StoreM.bind_lift_of_ok (HostKey.line_of_lt hlt),
    addLine, hd]
  exact (StoreM.bind_of_ok ha _).trans hr

/-- A key whose line has bytes is recorded whenever the trust file can be opened. -/
theorem exists_record_of_openAtEnd : ∃ w'', record l k w = .ok () w'' := by
  have ha : Disk.append handle data w' = .ok () _ := rfl
  obtain ⟨w'', hr, -⟩ := record_of_openAtEnd hlt hd ho ha
  exact ⟨w'', hr⟩

/-- What recording does to the files: the line is appended to the file that was opened. -/
theorem rewritten_of_openAtEnd {v : World} {mode : Nat}
    (hr : Disk.Rewritten v w' handle mode c) :
    ∃ w'', record l k w = .ok () w'' ∧ Disk.Rewritten v w'' handle mode (c ++ data) := by
  obtain ⟨u, ha, hu⟩ := hr.append data
  obtain ⟨w'', h', ht, hh⟩ := record_of_openAtEnd hlt hd ho ha
  refine ⟨w'', h', fun q => ?_, ?_, ?_⟩
  · rw [ht, hu.node]
  · rw [ht]
    exact hu.keeps.tree
  · rw [hh, hu.keeps.here]

end Record

/-- A sane key. -/
def sampleKey : HostKey := ⟨"ssh-rsa", 22, "host", "AAAA"⟩

theorem isSane_sampleKey : sampleKey.IsSane where
  keytype_ne_nil := by decide
  keytype_at := by decide
  hostname_ne_nil := by decide
  hostname_space := by decide
  port_nonneg := by decide
  port_lt := by
    have h : sampleKey.port.natAbs < 10 ^ 2 := by decide
    exact Nat.lt_of_lt_of_le h (Nat.pow_le_pow_right (by decide) (by decide))
  lineFeed := by decide
  surrogate := by decide

theorem missing_bare : Missing .sample .bare :=
  missing_of_lacks World.isSound_bare (by decide)
    ⟨⟨.notFound, some Layout.sample.hostKeys⟩, rfl⟩

theorem exists_record_sampleKey : ∃ w, record .sample sampleKey .bare = .ok () w := by
  have ho : openAtEnd .sample .bare = .ok _ _ := rfl
  have hd : Utf8.encode? (sampleKey.body ++ [.ofChar '\n']) = some _ := rfl
  exact exists_record_of_openAtEnd isSane_sampleKey.port_lt hd ho

/-! ### Runs with sane keys -/

/-- The keys `ks` were recorded one after the other, all of them sane and each with success. At any
time the trust file may have been asked, also for a key that is not sane. -/
inductive Recorded (l : Layout) (w : World) : List HostKey → World → Prop
  | start : Recorded l w [] w
  | record {ks : List HostKey} {w₁ w₂ : World} {k : HostKey} (h : Recorded l w ks w₁)
      (hk : k.IsSane) (hr : TrustFile.record l k w₁ = .ok () w₂) : Recorded l w (ks ++ [k]) w₂
  | verify {ks : List HostKey} {w₁ : World} (q : HostKey) (h : Recorded l w ks w₁) :
      Recorded l w ks (w₁.after (TrustFile.verify l q))
  | entries {ks : List HostKey} {w₁ : World} (h : Recorded l w ks w₁) :
      Recorded l w ks (w₁.after (TrustFile.entries l))

/-- The lines of some keys. -/
def textOf (ks : List HostKey) : Text := ks.flatMap fun k => k.body ++ [.ofChar '\n']

/-- The lines of some keys are read back. -/
theorem lines_of_textOf {ks : List HostKey} (hks : ∀ k ∈ ks, k.IsPlain)
    (he : Utf8.encode? (textOf ks) = some c) :
    (Utf8.decode c).lines = ks.map fun k => k.body ++ [.ofChar '\n'] := by
  have hno := Utf8.not_concealsCharacter_of_hasSurrogate_eq_false (HostKey.hasSurrogate_flatMap hks)
  rw [(Utf8.decode_encode_eq_iff he).2 hno]
  exact Text.lines_flatMap fun k hk => (hks k hk).lineFeed_not_mem_body

/-- Where the lines are those of some keys, the keys are what decides. -/
theorem verify_of_lines {ks : List HostKey} (h : Contains l w c)
    (hl : (Utf8.decode c).lines = ks.map fun k => k.body ++ [.ofChar '\n'])
    (hks : ∀ k ∈ ks, k.IsPlain) {q : HostKey} (hq : q.IsLegible)
    (hlt : q.port.natAbs < 10 ^ Decimal.maxDigits) :
    ∃ w', verify l q w = .ok (HostKey.answer ks q) w' := by
  obtain ⟨w', hv⟩ := verify_of_contains h (HostKey.identity_of_lt hlt)
  have ha := HostKey.firstVerdict_lines hq hks
  rw [hl] at hv
  exact ⟨w', hv.trans (by rw [← ha, HostKey.start])⟩

/-- The trust file consists of the lines of some sane keys. -/
structure IsListOf (l : Layout) (ks : List HostKey) (w : World) : Prop where
  sound : w.IsSound
  sane : ∀ k ∈ ks, k.IsSane
  content : ∃ c, Utf8.encode? (textOf ks) = some c ∧ Contains l w c

theorem IsListOf.of_leavesFiles {α : Type} {ks : List HostKey} {x : StoreM α}
    (h : IsListOf l ks w) (hx : x.LeavesFiles) : IsListOf l ks (w.after x) := by
  obtain ⟨ht, hh⟩ := hx w
  refine ⟨?_, h.sane, ?_⟩
  · rw [World.IsSound, ht, hh]
    exact h.sound
  · obtain ⟨c, he, hc⟩ := h.content
    exact ⟨c, he, hc.congr ht.symm hh.symm⟩

theorem IsListOf.record {ks : List HostKey} {k : HostKey} (h : IsListOf l ks w) (hk : k.IsSane)
    (hr : record l k w = .ok () w') : IsListOf l (ks ++ [k]) w' := by
  obtain ⟨c, he, hc⟩ := h.content
  obtain ⟨hs, -, data, hd, hc'⟩ := holds_of_record h.sound hc hr
  refine ⟨hs, ?_, c ++ data, ?_, .inl hc'⟩
  · intro j hj
    rcases List.mem_append.1 hj with hj | hj
    · exact h.sane j hj
    · rw [List.mem_singleton.1 hj]
      exact hk
  · rw [textOf, List.flatMap_append]
    refine Utf8.encode?_append he ?_
    simpa using hd

theorem Recorded.isListOf {ks : List HostKey} (hw : w.IsSound) (hm : Missing l w)
    (h : Recorded l w ks w') : IsListOf l ks w' := by
  induction h with
  | start => exact ⟨hw, by simp, [], rfl, .inr ⟨rfl, hm⟩⟩
  | record _ hk hr ih => exact ih.record hk hr
  | verify q _ ih => exact ih.of_leavesFiles (leavesFiles_verify l q)
  | entries _ ih => exact ih.of_leavesFiles (leavesFiles_entries l)

/-- The lines that are read are the lines of the keys. -/
theorem IsListOf.lines {ks : List HostKey} (h : IsListOf l ks w) :
    ∃ c, Contains l w c ∧ (Utf8.decode c).lines = ks.map fun k => k.body ++ [.ofChar '\n'] := by
  obtain ⟨c, he, hc⟩ := h.content
  exact ⟨c, hc, lines_of_textOf (fun k hk => (h.sane k hk).isPlain) he⟩

theorem IsListOf.entries {ks : List HostKey} (h : IsListOf l ks w) :
    ∃ w', entries l w = .ok ks w' := by
  obtain ⟨c, hc, hl⟩ := h.lines
  obtain ⟨w', he⟩ := entries_of_contains hc (hl ▸ HostKey.mapM_ofLine_lines h.sane)
  refine ⟨w', ?_⟩
  rw [he, List.filterMap_map]
  congr 1
  exact List.filterMap_some

theorem IsListOf.verify {ks : List HostKey} (h : IsListOf l ks w) {q : HostKey} (hq : q.IsSane) :
    ∃ w', verify l q w = .ok (HostKey.answer ks q) w' := by
  obtain ⟨c, hc, hl⟩ := h.lines
  exact verify_of_lines hc hl (fun k hk => (h.sane k hk).isPlain) hq.isPlain.toIsLegible hq.port_lt

/-- **The trust file answers like the list of the keys that were recorded.** At any time during any
run, the keys are listed as they were recorded, and the first one that is for the same subject
decides about a key. -/
theorem answers_of_recorded {ks : List HostKey} (hw : w.IsSound) (hm : Missing l w)
    (h : Recorded l w ks w') :
    (∃ w'', entries l w' = .ok ks w'') ∧
      ∀ q : HostKey, q.IsSane → ∃ v w'', verify l q w' = .ok v w'' ∧
        (v = .absent ↔ ∀ k ∈ ks, k.subject ≠ q.subject) ∧
        (v = .same ↔
          ∃ k, ks.find? (fun k => k.subject = q.subject) = some k ∧ k.keydata = q.keydata) ∧
        (v = .different ↔
          ∃ k, ks.find? (fun k => k.subject = q.subject) = some k ∧ k.keydata ≠ q.keydata) := by
  have hl := h.isListOf hw hm
  refine ⟨hl.entries, fun q hq => ?_⟩
  obtain ⟨w'', hv⟩ := hl.verify hq
  exact ⟨_, w'', hv, HostKey.answer_eq_absent_iff, HostKey.answer_eq_same_iff,
    HostKey.answer_eq_different_iff⟩

/-- One key is recorded on a fresh install and then listed. -/
theorem answers_of_recorded_sampleKey :
    ∃ w w', Recorded .sample .bare [sampleKey] w ∧
      entries .sample w = .ok [sampleKey] w' := by
  obtain ⟨w, hr⟩ := exists_record_sampleKey
  have hrun : Recorded .sample .bare [sampleKey] w := .record .start isSane_sampleKey hr
  obtain ⟨⟨w', he⟩, -⟩ := answers_of_recorded World.isSound_bare missing_bare hrun
  exact ⟨w, w', hrun, he⟩

/-! ### Runs with any keys -/

/-- Any keys were recorded or asked for, in any order, and each time with any outcome. -/
inductive Reaches (l : Layout) (w : World) : World → Prop
  | start : Reaches l w w
  | record {w₁ : World} (k : HostKey) (h : Reaches l w w₁) :
      Reaches l w (w₁.after (TrustFile.record l k))
  | verify {w₁ : World} (q : HostKey) (h : Reaches l w w₁) :
      Reaches l w (w₁.after (TrustFile.verify l q))
  | entries {w₁ : World} (h : Reaches l w w₁) : Reaches l w (w₁.after (TrustFile.entries l))

/-- The content of the trust file ends at the end of a line, and it begins with `c`, which does so,
too. -/
structure Extends (l : Layout) (c : Bytes) (w : World) : Prop where
  sound : w.IsSound
  before : IsClosedBy 0x0A c
  content : ∃ data, IsClosedBy 0x0A data ∧ Contains l w (c ++ data)

theorem Extends.of_leavesFiles {α : Type} {x : StoreM α} (h : Extends l c w) (hx : x.LeavesFiles) :
    Extends l c (w.after x) := by
  obtain ⟨ht, hh⟩ := hx w
  refine ⟨?_, h.before, ?_⟩
  · rw [World.IsSound, ht, hh]
    exact h.sound
  · obtain ⟨data, hd, hc⟩ := h.content
    exact ⟨data, hd, hc.congr ht.symm hh.symm⟩

/-- Whatever is recorded, and whether that goes well or not, the file is extended by lines. -/
theorem Extends.record (h : Extends l c w) (k : HostKey) : Extends l c (w.after (record l k)) := by
  obtain ⟨data, hd, hc⟩ := h.content
  obtain ⟨hs, ⟨f, -, hc'⟩ | ⟨line, more, hl, he, hc'⟩⟩ := contains_after_record h.sound hc k
  · exact ⟨hs, h.before, data, hd, hc'⟩
  · obtain ⟨-, rfl⟩ := HostKey.line_eq_ok_iff.1 hl
    refine ⟨hs, h.before, data ++ more, hd.append (Utf8.isClosedBy_encode? he), ?_⟩
    rw [← List.append_assoc]
    exact .inl hc'

theorem Reaches.extends (h : Extends l c w) (hr : Reaches l w w') : Extends l c w' := by
  induction hr with
  | start => exact h
  | record k _ ih => exact ih.record k
  | verify q _ ih => exact ih.of_leavesFiles (leavesFiles_verify l q)
  | entries _ ih => exact ih.of_leavesFiles (leavesFiles_entries l)

/-- At any time the trust file ends at the end of a line. -/
theorem Reaches.exists_extends (hw : w.IsSound) (hm : Missing l w) (hr : Reaches l w w') :
    ∃ c, Contains l w' c ∧ Extends l c w' := by
  have hstart : Extends l [] w := ⟨hw, .nil, [], .nil, .inr ⟨rfl, hm⟩⟩
  have he := hr.extends hstart
  obtain ⟨c, hd, hc⟩ := he.content
  refine ⟨c, hc, he.sound, hd, [], .nil, ?_⟩
  rwa [List.append_nil]

/-- **An answer other than `absent` is final.** Whatever keys are recorded later, in whatever
state they were left by earlier ones, the answer stays. -/
theorem verify_of_reaches {w₁ w₂ w₃ : World} {q : HostKey} {v : HostKey.Verdict} (hw : w.IsSound)
    (hm : Missing l w) (h₁ : Reaches l w w₁) (hv : verify l q w₁ = .ok v w₂) (hne : v ≠ .absent)
    (h₂ : Reaches l w₂ w₃) : ∃ w₄, verify l q w₃ = .ok v w₄ := by
  obtain ⟨c, hc, he⟩ := h₁.exists_extends hw hm
  obtain ⟨identity, hi, rfl⟩ := exists_identity_of_verify hc hv hne
  have he₂ := he.of_leavesFiles (leavesFiles_verify l q)
  rw [World.after_of_ok hv] at he₂
  obtain ⟨data, -, hc₃⟩ := (h₂.extends he₂).content
  obtain ⟨w₄, hv₄⟩ := verify_of_contains hc₃ hi
  rw [Utf8.lines_decode_append he.before, HostKey.firstVerdict_append hne] at hv₄
  exact ⟨w₄, hv₄⟩

/-- A key goes on being known when another one for the same host is recorded later. -/
theorem verify_of_reaches_sampleKey :
    ∃ w₁ w₂ w₄, Reaches .sample .bare w₁ ∧ verify .sample sampleKey w₁ = .ok .same w₂ ∧
      verify .sample sampleKey
          (w₂.after (record .sample { sampleKey with keydata := "BBBB" })) =
        .ok .same w₄ := by
  obtain ⟨w₁, hr⟩ := exists_record_sampleKey
  have hrun : Recorded .sample .bare [sampleKey] w₁ := .record .start isSane_sampleKey hr
  obtain ⟨w₂, hv⟩ := (hrun.isListOf World.isSound_bare missing_bare).verify isSane_sampleKey
  have hsame : HostKey.answer [sampleKey] sampleKey = .same := by decide
  rw [hsame] at hv
  have hreach : Reaches .sample .bare w₁ := by
    rw [← World.after_of_ok hr]
    exact .record sampleKey .start
  obtain ⟨w₄, hv'⟩ := verify_of_reaches World.isSound_bare missing_bare hreach hv (by decide)
    (.record { sampleKey with keydata := "BBBB" } .start)
  exact ⟨w₁, w₂, w₄, hreach, hv, hv'⟩

end ClientStore.TrustFile
