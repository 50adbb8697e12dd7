import ClientStore.Proofs.Command.Execution
import ClientStore.Proofs.HostKey.Readers
import ClientStore.Proofs.Text.Sanitize

/-!
# One line for every item

Three commands list what is stored: the profiles, the settings of a profile, and the host keys. They
look for their items in different places, but what they do with them is the same. Every item is made
safe for a terminal, part by part, and printed on a line of its own; and if there is one that
standard output does not take, or that cannot be read, that is the end of the command.

So the commands are first shown to print what they find. What they find are items of the store, and
the line of an item has no control characters, whatever it is made from. A run that ends well has
therefore written one line for every item, and nothing in a line can pass for the end of it.

## Main definitions

* `Item`, `Item.line` — what is listed, and the line for it.
* `Command.Lists` — the items that a command lists.
* `Command.finds` — the lines that a command finds before it prints them.

## Main results

* `Command.run_of_isListing` — listing is to print what is found.
* `Command.exists_lists_of_finds` — what is found are the lines of items.
* `lines_stdout_of_isListing` — a run that ends well writes one line for every item.
-/

namespace ClientStore

/-! ### Items -/

/-- What is listed on one line. -/
inductive Item where
  | profile (name : Text)
  | setting (key value : Text)
  | hostKey (k : HostKey)

/-- The line for an item. -/
def Item.line : Item → Text
  | profile name => name.sanitized
  | setting key value => Command.settingLine key value
  | hostKey k =>
    (HostKey.identityText k.keytype (Decimal.numeral k.port) k.hostname).sanitized ++
      .ofChar ' ' :: k.keydata.sanitized

/-- **The line for an item is clean**, whatever the item is made from. -/
theorem Item.isClean_line (item : Item) : item.line.IsClean := by
  cases item with
  | profile name => exact Text.isClean_sanitized name
  | setting key value =>
    exact Text.isClean_append.2 ⟨Text.isClean_sanitized key,
      Text.isClean_cons.2 ⟨by decide, Text.isClean_sanitized value⟩⟩
  | hostKey k =>
    exact Text.isClean_append.2 ⟨Text.isClean_sanitized _,
      Text.isClean_cons.2 ⟨by decide, Text.isClean_sanitized k.keydata⟩⟩

/-- The item of a key that has a value. -/
def SessionStore.setting? (s : SessionStore) (record : SessionRecord) (w : World) (key : Text) :
    Option Item :=
  (w.outcome (s.readText record key)).toOption.join.map (.setting key)

namespace Command

/-- The items that a command lists: the profiles that are enumerated, the recorded keys or the
requested ones as far as they have a value, or the keys in the trust file. -/
inductive Lists (s : SessionStore) (w : World) : Command → List Item → Prop
  | profiles {names : List Text} (h : w.outcome s.list = .ok names) :
    Lists s w .list (names.map .profile)
  | recorded {name : Text} {record : Settings}
    (h : w.outcome (s.openForRead (.text name)) = .ok (some record)) :
    Lists s w (.show name []) ((Text.sort record.keys).filterMap (s.setting? (some record) w))
  | requested {name : Text} {record : SessionRecord} {keys : List Text} (hne : keys ≠ [])
    (h : w.outcome (s.openForRead (.text name)) = .ok record) :
    Lists s w (.show name (keys.map some)) (keys.filterMap (s.setting? record w))
  | hostKeys {ks : List HostKey} (h : w.outcome (TrustFile.entries s.layout) = .ok ks) :
    Lists s w .listHostKeys (ks.map .hostKey)

/-- Whether a command lists items. -/
def isListing : Command → Bool
  | list | «show» .. | listHostKeys => true
  | _ => false

/-! ### What is found -/

/-- The place of every key that is shown. -/
def places (record : SessionRecord) (keys : List (Option Text)) : List (Option Text) :=
  if keys.isEmpty then (Text.sort (record.getD .empty).keys).map some else keys

/-- The line that is found for the place of a key. -/
def settingFound (s : SessionStore) (record : SessionRecord) (place : Option Text) :
    Except Failure (Option Text) :=
  (NeededArgument.setting.take place).map fun key =>
    ((record.bind (·.get? key)).or (s.resources.values.get? key)).map (settingLine key)

/-- The line that is found for a line of the trust file. -/
def hostKeyFound (line : Text) : Except Failure (Option Text) :=
  (HostKey.ofLine line).map fun k? => k?.map fun k => (Item.hostKey k).line

/-- What a command finds to list, or else what it says instead. -/
def finds (s : SessionStore) :
    Command → StoreM (Except Text (List (Except Failure (Option Text))))
  | list => do
    return .ok ((← s.list).map fun name => .ok (some name.sanitized))
  | «show» name keys => do
    let record ← s.openForRead (.text name)
    if record.isNone && keys.isEmpty then return .error (noSession name)
    else return .ok ((places record keys).map (settingFound s record))
  | listHostKeys => do
    return .ok (((← TrustFile.lines? s.layout).getD []).map hostKeyFound)
  | _ => return .ok []

/-- Prints what was found, or complains, and gives the exit status. -/
def printAll : Except Text (List (Except Failure (Option Text))) → StoreM Nat
  | .error complaint => do
    StoreM.tell (.complained complaint)
    return 1
  | .ok found => do
    found.forM StoreM.printFound
    return 0

section Finds

variable {s : SessionStore} {c : Command} {w u : World}

theorem readText_eq_pure (hs : s.resources.default? = none) (record : SessionRecord)
    (key : Text) :
    s.readText record key =
      pure ((record.bind (·.get? key)).or (s.resources.values.get? key)) := by
  rw [SessionStore.readText]
  cases record.bind (·.get? key) with
  | some value => rfl
  | none =>
    rw [SessionStore.fallback, ResourceTable.source, hs]
    cases s.resources.values.get? key <;> rfl

theorem printSettings_eq (hs : s.resources.default? = none) (record : SessionRecord)
    (keys : List (Option Text)) :
    printSettings s record keys =
      keys.forM fun place => StoreM.printFound (settingFound s record place) := by
  rw [printSettings]
  congr 1
  funext place
  cases place with
  | none => rfl
  | some key =>
    show (s.readText record key >>= fun value? => _) = _
    rw [readText_eq_pure hs, pure_bind]
    show _ = StoreM.printFound
      (.ok (((record.bind (·.get? key)).or (s.resources.values.get? key)).map (settingLine key)))
    generalize (record.bind (·.get? key)).or (s.resources.values.get? key) = value?
    cases value? <;> rfl

theorem printHostKeys_eq (lines : List Text) :
    printHostKeys lines = lines.forM fun line => StoreM.printFound (hostKeyFound line) := by
  rw [printHostKeys]
  congr 1
  funext line
  rw [hostKeyFound]
  cases h : HostKey.ofLine line with
  | error f => rfl
  | ok k? =>
    cases k? with
    | none => rfl
    | some k =>
      have hfound : (liftM (Except.ok (some k) : Except Failure (Option HostKey)) :
          StoreM (Option HostKey)) = pure (some k) := rfl
      rw [hfound, pure_bind]
      dsimp only
      rw [HostKey.identity_of_lt (HostKey.natAbs_lt_of_ofLine h)]
      rfl

/-- **Listing is to print what is found.** -/
theorem run_of_isListing (hs : s.resources.default? = none) (hc : c.isListing = true) :
    c.run s = c.finds s >>= printAll := by
  have hprint {α : Type} (as : List α) (found : α → Except Failure (Option Text)) :
      (as.map found).forM StoreM.printFound =
        as.forM fun a => StoreM.printFound (found a) := List.forM_map
  cases c with
  | list =>
    rw [run, finds, bind_assoc]
    congr 1
    funext names
    rw [pure_bind, printAll, hprint]
    rfl
  | «show» name keys =>
    rw [run, finds, bind_assoc]
    congr 1
    funext record
    cases hn : record.isNone && keys.isEmpty with
    | true => rfl
    | false =>
      rw [if_neg Bool.false_ne_true, if_neg Bool.false_ne_true, pure_bind, printAll, hprint,
        ← printSettings_eq hs]
      rfl
  | listHostKeys =>
    rw [run, finds, bind_assoc]
    congr 1
    funext lines?
    rw [pure_bind, printAll, hprint, ← printHostKeys_eq]
  | _ => contradiction

theorem onlyLogs_finds (s : SessionStore) (c : Command) : (c.finds s).OnlyLogs := by
  cases c with
  | list => exact .bind (SessionStore.isQuiet_list s).onlyLogs fun _ => .pure _
  | «show» name keys =>
    refine .bind (SessionStore.onlyLogs_openForRead s _) fun record => ?_
    split
    · exact .pure _
    · exact .pure _
  | listHostKeys => exact .bind (TrustFile.onlyLogs_lines? _) fun _ => .pure _
  | _ => exact .pure _

end Finds

/-! ### What is found are items -/

section Items

variable {s : SessionStore} {c : Command} {w v u : World} {items : List Item}
  {found : List (Except Failure (Option Text))}

theorem setting?_congr (s : SessionStore) (record : SessionRecord) (ht : w.tree = v.tree)
    (hh : w.here = v.here) : s.setting? record w = s.setting? record v := by
  funext key
  rw [SessionStore.setting?, (s.ignoresJournal_readText record key).outcome_eq ht hh]
  rfl

/-- What is listed does not depend on the journal. -/
theorem Lists.congr (h : Lists s w c items) (ht : w.tree = v.tree) (hh : w.here = v.here) :
    Lists s v c items := by
  cases h with
  | profiles h => exact .profiles ((s.isQuiet_list.ignoresJournal.outcome_eq ht hh).symm.trans h)
  | recorded h =>
    rw [setting?_congr s _ ht hh]
    exact .recorded (((s.ignoresJournal_openForRead _).outcome_eq ht hh).symm.trans h)
  | requested hne h =>
    rw [setting?_congr s _ ht hh]
    exact .requested hne (((s.ignoresJournal_openForRead _).outcome_eq ht hh).symm.trans h)
  | hostKeys h =>
    exact .hostKeys (((TrustFile.ignoresJournal_entries _).outcome_eq ht hh).symm.trans h)

theorem filterMap_settingFound (hs : s.resources.default? = none) (record : SessionRecord)
    (w : World) (keys : List Text) :
    ((keys.map some).map (settingFound s record)).filterMap (·.toOption.join) =
      (keys.filterMap (s.setting? record w)).map Item.line := by
  rw [List.map_map, List.filterMap_map, List.map_filterMap]
  congr 1
  funext key
  rw [SessionStore.setting?, readText_eq_pure hs]
  show ((record.bind (·.get? key)).or (s.resources.values.get? key)).map (settingLine key) =
    (((record.bind (·.get? key)).or (s.resources.values.get? key)).map (.setting key)).map Item.line
  rw [Option.map_map]
  rfl

/-- Only the place of a key can be printed. -/
theorem exists_map_some_of_canPrint {record : SessionRecord} {keys : List (Option Text)}
    (h : ∀ place ∈ keys, StoreM.CanPrint (settingFound s record place)) :
    ∃ ks : List Text, keys = ks.map some := by
  refine ⟨keys.map (·.getD []), ?_⟩
  rw [List.map_map]
  refine (List.map_id keys).symm.trans (List.map_congr_left ?_)
  rintro (- | key) hplace
  · exact absurd (h none hplace) StoreM.not_canPrint_error
  · rfl

/-- The keys on lines that can be printed are what is found. -/
theorem exists_keysOn_of_canPrint {lines : List Text}
    (h : ∀ line ∈ lines, StoreM.CanPrint (hostKeyFound line)) :
    ∃ ks, HostKey.keysOn lines = .ok ks ∧
      (lines.map hostKeyFound).filterMap (·.toOption.join) =
        (ks.map Item.hostKey).map Item.line := by
  induction lines with
  | nil => exact ⟨[], rfl, rfl⟩
  | cons line lines ih =>
    rw [List.forall_mem_cons] at h
    obtain ⟨ks, hks, hfound⟩ := ih h.2
    cases hk : HostKey.ofLine line with
    | error f =>
      rw [hostKeyFound, hk] at h
      exact absurd h.1 StoreM.not_canPrint_error
    | ok k? =>
      refine ⟨_, HostKey.keysOn_cons hk hks, ?_⟩
      rw [List.map_append, List.map_append, ← hfound, List.map_cons, hostKeyFound, hk]
      cases k? <;> rfl

/-- **What is found are the lines of items.** -/
theorem exists_lists_of_finds (hs : s.resources.default? = none) (hc : c.isListing = true)
    (h : c.finds s w = .ok (.ok found) u) (hp : ∀ line ∈ found, StoreM.CanPrint line) :
    ∃ items, Lists s w c items ∧ found.filterMap (·.toOption.join) = items.map Item.line := by
  cases c with
  | list =>
    obtain ⟨names, v, hn, h⟩ := StoreM.exists_of_bind_ok h
    injection h with hf
    injection hf with hf
    refine ⟨_, .profiles (World.outcome_of_ok hn), ?_⟩
    rw [← hf, List.filterMap_map, List.map_map]
    exact congrFun (List.filterMap_eq_map (f := fun name => (Item.profile name).line)) names
  | «show» name keys =>
    obtain ⟨record, v, hr, h⟩ := StoreM.exists_of_bind_ok h
    split at h
    · injection h with hf
      contradiction
    rename_i hn
    injection h with hf
    injection hf with hf
    subst hf
    rw [List.forall_mem_map] at hp
    by_cases hkeys : keys = []
    · obtain ⟨settings, rfl⟩ := Option.ne_none_iff_exists'.1 (by simpa [hkeys] using hn)
      subst hkeys
      exact ⟨_, .recorded (World.outcome_of_ok hr), filterMap_settingFound hs _ w _⟩
    · have hplaces : places record keys = keys := if_neg (by simpa using hkeys)
      rw [hplaces] at hp ⊢
      obtain ⟨ks, rfl⟩ := exists_map_some_of_canPrint hp
      exact ⟨_, .requested (by simpa using hkeys) (World.outcome_of_ok hr),
        filterMap_settingFound hs _ w _⟩
  | listHostKeys =>
    obtain ⟨lines?, v, hl, h⟩ := StoreM.exists_of_bind_ok h
    injection h with hf
    injection hf with hf
    subst hf
    rw [List.forall_mem_map] at hp
    obtain ⟨ks, hks, hfound⟩ := exists_keysOn_of_canPrint hp
    have hentries : w.outcome (TrustFile.entries s.layout) = .ok ks := by
      rw [TrustFile.outcome_entries, World.outcome_of_ok hl]
      exact hks
    exact ⟨_, .hostKeys hentries, hfound⟩
  | _ => contradiction

/-- **A command that lists something prints a line for every item**, if it ends well. -/
theorem exists_lists_of_run (hs : s.resources.default? = none) (hc : c.isListing = true)
    (h : c.run s w = .ok 0 u) :
    ∃ items, Lists s w c items ∧ u.output = w.output ++ items.map Item.line := by
  rw [run_of_isListing hs hc] at h
  obtain ⟨found, v, hf, h⟩ := StoreM.exists_of_bind_ok h
  cases found with
  | error complaint =>
    obtain ⟨_, v', -, h⟩ := StoreM.exists_of_bind_ok h
    injection h with h0
    contradiction
  | ok found =>
    obtain ⟨_, v', hprint, h⟩ := StoreM.exists_of_bind_ok h
    injection h with _ hu
    subst hu
    have hp : ∀ line ∈ found, StoreM.CanPrint line := StoreM.canPrint_of_forM_ok hprint
    obtain ⟨items, hi, hlines⟩ := exists_lists_of_finds hs hc hf hp
    refine ⟨items, hi, ?_⟩
    have hv : v.output = w.output := by
      rw [← (onlyLogs_finds s c).isSilent w, World.after_of_ok hf]
    injection hprint.symm.trans (StoreM.forM_printFound hp v) with _ hv'
    rw [hv', World.output_print, hv, ← hlines]

end Items

end Command

/-! ### Runs of the program -/

/-- **One line for every item.** A run that lists something and ends well has written one line for
every item, each with a line feed at its end, and there is no other control character. -/
theorem lines_stdout_of_isListing {env : Environment} {args : List Text} {i : Invocation}
    {w : World} (hi : Invocation.parse args = .ok i) (hc : i.command.isListing = true)
    (h : (execute env args w).1.ending = .exit 0) :
    ∃ l items, i.layout env = .ok l ∧ Command.Lists (i.store l) w i.command items ∧
      (execute env args w).1.stdout.lines = items.map (fun item => item.line ++ [.ofChar '\n']) ∧
      ∀ c ∈ (execute env args w).1.stdout, Sanitize.isControl c = true → c = .ofChar '\n' := by
  rw [execute_of_parse hi] at h ⊢
  obtain ⟨l, hl, -, he⟩ := Invocation.exists_of_ending_eq_exit h
  rw [he, Invocation.ending_conclude_eq_exit_iff] at h
  obtain ⟨u, hrun⟩ := h.resolve_right (by simp)
  obtain ⟨items, hitems, hout⟩ := Command.exists_lists_of_run (s := i.store l) rfl hc hrun
  rw [Invocation.output_start, List.nil_append] at hout
  have hstdout : (i.conclude w (.ok 0 u)).1.stdout =
      items.flatMap fun item => item.line ++ [.ofChar '\n'] := by
    show joinLines u.output = _
    rw [hout, joinLines, List.flatMap_map]
  rw [he, hrun, hstdout]
  refine ⟨l, items, hl, hitems.congr rfl rfl, ?_, ?_⟩
  · rw [Text.lines_flatMap fun item _ => item.isClean_line.lineFeed_not_mem]
  · intro c hmem hcontrol
    obtain ⟨item, -, hmem⟩ := List.mem_flatMap.1 hmem
    rcases List.mem_append.1 hmem with hmem | hmem
    · rw [item.isClean_line c hmem] at hcontrol
      contradiction
    · exact List.mem_singleton.1 hmem

/-- A profile in whose name an escape sequence is left over when the one inside it is taken away,
and which has a line feed. -/
def shamWorld : World :=
  World.bare.after do
    Layout.sample.ensureSessions
    let _ ← Disk.openEmptied (Layout.sample.sessions.child "%1B%1B[2J[2Jname%0Aother") 0o644

/-- What is left over of the sequence is spelled out, and so is the line feed. -/
theorem lines_stdout_shamWorld :
    (execute ⟨"/home", none⟩ ["--root", "store", "list"] shamWorld).1.stdout.lines =
      [("\\x1b[2Jname\\x0aother\n" : Text)] := by
  have hi : Invocation.parse ["--root", "store", "list"] =
      .ok ⟨some (some "store"), [], 0, .list⟩ := rfl
  have hends : (execute ⟨"/home", none⟩ ["--root", "store", "list"] shamWorld).1.ending =
      .exit 0 := by decide +kernel
  obtain ⟨l, items, hl, hitems, hlines, -⟩ := lines_stdout_of_isListing hi rfl hends
  obtain rfl : Layout.sample = l := Except.ok.inj hl
  rw [hlines]
  cases hitems with
  | profiles h =>
    have hnames : shamWorld.outcome (SessionStore.list ⟨Layout.sample, .empty⟩) =
        .ok ["\x1b\x1b[2J[2Jname\nother"] := by decide +kernel
    obtain rfl := Except.ok.inj (hnames.symm.trans h)
    decide

end ClientStore
