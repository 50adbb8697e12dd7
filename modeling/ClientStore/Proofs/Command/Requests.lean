import ClientStore.Proofs.Command.Arguments
import ClientStore.Proofs.Command.Contents
import ClientStore.Proofs.Command.Output
import ClientStore.Proofs.Storage
import ClientStore.Proofs.Text.Sanitize

/-!
# One request

A request is served by the command that it stands for: the command ends well, the exit status and
the lines on standard output answer the request, and the files keep what is stored afterwards. This
is shown for each request on its own; the files enter only through `Storage`, and standard output
only through what the command prints itself.

What is printed has to be fit for standard output. Names, keys and values are, because they came as
arguments, and nothing but carriage returns is taken off them on the way.

## Main definitions

* `Request.IsAdmissible` — requests that can be served.
* `Contents.IsKept` — the files keep the contents.
* `Contents.IsServed` — a command does what a request asks for.

## Main results

* `Contents.IsKept.serve` — every request is served.
-/

namespace ClientStore

open SessionStore

/-! ### Requests that can be served -/

/-- The argument is a word that fits on a line. -/
structure IsArgument (t : Text) : Prop where
  isWord : Grammar.IsWord t
  lineFeed : CodePoint.ofChar '\n' ∉ t
  surrogate : Text.hasSurrogate t = false

instance (t : Text) : Decidable (IsArgument t) :=
  decidable_of_iff
    (Grammar.IsWord t ∧ CodePoint.ofChar '\n' ∉ t ∧ Text.hasSurrogate t = false)
    ⟨fun h => ⟨h.1, h.2.1, h.2.2⟩, fun h => ⟨h.isWord, h.lineFeed, h.surrogate⟩⟩

/-- The argument is the name of a profile that can have a file. -/
def IsName (l : Layout) (name : Text) : Prop :=
  IsArgument name ∧ ∃ raw, (ProfileName.text name).IsUsable l raw

namespace Request

/-- The arguments are fit for what they are: a name can have a file, there are pairs and they have
keys, and a port is an integer. The separators of a line in the trust file are not in what comes
before them. -/
def IsAdmissible (l : Layout) : Request → Prop
  | set name pairs =>
    IsName l name ∧ pairs ≠ [] ∧ ∀ pair ∈ pairs, IsArgument pair ∧ (Command.pair? pair).isSome
  | «show» name | delete name => IsName l name
  | list => True
  | addHostKey hostname port keytype keydata | checkHostKey hostname port keytype keydata =>
    (∀ t ∈ [hostname, port, keytype, keydata], IsArgument t) ∧
      CodePoint.ofChar '@' ∉ keytype ∧ CodePoint.ofChar ' ' ∉ hostname ∧
      (Decimal.integer? port).isSome

/-- Some arguments that name a host key, none of them missing. -/
def keyArguments (hostname port keytype keydata : Text) : HostKeyArguments :=
  ⟨some hostname, Decimal.integer? port, some keytype, some keydata⟩

/-- The command that a request stands for. -/
def command : Request → Command
  | set name pairs => .set name pairs
  | «show» name => .show name []
  | delete name => .delete name
  | list => .list
  | addHostKey hostname port keytype keydata =>
    .addHostKey (keyArguments hostname port keytype keydata)
  | checkHostKey hostname port keytype keydata =>
    .checkHostKey (keyArguments hostname port keytype keydata)

section HostKeys

variable {hostname port keytype keydata : Text} {i : Int}

theorem keyOf_eq (hi : Decimal.integer? port = some i) :
    keyOf hostname port keytype keydata = ⟨keytype, i, hostname, keydata⟩ := by
  rw [keyOf, hi, Option.getD_some]

theorem hostKey_keyArguments (hi : Decimal.integer? port = some i) :
    (keyArguments hostname port keytype keydata).hostKey =
      .ok (keyOf hostname port keytype keydata) := by
  rw [keyArguments, keyOf_eq hi, hi]
  rfl

theorem identity_keyArguments (hi : Decimal.integer? port = some i) :
    (keyArguments hostname port keytype keydata).identity =
      (keyOf hostname port keytype keydata).identity := by
  rw [HostKeyArguments.identity, hostKey_keyArguments hi, Except.bind]

theorem port_keyOf_lt (hi : Decimal.integer? port = some i) :
    (keyOf hostname port keytype keydata).port.natAbs < 10 ^ Decimal.maxDigits := by
  rw [keyOf_eq hi]
  exact Decimal.natAbs_lt_of_integer? hi

theorem isPlain_keyOf (h : ∀ t ∈ [hostname, port, keytype, keydata], IsArgument t)
    (ht : CodePoint.ofChar '@' ∉ keytype) (hh : CodePoint.ofChar ' ' ∉ hostname) :
    (keyOf hostname port keytype keydata).IsPlain := by
  have hfield : ∀ field ∈ [keytype, hostname, keydata], IsArgument field := by
    intro field hf
    refine h field ?_
    simp only [List.mem_cons, List.not_mem_nil, or_false] at hf ⊢
    rcases hf with rfl | rfl | rfl <;> simp
  exact ⟨⟨ht, hh⟩, fun field hf => (hfield field hf).lineFeed,
    fun field hf => (hfield field hf).surrogate⟩

end HostKeys

end Request

/-- The pair in an argument fits on a line. -/
theorem isWritable_of_pair? {arg : Text} {e : Text × Text} (h : IsArgument arg)
    (he : Command.pair? arg = some e) : Settings.IsWritable e := by
  have hcut : arg.cut? '=' = some (e.1, e.2) := (Option.filter_eq_some_iff.1 he).1
  have harg := Text.eq_append_of_cut? hcut
  have hkey : ∀ c ∈ e.1, c ∈ arg := fun c hc => by simp [harg, hc]
  have hvalue : ∀ c ∈ e.2, c ∈ arg := fun c hc => by simp [harg, hc]
  have hs := List.any_eq_false.1 h.surrogate
  exact ⟨Text.not_mem_of_cut? hcut, fun hc => h.lineFeed (hkey _ hc),
    fun hc => h.lineFeed (hvalue _ hc), List.any_eq_false.2 fun c hc => hs c (hkey c hc),
    List.any_eq_false.2 fun c hc => hs c (hvalue c hc)⟩

/-- A name without surrogates is read back from its bytes. -/
theorem decode_of_isUsable {l : Layout} {name : Text} {raw : Bytes} (h : IsArgument name)
    (hn : (ProfileName.text name).IsUsable l raw) : Utf8.decode raw = name := by
  obtain ⟨bytes, hb, hd⟩ := Utf8.exists_encode?_of_hasSurrogate_eq_false h.surrogate
  obtain rfl : raw = bytes := Option.some.inj (hn.raw_eq.symm.trans hb)
  exact hd

/-! ### Contents that are kept -/

namespace Contents

variable {s : SessionStore} {l : Layout} {c : Contents} {w w' : World} {r : Request}

/-- The files keep the contents, and all of it can be shown. -/
structure IsKept (l : Layout) (c : Contents) (w : World) : Prop where
  storage : Storage l (fun raw => c.profiles (Utf8.decode raw)) c.hostKeys w
  legible : ∀ name es, c.profiles name = some es →
    Text.hasSurrogate name = false ∧ ∀ e ∈ es, Settings.IsWritable e

theorem isKept_empty (h : l.IsPristine w) : IsKept l .empty w :=
  ⟨.pristine h, fun _ _ => nofun⟩

theorem IsKept.congr (h : c.IsKept l w) (ht : w.tree = w'.tree) (hh : w.here = w'.here) :
    c.IsKept l w' :=
  ⟨h.storage.congr ht hh, h.legible⟩

theorem IsKept.of_leavesFiles {α : Type} {x : StoreM α} {a : α} (h : c.IsKept l w)
    (hx : x.LeavesFiles) (hw' : x w = .ok a w') : c.IsKept l w' := by
  rw [← World.after_of_ok hw']
  exact ⟨h.storage.of_leavesFiles hx, h.legible⟩

/-- A request that changes nothing leaves the contents as they are. -/
theorem apply_eq_self (hp : r.profile? = none) (hk : r.hostKey? = none) : c.apply r = c := by
  simp [apply, hp, hk]

/-- The command of a request ends well, it answers, and what is stored afterwards is kept. -/
def IsServed (c : Contents) (r : Request) (s : SessionStore) (w : World) : Prop :=
  ∃ status lines w', r.command.run s w = .ok status w' ∧ w'.output = w.output ++ lines ∧
    c.Says r status lines ∧ (c.apply r).IsKept s.layout w'

/-- What a silent operation leaves of standard output. -/
theorem output_of_ok {α : Type} {x : StoreM α} {a : α} (hx : x.IsSilent) (h : x w = .ok a w') :
    w'.output = w.output := by
  rw [← hx w, World.after_of_ok h]

/-! ### Profiles -/

/-- What the files hold of the profiles after one of them was set or deleted. -/
theorem profiles_apply_decode {name : Text} {raw : Bytes} (hr : r.profile? = some name)
    (hd : Utf8.decode raw = name) :
    (fun other => (c.apply r).profiles (Utf8.decode other)) =
      ProfileMap.set (fun other => c.profiles (Utf8.decode other)) raw r.left := by
  funext other
  by_cases ho : other = raw
  · rw [ho, ProfileMap.set_self, hd]
    exact if_pos hr
  · rw [ProfileMap.set_of_ne _ ho, profiles_apply_of_ne]
    rw [hr, ← hd]
    exact fun he => ho (Utf8.decode_injective (Option.some.inj he)).symm

/-- The contents are kept when the files are those after one profile was set or deleted. -/
theorem IsKept.change {name : Text} {raw : Bytes} (h : c.IsKept l w) (hname : IsArgument name)
    (hn : (ProfileName.text name).IsUsable l raw) (hr : r.profile? = some name)
    (hk : r.hostKey? = none) (hl : ∀ es, r.left = some es → ∀ e ∈ es, Settings.IsWritable e)
    (hs : Storage l (ProfileMap.set (fun raw => c.profiles (Utf8.decode raw)) raw r.left)
      c.hostKeys w') : (c.apply r).IsKept l w' := by
  constructor
  · rw [profiles_apply_decode hr (decode_of_isUsable hname hn)]
    simpa [apply, hk] using hs
  · intro other es hes
    by_cases ho : r.profile? = some other
    · obtain rfl : name = other := Option.some.inj (hr.symm.trans ho)
      exact ⟨hname.surrogate, hl es ((if_pos hr).symm.trans hes)⟩
    · rw [profiles_apply_of_ne c ho] at hes
      exact h.legible other es hes

theorem IsKept.serve_set {name : Text} {pairs : List Text} (h : c.IsKept s.layout w)
    (ha : (Request.set name pairs).IsAdmissible s.layout) :
    c.IsServed (.set name pairs) s w := by
  obtain ⟨⟨hname, raw, hn⟩, -, hpairs⟩ := ha
  have hwritable : ∀ e ∈ pairs.filterMap Command.pair?, Settings.IsWritable e := by
    intro e he
    obtain ⟨arg, harg, he⟩ := List.mem_filterMap.1 he
    exact isWritable_of_pair? (hpairs arg harg).1 he
  obtain ⟨w', hw', hs⟩ := h.storage.save hn (isSavable_text hwritable)
  rw [texts_map_text] at hs
  have hall : pairs.find? (fun arg => (Command.pair? arg).isNone) = none := by
    refine List.find?_eq_none.2 ?_
    intro arg harg
    rw [Bool.not_eq_true, Option.isNone_eq_false_iff]
    exact (hpairs arg harg).2
  refine ⟨0, [], w', ?_, ?_, .set name pairs, h.change hname hn rfl rfl ?_ hs⟩
  · rw [Request.command, Command.run, hall]
    exact StoreM.bind_of_ok hw' _
  · rw [output_of_ok (onlyLogs_save s _ _).isSilent hw', List.append_nil]
  · rintro es ⟨⟩
    exact hwritable

theorem IsKept.serve_delete {name : Text} (h : c.IsKept s.layout w)
    (ha : (Request.delete name).IsAdmissible s.layout) : c.IsServed (.delete name) s w := by
  obtain ⟨hname, raw, hn⟩ := ha
  obtain ⟨w', hw', hs⟩ := h.storage.delete hn
  refine ⟨0, [], w', StoreM.bind_of_ok hw' _, ?_, .delete name, ?_⟩
  · rw [output_of_ok (onlyLogs_delete s _).isSilent hw', List.append_nil]
  · exact h.change hname hn rfl rfl nofun hs

/-- The line of a setting can be printed. -/
theorem hasSurrogate_shownLine {es : List (Text × Text)} {key : Text}
    (hes : ∀ e ∈ es, Settings.IsWritable e) (hkey : key ∈ OrderedMap.firstKeys es) :
    Text.hasSurrogate (shownLine es key) = false := by
  obtain ⟨v, hv⟩ := OrderedMap.exists_lastValue hkey
  have hw := hes _ (OrderedMap.mem_of_lastValue hv)
  have hread : Text.hasSurrogate (Settings.readBack v) = false := by
    refine List.any_eq_false.2 ?_
    intro c hc
    exact List.any_eq_false.1 hw.value_surrogate c ((Text.trimEnd_isPrefix _ _).subset hc)
  have hk : (Text.sanitized key).any CodePoint.isSurrogate = false :=
    Text.hasSurrogate_sanitized hw.key_surrogate
  have hl : (Settings.readBack v).sanitized.any CodePoint.isSurrogate = false :=
    Text.hasSurrogate_sanitized hread
  rw [shownLine, hv, Option.getD_some, Command.settingLine, Text.hasSurrogate, List.any_append,
    List.any_cons, hk, hl]
  decide

/-- Showing all keys of a record prints a line for each. -/
theorem printSettings_recordOf {es : List (Text × Text)} (hes : ∀ e ∈ es, Settings.IsWritable e)
    {keys : List Text} (hkeys : ∀ key ∈ keys, key ∈ OrderedMap.firstKeys es) (w : World) :
    Command.printSettings s (some (recordOf es)) (keys.map some) w =
      .ok () (w.print (keys.map (shownLine es))) := by
  have hmap : keys.map (shownLine es) =
      (keys.map some).map fun place => shownLine es (place.getD []) := by
    rw [List.map_map]
    rfl
  rw [hmap]
  refine StoreM.forM_of_print ?_ w
  intro place hplace w
  obtain ⟨key, hkey, rfl⟩ := List.mem_map.1 hplace
  obtain ⟨v, hv⟩ := OrderedMap.exists_lastValue (hkeys key hkey)
  have hread : s.readText (some (recordOf es)) key w = .ok (some (Settings.readBack v)) w := by
    rw [readText, Option.bind_some, get?_recordOf, hv]
    rfl
  have hline : shownLine es key = Command.settingLine key (Settings.readBack v) := by
    rw [shownLine, hv, Option.getD_some]
  refine (StoreM.bind_lift_of_ok rfl _ w).trans ((StoreM.bind_of_ok hread _).trans ?_)
  show StoreM.print (Command.settingLine key (Settings.readBack v)) w = _
  rw [← hline]
  exact StoreM.print_eq (hasSurrogate_shownLine hes (hkeys key hkey)) w

theorem IsKept.serve_show {name : Text} (h : c.IsKept s.layout w)
    (ha : (Request.show name).IsAdmissible s.layout) : c.IsServed (.show name) s w := by
  obtain ⟨hname, raw, hn⟩ := ha
  obtain ⟨w', hw'⟩ := h.storage.openForRead hn
  rw [decode_of_isUsable hname hn] at hw'
  have hout := output_of_ok (onlyLogs_openForRead s _).isSilent hw'
  have hkept := h.of_leavesFiles (leavesFiles_openForRead s _) hw'
  rw [IsServed, apply_eq_self rfl rfl]
  cases hes : c.profiles name with
  | none =>
    rw [hes] at hw'
    have hsilent := output_of_ok (w := w') (StoreM.isSilent_tell rfl)
      (rfl : StoreM.tell (.complained (Command.noSession name)) w' = .ok () _)
    refine ⟨1, [], _, StoreM.bind_of_ok hw' _, ?_, .unknown hes, hkept.congr rfl rfl⟩
    rw [List.append_nil]
    exact hsilent.trans hout
  | some es =>
    rw [hes] at hw'
    have hprint := printSettings_recordOf (s := s) (h.legible name es hes).2
      (fun key hkey => (Text.perm_sort _).mem_iff.1 hkey) w'
    refine ⟨0, _, w'.print ((Text.sort (OrderedMap.firstKeys es)).map (shownLine es)), ?_, ?_,
      .known hes (Text.perm_sort _) (Text.pairwise_sort _), hkept.congr rfl rfl⟩
    · refine (StoreM.bind_of_ok hw' _).trans ?_
      show (Command.printSettings s (some (recordOf es))
        ((Text.sort (recordOf es).keys).map some) >>= fun _ => pure 0) w' = _
      rw [keys_recordOf]
      exact StoreM.bind_of_ok hprint _
    · rw [World.output_print, hout]

/-- A name has settings exactly if it is read from bytes that have. -/
theorem IsKept.exists_raw_iff (h : c.IsKept l w) (name : Text) :
    (∃ raw, (c.profiles (Utf8.decode raw)).isSome ∧ name = Utf8.decode raw) ↔
      (c.profiles name).isSome := by
  constructor
  · rintro ⟨raw, hraw, rfl⟩
    exact hraw
  · intro hname
    obtain ⟨es, hes⟩ := Option.isSome_iff_exists.1 hname
    obtain ⟨raw, -, hd⟩ := Utf8.exists_encode?_of_hasSurrogate_eq_false (h.legible name es hes).1
    exact ⟨raw, by rwa [hd], hd.symm⟩

theorem IsKept.serve_list (h : c.IsKept s.layout w) : c.IsServed .list s w := by
  obtain ⟨names, hw', hone, hall⟩ := h.storage.list
  have hlive : ∀ name, name ∈ names ↔ (c.profiles name).isSome := by
    intro name
    rw [hall, h.exists_raw_iff]
  have hprint : names.forM (fun name => StoreM.print name.sanitized) w =
      .ok () (w.print (names.map Text.sanitized)) := by
    refine StoreM.forM_of_print ?_ w
    intro name hname w
    refine StoreM.print_eq ?_ w
    obtain ⟨es, hes⟩ := Option.isSome_iff_exists.1 ((hlive name).1 hname)
    exact Text.hasSurrogate_sanitized (h.legible name es hes).1
  refine ⟨0, _, w.print (names.map Text.sanitized), ?_, w.output_print _, .list hone hlive, ?_⟩
  · exact (StoreM.bind_of_ok hw' _).trans (StoreM.bind_of_ok hprint _)
  · rw [apply_eq_self rfl rfl]
    exact h.congr rfl rfl

/-! ### Host keys -/

theorem IsKept.serve_addHostKey {hostname port keytype keydata : Text} (h : c.IsKept s.layout w)
    (ha : (Request.addHostKey hostname port keytype keydata).IsAdmissible s.layout) :
    c.IsServed (.addHostKey hostname port keytype keydata) s w := by
  obtain ⟨hall, ht, hh, hp⟩ := ha
  obtain ⟨i, hi⟩ := Option.isSome_iff_exists.1 hp
  have hplain := Request.isPlain_keyOf hall ht hh
  obtain ⟨w', hw', hs⟩ := h.storage.record hplain (Request.port_keyOf_lt hi)
  refine ⟨0, [], w', ?_, ?_, .addHostKey hostname port keytype keydata, hs, h.legible⟩
  · exact (StoreM.bind_lift_of_ok (Request.hostKey_keyArguments hi) _ w).trans
      (StoreM.bind_of_ok hw' _)
  · rw [output_of_ok (TrustFile.onlyLogs_record _ _).isSilent hw', List.append_nil]

theorem IsKept.serve_checkHostKey {hostname port keytype keydata : Text}
    (h : c.IsKept s.layout w)
    (ha : (Request.checkHostKey hostname port keytype keydata).IsAdmissible s.layout) :
    c.IsServed (.checkHostKey hostname port keytype keydata) s w := by
  obtain ⟨hall, ht, hh, hp⟩ := ha
  obtain ⟨i, hi⟩ := Option.isSome_iff_exists.1 hp
  have hplain := Request.isPlain_keyOf hall ht hh
  obtain ⟨w', hw'⟩ := h.storage.verify hplain.toIsLegible (Request.port_keyOf_lt hi)
  have hcheck : TrustFile.check s.layout
      (Request.keyArguments hostname port keytype keydata).identity
      (fun k => some k = some keydata) w =
      .ok (HostKey.answer c.hostKeys (Request.keyOf hostname port keytype keydata)) w' := by
    have hagrees : (fun k => decide (some k = some keydata)) = fun k => decide (k = keydata) :=
      funext fun k => decide_eq_decide.2 Option.some_inj
    rw [← hw', TrustFile.verify, Request.identity_keyArguments hi, hagrees, Request.keyOf]
  have hkept := h.of_leavesFiles (TrustFile.leavesFiles_verify s.layout _) hw'
  let verdict := HostKey.answer c.hostKeys (Request.keyOf hostname port keytype keydata)
  refine ⟨_, _, w'.print [verdict.word], ?_, ?_, .checkHostKey rfl, ?_⟩
  · exact (StoreM.bind_of_ok hcheck _).trans
      (StoreM.bind_of_ok (StoreM.print_eq (HostKey.Verdict.hasSurrogate_word _) w') _)
  · rw [World.output_print, output_of_ok (TrustFile.onlyLogs_check _ _ _).isSilent hcheck]
  · rw [apply_eq_self rfl rfl]
    exact hkept.congr rfl rfl

/-! ### Any request -/

/-- **Every request is served**, by the command that it stands for. -/
theorem IsKept.serve (h : c.IsKept s.layout w) (ha : r.IsAdmissible s.layout) :
    c.IsServed r s w := by
  cases r with
  | set name pairs => exact h.serve_set ha
  | «show» name => exact h.serve_show ha
  | delete name => exact h.serve_delete ha
  | list => exact h.serve_list
  | addHostKey => exact h.serve_addHostKey ha
  | checkHostKey => exact h.serve_checkHostKey ha

end Contents

end ClientStore
