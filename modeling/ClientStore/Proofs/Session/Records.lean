import ClientStore.Proofs.Decimal
import ClientStore.Proofs.Journal
import ClientStore.Proofs.Session.Store

/-!
# Reading while profiles change

Records of profiles are open, any number of them and under any number of numbers, while profiles are
saved and deleted. Every record answers from what was in the file when the record was opened. What
it does not have, the resource table has, and what that does not have either, the source of defaults
is asked for.

What a record answers from, and for what the source of defaults was asked, is said here of the calls
alone, the latest first. That the stores do the same is an induction on the calls with two
invariants: every record is a copy of the content it answers from, and the journal has the questions
of the reads so far.

## Main definitions

* `SessionStore.Call`, `SessionStore.Desk`, `SessionStore.desk` — calls, and what they leave.
* `SessionStore.snapshot` — the content that a record answers from.
* `SessionStore.layered`, `SessionStore.questions` — the value of a key, and the questions asked for
  values.

## Main results

* `SessionStore.isCopyOf_snapshot`, `SessionStore.asked_desk` — the invariants.
* `SessionStore.readAs_of_calls` — what any read gives after any calls.
-/

namespace ClientStore

/-- The value of a key in the content of a file: that on the last line with the key. -/
def Settings.valueIn (key : Text) (content : Bytes) : Option Text :=
  OrderedMap.lastValue ((Utf8.decode content).lines.filterMap parseLine?) key

theorem Settings.get?_ofText_decode (content : Bytes) (key : Text) :
    (ofText (Utf8.decode content)).get? key = valueIn key content :=
  OrderedMap.get?_ofList _ key

/-- The key that the source of defaults was asked for. -/
def Event.asked? : Event → Option Text
  | asked key => some key
  | _ => none

/-- The keys that the source of defaults was asked for, in order. -/
def World.asked (w : World) : List Text := w.journal.filterMap Event.asked?

namespace SessionStore

/-! ### Ways to read -/

/-- The kinds of values that are read. -/
inductive Reading where
  | text
  | integer (default : Int)
  | font
  | path

namespace Reading

/-- What a value, or its absence, is read as. -/
def answer : Reading → Option Text → Option SettingValue
  | text, v => v.map .text
  | integer default, v => some (.integer (v.elim default Decimal.leadingValue))
  | font, v => v.map .font
  | path, v => v.map .file

/-- The value is not a number of too many digits. -/
def Understands : Reading → Text → Prop
  | integer _, v => (Decimal.leadingDigits v).length ≤ Decimal.maxDigits
  | _, _ => True

/-- What a value is read as, unless it is a number of too many digits. -/
def interpret : Reading → Option Text → Except Failure (Option SettingValue)
  | integer default, none => .ok (some (.integer default))
  | integer _, some v => (Decimal.leading v).map fun i => some (.integer i)
  | reading, v => .ok (reading.answer v)

theorem interpret_eq {reading : Reading} {v : Option Text}
    (h : ∀ t, v = some t → reading.Understands t) :
    reading.interpret v = .ok (reading.answer v) := by
  cases reading with
  | integer default =>
    cases v with
    | none => rfl
    | some t =>
      rw [interpret, Decimal.leading_eq (h t rfl)]
      rfl
  | _ => rfl

end Reading

/-- Reads the value of a key in one of the ways. -/
def readAs (s : SessionStore) (record : SessionRecord) (key : Text) :
    Reading → StoreM (Option SettingValue)
  | .text => do return (← s.readText record key).map .text
  | .integer default => do return some (.integer (← s.readInteger record key default))
  | .font => s.readFont record key
  | .path => s.readPath record key

/-- In every way, it is the text that is read. -/
theorem readAs_eq (s : SessionStore) (record : SessionRecord) (key : Text) (reading : Reading) :
    s.readAs record key reading =
      s.readText record key >>= fun v => liftM (reading.interpret v) := by
  cases reading with
  | integer default =>
    rw [readAs, readInteger, bind_assoc]
    congr 1
    funext v
    cases v with
    | none => rfl
    | some t =>
      rw [Reading.interpret]
      dsimp only
      cases Decimal.leading t with
      | ok i => rfl
      | error f => rfl
  | _ => rfl

/-! ### Layers -/

/-- The value of a key: that in the content if it has one, or else that in the table, or else that
of the source of defaults. -/
def layered (s : SessionStore) (content : Option Bytes) (key : Text) : Option Text :=
  (content.bind (Settings.valueIn key)).or
    ((s.resources.values.get? key).or (s.resources.default?.bind fun answer => answer key))

/-- What the source of defaults, if there is one, is asked for the value of a key: the key, if
neither the content nor the table has a value. -/
def question (s : SessionStore) (content : Option Bytes) (key : Text) : List Text :=
  if content.bind (Settings.valueIn key) = none ∧ s.resources.values.get? key = none ∧
      s.resources.default?.isSome = true then [key]
  else []

/-- The record has the values of the content, and no others. -/
def IsCopyOf (content : Option Bytes) (record : SessionRecord) : Prop :=
  ∀ key, record.bind (·.get? key) = content.bind (Settings.valueIn key)

variable {s : SessionStore} {w : World} {content : Option Bytes} {record : SessionRecord}

/-- **A key that is read has the value of the layers**, and no question is asked but theirs. -/
theorem readText_eq (h : IsCopyOf content record) (s : SessionStore) (key : Text) (w : World) :
    s.readText record key w = .ok (s.layered content key)
      { w with journal := w.journal ++ (s.question content key).map .asked } := by
  rw [readText, h key, layered, question]
  cases content.bind (Settings.valueIn key) with
  | some v => simp [pure, EStateM.pure]
  | none =>
    rw [fallback, ResourceTable.source]
    cases s.resources.values.get? key with
    | some v => simp [pure, EStateM.pure]
    | none =>
      cases s.resources.default? with
      | some answer => rfl
      | none => simp [pure, EStateM.pure]

/-! ### Calls -/

/-- What can be done with a store while records are open. The caller numbers the records. -/
inductive Call where
  | save (name : ProfileName) (entries : List (Text × SettingValue))
  | delete (name : ProfileName)
  | openForRead (n : Nat) (name : ProfileName)
  | read (n : Nat) (key : Text) (reading : Reading)
  | close (n : Nat)

/-- A world, and the records that the caller has in it. A number under which nothing was opened has
no record. -/
structure Desk where
  world : World
  records : Nat → SessionRecord

/-- What a call leaves, whether it fails or not. If a record cannot be opened, there is none under
its number. -/
def Desk.perform (s : SessionStore) (d : Desk) : Call → Desk
  | .save name entries => { d with world := d.world.after (s.save name entries) }
  | .delete name => { d with world := d.world.after (s.delete name) }
  | .openForRead n name =>
    { world := d.world.after (s.openForRead name)
      records := Function.update d.records n
        (d.world.outcome (s.openForRead name)).toOption.join }
  | .read n key reading => { d with world := d.world.after (s.readAs (d.records n) key reading) }
  | .close n => { d with records := Function.update d.records n (d.records n).close }

/-- What some calls leave, the latest of which comes first. -/
def desk (s : SessionStore) (w : World) : List Call → Desk
  | [] => ⟨w, fun _ => none⟩
  | call :: earlier => (s.desk w earlier).perform s call

/-- The content that a record answers from after some calls, the latest of which comes first: what
the file of its profile held when the record was opened last, unless it was closed after that. -/
def snapshot (s : SessionStore) (w : World) (n : Nat) : List Call → Option Bytes
  | [] => none
  | .openForRead m name :: earlier =>
    if m = n then (s.layout.session name).toOption.bind (s.desk w earlier).world.content?
    else s.snapshot w n earlier
  | .close m :: earlier => if m = n then none else s.snapshot w n earlier
  | _ :: earlier => s.snapshot w n earlier

/-- The questions for the source of defaults that come from the reads among some calls, the latest
of which comes first. -/
def questions (s : SessionStore) (w : World) : List Call → List Text
  | [] => []
  | .read n key _ :: earlier => s.questions w earlier ++ s.question (s.snapshot w n earlier) key
  | _ :: earlier => s.questions w earlier

/-! ### What a call preserves -/

theorem isCopyOf_none : IsCopyOf none none := fun _ => rfl

/-- A closed record has no values. -/
theorem isCopyOf_close (record : SessionRecord) : IsCopyOf none record.close := by
  intro key
  cases record <;> rfl

theorem isCopyOf_ofText_decode (content : Bytes) :
    IsCopyOf (some content) (some (Settings.ofText (Utf8.decode content))) :=
  fun key => Settings.get?_ofText_decode content key

/-- What is opened is a copy of what the file holds. -/
theorem isCopyOf_openForRead (s : SessionStore) (name : ProfileName) (w : World) :
    IsCopyOf ((s.layout.session name).toOption.bind w.content?)
      (w.outcome (s.openForRead name)).toOption.join := by
  rw [outcome_openForRead]
  cases s.layout.session name with
  | error f => exact isCopyOf_none
  | ok path =>
    show IsCopyOf (w.content? path) (path.bytes.map _).toOption.join
    cases hb : path.bytes with
    | error f =>
      rw [Disk.content?_of_bytes hb]
      exact isCopyOf_none
    | ok b =>
      show IsCopyOf (w.content? path) ((w.content? path).map _)
      cases w.content? path with
      | none => exact isCopyOf_none
      | some c => exact isCopyOf_ofText_decode c

theorem asked_after {α : Type} {x : StoreM α} (hx : x.OnlyLogs) (w : World) :
    (w.after x).asked = w.asked :=
  hx.filterMap_journal (f := Event.asked?) (fun _ _ => rfl) w

/-- What a read leaves, whether the value is understood or not. -/
theorem asked_after_readAs (h : IsCopyOf content record) (s : SessionStore) (key : Text)
    (reading : Reading) (w : World) :
    (w.after (s.readAs record key reading)).asked = w.asked ++ s.question content key := by
  have hread := StoreM.bind_of_ok (readText_eq h s key w) fun v =>
    (liftM (reading.interpret v) : StoreM (Option SettingValue))
  rw [readAs_eq, World.after_congr hread, StoreM.Preserves.lift (f := World.asked), World.asked,
    List.filterMap_append, ← World.asked]
  congr 1
  rw [List.filterMap_map]
  exact List.filterMap_some

/-! ### What any calls preserve -/

/-- **Every record is a copy of its snapshot**, whatever has become of the profiles. -/
theorem isCopyOf_snapshot (s : SessionStore) (w : World) (calls : List Call) (n : Nat) :
    IsCopyOf (s.snapshot w n calls) ((s.desk w calls).records n) := by
  induction calls with
  | nil => exact isCopyOf_none
  | cons call earlier ih =>
    cases call with
    | openForRead m name =>
      rw [snapshot, desk, Desk.perform]
      dsimp only
      by_cases hm : m = n
      · rw [if_pos hm, hm, Function.update_self]
        exact isCopyOf_openForRead s name _
      · rw [if_neg hm, Function.update_of_ne (Ne.symm hm)]
        exact ih
    | close m =>
      rw [snapshot, desk, Desk.perform]
      dsimp only
      by_cases hm : m = n
      · rw [if_pos hm, hm, Function.update_self]
        exact isCopyOf_close _
      · rw [if_neg hm, Function.update_of_ne (Ne.symm hm)]
        exact ih
    | save name entries => exact ih
    | delete name => exact ih
    | read m key reading => exact ih

/-- **The source of defaults was asked the questions of the reads**, each once, and nothing else. -/
theorem asked_desk (s : SessionStore) (w : World) (calls : List Call) :
    (s.desk w calls).world.asked = w.asked ++ s.questions w calls := by
  induction calls with
  | nil => exact (List.append_nil _).symm
  | cons call earlier ih =>
    cases call with
    | save name entries => exact (asked_after (onlyLogs_save s name entries) _).trans ih
    | delete name => exact (asked_after (onlyLogs_delete s name) _).trans ih
    | openForRead n name => exact (asked_after (onlyLogs_openForRead s name) _).trans ih
    | read n key reading =>
      rw [desk, Desk.perform, asked_after_readAs (isCopyOf_snapshot s w earlier n), ih, questions,
        List.append_assoc]
    | close n => exact ih

/-- **What any read gives after any calls.** It gives the value that the snapshot of the record has,
or else the table, or else the source of defaults; and that source has been asked for exactly the
keys of those reads, this one included, for which neither a snapshot nor the table had a value. -/
theorem readAs_of_calls (s : SessionStore) (w : World) (calls : List Call) (n : Nat) (key : Text)
    (reading : Reading)
    (hv : ∀ v, s.layered (s.snapshot w n calls) key = some v → reading.Understands v) :
    ∃ w', s.readAs ((s.desk w calls).records n) key reading (s.desk w calls).world =
        .ok (reading.answer (s.layered (s.snapshot w n calls) key)) w' ∧
      w'.asked = w.asked ++ s.questions w (.read n key reading :: calls) := by
  have hcopy := isCopyOf_snapshot s w calls n
  obtain ⟨w', hread⟩ : ∃ w',
      s.readAs ((s.desk w calls).records n) key reading (s.desk w calls).world =
        .ok (reading.answer (s.layered (s.snapshot w n calls) key)) w' := by
    rw [readAs_eq, StoreM.bind_of_ok (readText_eq hcopy s key _)]
    exact ⟨_, StoreM.lift_of_ok (Reading.interpret_eq hv) _⟩
  refine ⟨w', hread, ?_⟩
  rw [← asked_desk, desk, Desk.perform, World.after_of_ok hread]

/-- A table in which the host is empty, and a source of defaults that knows a color. -/
def sampleLayers : SessionStore :=
  ⟨.sample, ⟨.ofList [("Host", "")], some fun key => if key = "Color" then some "red" else none⟩⟩

/-- A profile is saved, opened and deleted, and then its color is read. The latest comes first. -/
def sampleCalls : List Call :=
  [.read 0 "Color" .text, .delete (.text "a"), .openForRead 0 (.text "a"),
    .save (.text "a") [("Port", .text "22")]]

/-- The record still has the port, the table has the host, and nobody was asked for either. -/
theorem readAs_of_sampleCalls :
    (∃ w', sampleLayers.readAs ((sampleLayers.desk .bare sampleCalls).records 0) "Port"
        (.integer 80) (sampleLayers.desk .bare sampleCalls).world = .ok (some (.integer 22)) w' ∧
      w'.asked = [("Color" : Text)]) ∧
    ∃ w', sampleLayers.readAs ((sampleLayers.desk .bare sampleCalls).records 0) "Host" .font
        (sampleLayers.desk .bare sampleCalls).world = .ok (some (.font [])) w' ∧
      w'.asked = [("Color" : Text)] := by
  have hport : sampleLayers.layered (sampleLayers.snapshot .bare 0 sampleCalls) "Port" =
      some ("22" : Text) := by decide +kernel
  have hhost : sampleLayers.layered (sampleLayers.snapshot .bare 0 sampleCalls) "Host" =
      some ([] : Text) := by decide +kernel
  constructor
  · obtain ⟨w', hread, hasked⟩ :=
      readAs_of_calls sampleLayers .bare sampleCalls 0 "Port" (.integer 80) fun v hv => by
        obtain rfl : ("22" : Text) = v := Option.some.inj (hport.symm.trans hv)
        show (Decimal.leadingDigits "22").length ≤ Decimal.maxDigits
        decide
    rw [hport] at hread
    refine ⟨w', hread, hasked.trans ?_⟩
    decide +kernel
  · obtain ⟨w', hread, hasked⟩ :=
      readAs_of_calls sampleLayers .bare sampleCalls 0 "Host" .font fun _ _ => trivial
    rw [hhost] at hread
    refine ⟨w', hread, hasked.trans ?_⟩
    decide +kernel

end SessionStore

end ClientStore
