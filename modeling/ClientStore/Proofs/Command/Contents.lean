import ClientStore.Command.Run
import ClientStore.Proofs.HostKey.Line
import ClientStore.Proofs.OrderedMap
import ClientStore.Proofs.Settings
import ClientStore.Proofs.Text.Order
import Mathlib.Data.List.Nodup

/-!
# What the user knows to be stored

The user deals with the stores one command at a time, by names of profiles and by texts that spell
host keys. What is stored is then a map from names to settings and a list of host keys. A request
changes them or asks about them, and the answer to a question is known but for the order in which
names are listed.

Nothing here is about files: this is the abstract side of the refinement in
`ClientStore.Proofs.Command.History`.

## Main definitions

* `Request` — what the user asks for.
* `Contents`, `Contents.apply`, `Contents.after` — what is stored, and how requests change it.
* `Contents.Says` — the answers to requests.
* `Request.Concerns` — whether a request changes what another one is about.

## Main results

* `Contents.profiles_after_eq_some_iff` — a profile is what it was set to last.
* `Contents.Says.same` — a request that does not concern another one leaves its answer alone.
-/

namespace ClientStore

/-! ### Requests -/

/-- What the user asks of the stores under one root. -/
inductive Request where
  | set (name : Text) (pairs : List Text)
  | show (name : Text)
  | delete (name : Text)
  | list
  | addHostKey (hostname port keytype keydata : Text)
  | checkHostKey (hostname port keytype keydata : Text)

namespace Request

/-- The key that some arguments spell. -/
def keyOf (hostname port keytype keydata : Text) : HostKey :=
  ⟨keytype, (Decimal.integer? port).getD 0, hostname, keydata⟩

/-- The name of the profile that a request sets or deletes. -/
def profile? : Request → Option Text
  | set name _ | delete name => some name
  | _ => none

/-- The settings that a request leaves of the profile that it sets or deletes. -/
def left : Request → Option (List (Text × Text))
  | set _ pairs => some (pairs.filterMap Command.pair?)
  | _ => none

/-- The host key that a request adds. -/
def hostKey? : Request → Option HostKey
  | addHostKey hostname port keytype keydata => some (keyOf hostname port keytype keydata)
  | _ => none

/-- Whether the first request changes what the second one is about. A listing is about each name on
its own, which `SameLines` takes into account. -/
def Concerns (r : Request) : Request → Prop
  | «show» name => r.profile? = some name
  | checkHostKey hostname port keytype keydata =>
    ∃ k, r.hostKey? = some k ∧ k.subject = (keyOf hostname port keytype keydata).subject
  | _ => False

/-- The same lines are given to a request before and after another one. A listing is in no order,
and the line of the profile that is set or deleted in between may come or go. -/
def SameLines (r : Request) : Request → List Text → List Text → Prop
  | list, lines, lines' =>
    (lines.filter fun line => some line ≠ r.profile?.map Text.sanitized).Perm
      (lines'.filter fun line => some line ≠ r.profile?.map Text.sanitized)
  | _, lines, lines' => lines = lines'

end Request

/-! ### What is stored -/

/-- What is stored under a root. -/
structure Contents where
  /-- The settings of the profiles as they were given, in order and with repetitions. -/
  profiles : Text → Option (List (Text × Text))
  /-- The host keys in the order in which they were added. -/
  hostKeys : List HostKey

namespace Contents

/-- Nothing is stored. -/
def empty : Contents := ⟨fun _ => none, []⟩

/-- What is stored after a request. -/
def apply (c : Contents) (r : Request) : Contents where
  profiles name := if r.profile? = some name then r.left else c.profiles name
  hostKeys := c.hostKeys ++ r.hostKey?.toList

/-- What is stored after some requests, if nothing was stored before. -/
def after (history : List Request) : Contents := history.foldl apply empty

variable {c : Contents} {r q : Request} {history : List Request} {name : Text}

theorem after_concat (history : List Request) (r : Request) :
    after (history ++ [r]) = (after history).apply r :=
  List.foldl_append

theorem profiles_apply_of_ne (c : Contents) (h : r.profile? ≠ some name) :
    (c.apply r).profiles name = c.profiles name :=
  if_neg h

/-- Requests that do not set or delete a profile leave it as it is. -/
theorem profiles_after_append {later : List Request}
    (h : ∀ r ∈ later, r.profile? ≠ some name) :
    (after (history ++ later)).profiles name = (after history).profiles name := by
  induction later using List.reverseRecOn with
  | nil => rw [List.append_nil]
  | append_singleton later r ih =>
    rw [← List.append_assoc, after_concat, profiles_apply_of_ne _ (h r (by simp))]
    exact ih fun r' hr' => h r' (List.mem_append_left _ hr')

/-- **A profile is what it was set to last**, unless it was deleted after that. -/
theorem profiles_after_eq_some_iff {es : List (Text × Text)} :
    (after history).profiles name = some es ↔
      ∃ before pairs later, history = before ++ .set name pairs :: later ∧
        pairs.filterMap Command.pair? = es ∧ ∀ r ∈ later, r.profile? ≠ some name := by
  constructor
  · intro h
    induction history using List.reverseRecOn with
    | nil => contradiction
    | append_singleton history r ih =>
      rw [after_concat] at h
      -- the last request decides, or it leaves the decision to the ones before it
      by_cases hr : r.profile? = some name
      · have hleft : r.left = some es := (if_pos hr).symm.trans h
        cases r with
        | set other pairs =>
          obtain rfl : other = name := Option.some.inj hr
          exact ⟨history, pairs, [], rfl, Option.some.inj hleft, by simp⟩
        | _ => contradiction
      · rw [profiles_apply_of_ne _ hr] at h
        obtain ⟨before, pairs, later, rfl, hes, hlater⟩ := ih h
        refine ⟨before, pairs, later ++ [r], by simp, hes, ?_⟩
        intro r' hr'
        rcases List.mem_append.1 hr' with hr' | hr'
        · exact hlater r' hr'
        · rwa [List.mem_singleton.1 hr']
  · rintro ⟨before, pairs, later, rfl, rfl, hlater⟩
    rw [List.append_cons, profiles_after_append hlater, after_concat]
    exact if_pos rfl

/-- The host keys are those that were added, in order. -/
theorem hostKeys_after (history : List Request) :
    (after history).hostKeys = history.filterMap Request.hostKey? := by
  induction history using List.reverseRecOn with
  | nil => rfl
  | append_singleton history r ih =>
    rw [after_concat, List.filterMap_append, ← ih]
    cases hk : r.hostKey? <;> simp [apply, hk]

/-! ### Answers -/

/-- The line that is shown of a key: its last value, as it is read back. -/
def shownLine (es : List (Text × Text)) (key : Text) : Text :=
  Command.settingLine key (Settings.readBack ((OrderedMap.lastValue es key).getD []))

/-- The exit status and the lines on standard output that a request is answered with. -/
inductive Says (c : Contents) : Request → Nat → List Text → Prop
  | set (name : Text) (pairs : List Text) : Says c (.set name pairs) 0 []
  | delete (name : Text) : Says c (.delete name) 0 []
  /-- There is no such profile. -/
  | unknown {name : Text} (h : c.profiles name = none) : Says c (.show name) 1 []
  /-- Every key has one line, and the keys are in order. -/
  | known {name : Text} {es : List (Text × Text)} {keys : List Text}
      (h : c.profiles name = some es) (hkeys : keys.Perm (OrderedMap.firstKeys es))
      (horder : keys.Pairwise fun s t => Text.le s t = true) :
      Says c (.show name) 0 (keys.map (shownLine es))
  /-- Every profile is listed once. -/
  | list {names : List Text} (hone : names.Nodup)
      (hall : ∀ name, name ∈ names ↔ (c.profiles name).isSome) :
      Says c .list 0 (names.map Text.sanitized)
  | addHostKey (hostname port keytype keydata : Text) :
      Says c (.addHostKey hostname port keytype keydata) 0 []
  /-- The first key that was added for the same subject decides. -/
  | checkHostKey {hostname port keytype keydata : Text} {verdict : HostKey.Verdict}
      (h : HostKey.answer c.hostKeys (Request.keyOf hostname port keytype keydata) = verdict) :
      Says c (.checkHostKey hostname port keytype keydata) verdict.status [verdict.word]

/-- Listings of the same names, those apart that look like one line, have the same other lines. -/
theorem perm_filter_map_sanitized {names names' : List Text} {line : Option Text}
    (hone : names.Nodup) (hone' : names'.Nodup)
    (h : ∀ t : Text, some t.sanitized ≠ line → (t ∈ names ↔ t ∈ names')) :
    ((names.map Text.sanitized).filter fun t => some t ≠ line).Perm
      ((names'.map Text.sanitized).filter fun t => some t ≠ line) := by
  rw [List.filter_map, List.filter_map]
  refine .map _ ((List.perm_ext_iff_of_nodup (hone.filter _) (hone'.filter _)).2 ?_)
  intro t
  rw [List.mem_filter, List.mem_filter]
  refine and_congr_left ?_
  intro ht
  exact h t (by simpa using ht)

/-- **A request that does not concern another one leaves its answer alone.** -/
theorem Says.same {status status' : Nat} {lines lines' : List Text} (hn : ¬ r.Concerns q)
    (h : c.Says q status lines) (h' : (c.apply r).Says q status' lines') :
    status = status' ∧ r.SameLines q lines lines' := by
  cases h with
  | set name pairs | delete name | addHostKey => cases h' with | _ => exact ⟨rfl, rfl⟩
  | unknown h =>
    rw [← profiles_apply_of_ne c hn] at h
    cases h' with
    | unknown => exact ⟨rfl, rfl⟩
    | known h' => exact absurd (h.symm.trans h') (by simp)
  | known h hkeys horder =>
    rw [← profiles_apply_of_ne c hn] at h
    cases h' with
    | unknown h' => exact absurd (h.symm.trans h') (by simp)
    | known h' hkeys' horder' =>
      obtain rfl := Option.some.inj (h.symm.trans h')
      obtain rfl := Text.eq_of_perm_of_pairwise (hkeys.trans hkeys'.symm) horder horder'
      exact ⟨rfl, rfl⟩
  | list hone hall =>
    cases h' with
    | list hone' hall' =>
      refine ⟨rfl, perm_filter_map_sanitized hone hone' ?_⟩
      intro t ht
      have hne : r.profile? ≠ some t := fun he => ht (by rw [he, Option.map_some])
      rw [hall, hall', profiles_apply_of_ne c hne]
  | checkHostKey h =>
    cases h' with
    | checkHostKey h' =>
      have hsame : HostKey.answer (c.apply r).hostKeys _ = HostKey.answer c.hostKeys _ :=
        HostKey.answer_append_of_forall_ne fun j hj he => hn ⟨j, Option.mem_toList.1 hj, he⟩
      obtain rfl := h.symm.trans (hsame.symm.trans h')
      exact ⟨rfl, rfl⟩

end Contents

end ClientStore
