import ClientStore.Proofs.Additions
import ClientStore.Proofs.HostKey.Store
import ClientStore.Proofs.Session.Store

/-!
# What a store reports

Seen from outside, a store is its answers to three questions: which settings a profile has, which
profiles there are, and what the trust file says about a key. The answers are a matter of what can
be read at some paths, and of which entries of the sessions directory show as profiles.

A change can lose something that was reported, or it can bring something to light. The two are
settled one at a time: nothing is lost if what could be read and what did show still does, and
nothing is brought to light if the same is true the other way round.

## Main definitions

* `SessionStore.nameSet` — the names that are listed.
* `Layout.Retains` — what can be read and what shows in one world does so in another.
* `SessionStore.StillReports`, `SessionStore.ReportsAlike` — what two worlds have to do with each
  other if nothing is lost, and if nothing is brought to light, either.

## Main results

* `SessionStore.nameSet_eq` — which names are listed.
* `Layout.retains_of_adds` — what is only added to loses nothing.
* `Layout.Retains.stillReports`, `Layout.Retains.reportsAlike` — the answers.
-/

namespace ClientStore

open FileTree

/-- The names that the store lists. -/
def SessionStore.nameSet (s : SessionStore) (w : World) : Except Failure (Set Text) :=
  (w.outcome s.list).map fun names => {t | t ∈ names}

/-- **The names that are listed** are those that the entries show as. -/
theorem SessionStore.nameSet_eq (s : SessionStore) (w : World) :
    s.nameSet w = s.layout.sessions.bytes.map fun _ =>
      {t | ∃ b, s.layout.Lists w b ∧ ProfileName.listed? (Utf8.decode b) = some t} := by
  rw [nameSet]
  cases hb : s.layout.sessions.bytes with
  | error f =>
    rw [World.outcome_of_error (list_of_error hb w)]
    rfl
  | ok path =>
    obtain ⟨names, h, hmem⟩ := exists_list_eq hb w
    rw [World.outcome_of_ok h]
    exact congrArg Except.ok (Set.ext hmem)

/-! ### What is retained -/

namespace Layout

variable {l : Layout} {w w' w'' : World} {b : Bytes} {allowed : Place → Node → Prop}

theorem Lists.congr (h : l.Lists w b) (ht : w.tree = w'.tree) (hh : w.here = w'.here) :
    l.Lists w' b := by
  obtain ⟨path, d, node, hb, hd, hn, hr⟩ := h
  refine ⟨path, d, node, hb, by rwa [← ht, ← hh], by rwa [← ht], ?_⟩
  rw [Cursor.isRegular_iff, Cursor.LeadsToFile] at hr ⊢
  rwa [← ht, ← hh]

/-- An entry that shows still does when something is added. -/
theorem Lists.of_adds (h : l.Lists w b) (hw : w.IsSound) (ha : w.Adds w' allowed) :
    l.Lists w' b := by
  obtain ⟨path, d, node, hb, hd, hn, hr⟩ := h
  have hlocate {q : Bytes} {s : Spot} (hs : w.tree.locate w.here .denoted q = .ok s) :
      w'.tree.locate w'.here .denoted q = .ok (s.seenIn w'.tree) := by
    rw [ha.keeps.here]
    exact ha.keeps.tree.locate hw hs
  refine ⟨path, d, node, hb, ?_, ha.node _ _ hn, ?_⟩
  · rw [openDirectory_eq_ok_iff] at hd ⊢
    exact hlocate hd
  rw [Cursor.isRegular_iff] at hr ⊢
  refine hr.imp_right (And.imp_right ?_)
  rintro ⟨place, serial, mode, c, hs⟩
  have hfile : w.tree.node? place = some (.file serial mode c) := isIn_of_locate hw hs
  have hs' := hlocate hs
  rw [Spot.seenIn, ha.node _ _ hfile] at hs'
  exact ⟨place, serial, mode, c, hs'⟩

/-- What can be read in `w` and what shows there does so in `w'`. An empty trust file is as good as
none. -/
structure Retains (l : Layout) (w w' : World) : Prop where
  profile : ∀ raw c, w.Holds (l.profile raw) c → w'.Holds (l.profile raw) c
  entry : ∀ b, l.Lists w b → l.Lists w' b
  hostKeys : ∀ c, c ≠ [] → w.Holds l.hostKeys c → w'.Holds l.hostKeys c

namespace Retains

theorem of_eq (l : Layout) (ht : w.tree = w'.tree) (hh : w.here = w'.here) : l.Retains w w' where
  profile _ _ := (Disk.holds_congr ht hh).1
  entry _ h := h.congr ht hh
  hostKeys _ _ := (Disk.holds_congr ht hh).1

theorem refl (l : Layout) (w : World) : l.Retains w w := of_eq l rfl rfl

theorem trans (h : l.Retains w w') (h' : l.Retains w' w'') : l.Retains w w'' where
  profile raw c hc := h'.profile raw c (h.profile raw c hc)
  entry b hb := h'.entry b (h.entry b hb)
  hostKeys c hne hc := h'.hostKeys c hne (h.hostKeys c hne hc)

end Retains

/-- **What is only added to loses nothing.** -/
theorem retains_of_adds (l : Layout) (hw : w.IsSound) (ha : w.Adds w' allowed) :
    l.Retains w w' where
  profile _ _ := ha.holds hw
  entry _ h := h.of_adds hw ha
  hostKeys _ _ := ha.holds hw

end Layout

/-! ### The answers -/

namespace SessionStore

variable {s : SessionStore} {w w' : World}

/-- Every record, every name and every answer about a known key is as in `w`. There may be more. -/
structure StillReports (s : SessionStore) (w w' : World) : Prop where
  record : ∀ name settings, w.outcome (s.openForRead name) = .ok (some settings) →
    w'.outcome (s.openForRead name) = .ok (some settings)
  name : ∀ names, s.nameSet w = .ok names → ∃ names', s.nameSet w' = .ok names' ∧ names ⊆ names'
  verdict : ∀ q v, v ≠ .absent → w.outcome (TrustFile.verify s.layout q) = .ok v →
    w'.outcome (TrustFile.verify s.layout q) = .ok v

/-- All that is reported is as in `w`: the records, the names, and the answers about keys that can
be written. -/
structure ReportsAlike (s : SessionStore) (w w' : World) : Prop where
  record : ∀ name, w'.outcome (s.openForRead name) = w.outcome (s.openForRead name)
  names : s.nameSet w' = s.nameSet w
  verdict : ∀ q : HostKey, q.port.natAbs < 10 ^ Decimal.maxDigits →
    w'.outcome (TrustFile.verify s.layout q) = w.outcome (TrustFile.verify s.layout q)

end SessionStore

/-! ### From what is retained to the answers -/

namespace TrustFile

variable {l : Layout} {w : World} {q : HostKey}

theorem outcome_verify_of_holds {c : Bytes} (h : w.Holds l.hostKeys c) :
    w.outcome (verify l q) = q.verdict (Utf8.decode c).lines := by
  obtain ⟨handle, mode, b, hb, -⟩ := Disk.holds_iff.1 h
  rw [outcome_verify_eq, hb, Except.bind, Disk.content?_eq_some_iff.2 h, Option.elim_some]

/-- Of a key that can be written, an empty trust file says what a missing one does. -/
theorem outcome_verify_of_forall (hq : q.port.natAbs < 10 ^ Decimal.maxDigits)
    (hno : ∀ c, c ≠ [] → ¬ w.Holds l.hostKeys c) :
    w.outcome (verify l q) = l.hostKeys.bytes.map fun _ => .absent := by
  rw [outcome_verify_eq]
  cases l.hostKeys.bytes with
  | error f => rfl
  | ok b =>
    rw [Except.bind]
    cases hc : w.content? l.hostKeys with
    | none => rfl
    | some c =>
      obtain rfl : c = [] := by
        by_contra hne
        exact hno c hne (Disk.content?_eq_some_iff.1 hc)
      rw [Option.elim_some, HostKey.verdict, HostKey.identity_of_lt hq]
      rfl

/-- Only a trust file with something in it says more than that a key is absent. -/
theorem exists_holds_of_verify {v : HostKey.Verdict} (hv : w.outcome (verify l q) = .ok v)
    (hne : v ≠ .absent) : ∃ c, c ≠ [] ∧ w.Holds l.hostKeys c := by
  rw [outcome_verify_eq] at hv
  cases hb : l.hostKeys.bytes with
  | error f =>
    rw [hb] at hv
    contradiction
  | ok b =>
    rw [hb, Except.bind] at hv
    cases hc : w.content? l.hostKeys with
    | none =>
      rw [hc] at hv
      exact absurd (Except.ok.inj hv).symm hne
    | some c =>
      refine ⟨c, ?_, Disk.content?_eq_some_iff.1 hc⟩
      rintro rfl
      rw [hc, Option.elim_some, HostKey.verdict] at hv
      cases hi : q.identity with
      | error f =>
        rw [hi, Except.map] at hv
        cases hv
      | ok identity =>
        rw [hi] at hv
        exact hne (Except.ok.inj hv).symm

end TrustFile

namespace Layout.Retains

variable {s : SessionStore} {w w' : World}

/-- **Where nothing is lost, everything is still reported.** -/
theorem stillReports (h : s.layout.Retains w w') : s.StillReports w w' where
  record name settings hr := by
    rw [SessionStore.outcome_openForRead] at hr ⊢
    cases hraw : name.raw? with
    | none =>
      rw [session_of_raw?_eq_none hraw] at hr
      contradiction
    | some raw =>
      rw [session_of_raw? hraw, Except.bind] at hr ⊢
      cases hb : (s.layout.profile raw).bytes with
      | error f =>
        rw [hb] at hr
        contradiction
      | ok b =>
        rw [hb] at hr
        cases hc : w.content? (s.layout.profile raw) with
        | none =>
          rw [hc] at hr
          cases Except.ok.inj hr
        | some c =>
          have hc' := h.profile raw c (Disk.content?_eq_some_iff.1 hc)
          rw [← hr, hc, Disk.content?_eq_some_iff.2 hc']
  name names hn := by
    rw [SessionStore.nameSet_eq] at hn ⊢
    cases hb : s.layout.sessions.bytes with
    | error f =>
      rw [hb] at hn
      contradiction
    | ok b =>
      rw [hb] at hn
      obtain rfl := Except.ok.inj hn
      exact ⟨_, rfl, fun t ⟨b, hs, ht⟩ => ⟨b, h.entry b hs, ht⟩⟩
  verdict q v hne hv := by
    obtain ⟨c, hc, hholds⟩ := TrustFile.exists_holds_of_verify hv hne
    rw [← hv, TrustFile.outcome_verify_of_holds hholds,
      TrustFile.outcome_verify_of_holds (h.hostKeys c hc hholds)]

/-- **Where nothing is lost and nothing comes to light, all that is reported is the same.** -/
theorem reportsAlike (h : s.layout.Retains w w') (h' : s.layout.Retains w' w) :
    s.ReportsAlike w w' where
  record name := by
    rw [SessionStore.outcome_openForRead, SessionStore.outcome_openForRead]
    cases hraw : name.raw? with
    | none => rw [session_of_raw?_eq_none hraw]; rfl
    | some raw =>
      have hcontent : w'.content? (s.layout.profile raw) = w.content? (s.layout.profile raw) := by
        ext c
        simp only [Disk.content?_eq_some_iff]
        exact ⟨h'.profile raw c, h.profile raw c⟩
      rw [session_of_raw? hraw, Except.bind, Except.bind, hcontent]
  names := by
    have hlists (b : Bytes) : s.layout.Lists w' b ↔ s.layout.Lists w b := ⟨h'.entry b, h.entry b⟩
    simp only [SessionStore.nameSet_eq, hlists]
  verdict q hq := by
    by_cases hc : ∃ c, c ≠ [] ∧ w.Holds s.layout.hostKeys c
    · obtain ⟨c, hne, hc⟩ := hc
      rw [TrustFile.outcome_verify_of_holds hc,
        TrustFile.outcome_verify_of_holds (h.hostKeys c hne hc)]
    · have hno (c : Bytes) (hne : c ≠ []) (hholds : w.Holds s.layout.hostKeys c) : False :=
        hc ⟨c, hne, hholds⟩
      rw [TrustFile.outcome_verify_of_forall hq hno,
        TrustFile.outcome_verify_of_forall hq fun c hne hc => hno c hne (h'.hostKeys c hne hc)]

end Layout.Retains

end ClientStore
