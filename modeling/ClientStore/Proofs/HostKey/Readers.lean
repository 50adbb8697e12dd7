import ClientStore.Proofs.HostKey.Growth

/-!
# The two readers of the trust file

The keys that are listed are taken apart into fields, and the port becomes a number. A key that is
asked for is not compared by fields but by its written form, with the port in the one spelling that
is recorded. The readers differ where that matters: a port with zeros in front is listed and not
found, and one with a minus sign is found and not listed.

## Main definitions

* `HostKey.keysOn` — the keys on some lines.
* `HostKey.spellsPort` — the port on a line is in the spelling that is recorded.

## Main results

* `TrustFile.verify_of_entries` — on the lines that spell the port so, the readers agree.
-/

namespace ClientStore

namespace HostKey

variable {t : Text} {ts : List Text} {k q : HostKey}

/-- The keys on some lines, in order. -/
def keysOn (ts : List Text) : Except Failure (List HostKey) := (ts.mapM ofLine).map (·.filterMap id)

/-- The port on a line is spelled as it is recorded: there are no zeros in front of it. -/
def spellsPort (t : Text) : Bool :=
  match fields? (t.trimEnd isLineFeed) with
  | none => false
  | some (_, port, _, _) => port = Decimal.digits (Decimal.value port)

theorem keysOn_cons_of_ok {o : Option HostKey} (h : ofLine t = .ok o) (ts : List Text) :
    keysOn (t :: ts) = (keysOn ts).map (o.toList ++ ·) := by
  rw [keysOn, keysOn, List.mapM_cons, h]
  cases ts.mapM ofLine <;> cases o <;> rfl

theorem keysOn_cons {o : Option HostKey} {ks : List HostKey} (ht : ofLine t = .ok o)
    (hts : keysOn ts = .ok ks) : keysOn (t :: ts) = .ok (o.toList ++ ks) := by
  rw [keysOn_cons_of_ok ht, hts]
  rfl

theorem exists_of_keysOn_cons {ks : List HostKey} (h : keysOn (t :: ts) = .ok ks) :
    ∃ o ks', ofLine t = .ok o ∧ keysOn ts = .ok ks' := by
  rw [keysOn, List.mapM_cons] at h
  cases ht : ofLine t with
  | error e =>
    rw [ht] at h
    contradiction
  | ok o =>
    cases hm : ts.mapM ofLine with
    | error e =>
      rw [ht, hm] at h
      contradiction
    | ok os => exact ⟨o, os.filterMap id, rfl, by rw [keysOn, hm]; rfl⟩

/-! ### Lines and their fields -/

/-- A key that is on a line in the spelling that is recorded has that line. -/
theorem trimEnd_eq_body (h : ofLine t = .ok (some k)) (hs : spellsPort t = true) :
    t.trimEnd isLineFeed = k.body := by
  obtain ⟨port, hspells, -, hport⟩ := ofLine_eq_some_iff.1 h
  rw [spellsPort, (spells_iff.1 hspells).1] at hs
  have hnumeral : Decimal.numeral k.port = port := by
    rw [hport, Decimal.numeral_of_nonneg (Int.natCast_nonneg _), Int.natAbs_natCast]
    exact (of_decide_eq_true hs).symm
  rw [hspells.eq_append, body, start, identityText, hnumeral]
  simp

/-- A line that begins like that of a key spells the port as it is recorded. -/
theorem spellsPort_of_eq {rest : Text} (hq : q.IsLegible) (hp : 0 ≤ q.port)
    (h : t.trimEnd isLineFeed = q.start ++ rest) : spellsPort t = true := by
  rw [spellsPort, h, hq.fields?_start, Decimal.numeral_of_nonneg hp]
  simp [Decimal.value_digits]

/-! ### The readers agree -/

section Agree

variable (hq : q.IsLegible) (ht : q.keytype ≠ []) (hh : q.hostname ≠ []) (hp : 0 ≤ q.port)
  (hl : q.port.natAbs < 10 ^ Decimal.maxDigits)

include hq ht hh hp hl

/-- A line decides about a key exactly if the key on it is for the same subject, as long as the port
is spelled as it is recorded. -/
theorem dropPrefix?_eq_of_ofLine {o : Option HostKey} (ho : ofLine t = .ok o)
    (hs : spellsPort t = true) :
    Text.dropPrefix? q.start (t.trimEnd isLineFeed) =
      (o.filter fun k => k.subject = q.subject).map HostKey.keydata := by
  cases hd : Text.dropPrefix? q.start (t.trimEnd isLineFeed) with
  | some rest =>
    have hb : t.trimEnd isLineFeed = HostKey.body { q with keydata := rest } :=
      Text.dropPrefix?_eq_some_iff.1 hd
    have hq' : IsLegible { q with keydata := rest } := ⟨hq.keytype_at, hq.hostname_space⟩
    have hline := ofLine_eq hq' ht hh hp hl hb
    obtain rfl := Except.ok.inj (ho.symm.trans hline)
    simp [Option.filter, subject]
  | none =>
    cases o with
    | none => rfl
    | some k =>
      have hne : k.subject ≠ q.subject := by
        intro he
        rw [trimEnd_eq_body ho hs, body, start_congr he] at hd
        exact absurd (Text.dropPrefix?_eq_some_iff.2 rfl) (by rw [hd]; simp)
      simp [Option.filter, hne]

/-- **Looking for a prefix is looking for an identity**, on lines that may be anything. -/
theorem exists_keysOn_filter {ks : List HostKey} (h : keysOn ts = .ok ks) :
    ∃ js, keysOn (ts.filter spellsPort) = .ok js ∧ js.Sublist ks ∧
      firstVerdict q.start (fun keydata => keydata = q.keydata) ts = answer js q := by
  induction ts generalizing ks with
  | nil =>
    obtain rfl := Except.ok.inj h
    exact ⟨[], rfl, .refl _, rfl⟩
  | cons t ts ih =>
    obtain ⟨o, ks', ho, hks⟩ := exists_of_keysOn_cons h
    obtain rfl := Except.ok.inj ((keysOn_cons ho hks).symm.trans h)
    obtain ⟨js, hjs, hsub, hv⟩ := ih hks
    rw [firstVerdict]
    by_cases hs : spellsPort t = true
    · rw [List.filter_cons_of_pos hs]
      refine ⟨o.toList ++ js, keysOn_cons ho hjs, hsub.append_left _, ?_⟩
      rw [dropPrefix?_eq_of_ofLine hq ht hh hp hl ho hs]
      cases o with
      | none => exact hv
      | some k =>
        by_cases he : k.subject = q.subject
        · simp [Option.filter, answer, he]
        · simpa [Option.filter, answer, he] using hv
    · rw [List.filter_cons_of_neg hs]
      refine ⟨js, hjs, hsub.trans (List.sublist_append_right _ _), ?_⟩
      cases hd : Text.dropPrefix? q.start (t.trimEnd isLineFeed) with
      | none => exact hv
      | some rest => exact absurd (spellsPort_of_eq hq hp (Text.dropPrefix?_eq_some_iff.1 hd)) hs

end Agree

end HostKey

namespace TrustFile

variable {l : Layout} {w w' : World} {c : Bytes} {q : HostKey}

/-- The keys that are listed are those on the lines. -/
theorem outcome_entries (l : Layout) (w : World) :
    w.outcome (entries l) =
      (w.outcome (lines? l)).bind fun lines? => HostKey.keysOn (lines?.getD []) := by
  refine (StoreM.outcome_bind (lines? l) _ w).trans (congrArg _ (funext fun lines? => ?_))
  cases lines? with
  | none => rfl
  | some lines =>
    refine (StoreM.outcome_bind (liftM (lines.mapM HostKey.ofLine)) _ _).trans ?_
    rw [StoreM.outcome_lift, Option.getD_some, HostKey.keysOn]
    cases lines.mapM HostKey.ofLine <;> rfl

theorem outcome_entries_of_contains (h : Contains l w c) :
    w.outcome (entries l) = HostKey.keysOn (Utf8.decode c).lines := by
  rw [outcome_entries]
  obtain ⟨w₁, hl | ⟨rfl, hl⟩⟩ := lines?_of_contains h
  · rw [World.outcome_of_ok hl]
    rfl
  · rw [World.outcome_of_ok hl]
    rfl

theorem keysOn_of_entries {ks : List HostKey} (h : Contains l w c)
    (he : entries l w = .ok ks w') : HostKey.keysOn (Utf8.decode c).lines = .ok ks := by
  rw [← outcome_entries_of_contains h, World.outcome_of_ok he]

/-- **The two readers of the trust file agree** about a key with a port that can be recorded, if of
the keys that are listed only those count that are on lines which spell the port as it is recorded.
The first of these for the same subject decides. -/
theorem verify_of_entries {ks : List HostKey} (h : Contains l w c) (he : entries l w = .ok ks w')
    (hq : q.IsLegible) (ht : q.keytype ≠ []) (hh : q.hostname ≠ []) (hp : 0 ≤ q.port)
    (hl : q.port.natAbs < 10 ^ Decimal.maxDigits) :
    ∃ js, HostKey.keysOn ((Utf8.decode c).lines.filter HostKey.spellsPort) = .ok js ∧ js.Sublist ks ∧
      ∃ v w'', verify l q w = .ok v w'' ∧
        (v = .absent ↔ ∀ k ∈ js, k.subject ≠ q.subject) ∧
        (v = .same ↔
          ∃ k, js.find? (fun k => k.subject = q.subject) = some k ∧ k.keydata = q.keydata) ∧
        (v = .different ↔
          ∃ k, js.find? (fun k => k.subject = q.subject) = some k ∧ k.keydata ≠ q.keydata) := by
  obtain ⟨js, hjs, hsub, hv⟩ :=
    HostKey.exists_keysOn_filter hq ht hh hp hl (keysOn_of_entries h he)
  obtain ⟨w'', hw⟩ := verify_of_contains h (HostKey.identity_of_lt hl)
  refine ⟨js, hjs, hsub, _, w'', hw, ?_⟩
  rw [← HostKey.start, hv]
  exact ⟨HostKey.answer_eq_absent_iff, HostKey.answer_eq_same_iff, HostKey.answer_eq_different_iff⟩

/-- The keys that are listed where the trust file has a given text. -/
theorem entries_of_decode {t : Text} {os : List (Option HostKey)} (h : w.Holds l.hostKeys c)
    (hd : Utf8.decode c = t) (ho : t.lines.mapM HostKey.ofLine = .ok os) :
    ∃ w', entries l w = .ok (os.filterMap id) w' :=
  entries_of_contains (.inl h) (hd ▸ ho)

/-- A key that is listed is found. -/
theorem verify_of_entries_sampleKey :
    ∃ (w w' : World) (c : Bytes), Contains .sample w c ∧ entries .sample w = .ok [sampleKey] w' ∧
      ∃ js : List HostKey, js.Sublist [sampleKey] ∧ ∃ v w'', verify .sample sampleKey w = .ok v w'' ∧
        (v = .absent ↔ ∀ k ∈ js, k.subject ≠ sampleKey.subject) := by
  have hs := isSane_sampleKey
  obtain ⟨w, c, -, h, hd⟩ := exists_holds hs.isPlain.hasSurrogate_line
  have hlines : (Utf8.decode c).lines = [sampleKey].map fun k => k.body ++ [.ofChar '\n'] := by
    rw [hd, Text.lines_line hs.isPlain.lineFeed_not_mem_body]
    rfl
  obtain ⟨w', he⟩ := entries_of_contains (.inl h)
    (hlines ▸ HostKey.mapM_ofLine_lines (List.forall_mem_singleton.2 hs))
  obtain ⟨js, -, hsub, v, w'', hv, ha, -⟩ := verify_of_entries (.inl h) he
    hs.isPlain.toIsLegible hs.keytype_ne_nil hs.hostname_ne_nil hs.port_nonneg hs.port_lt
  exact ⟨w, w', c, .inl h, he, js, hsub, v, w'', hv, ha⟩

/-- The readers differ about a port with a zero in front, about one with a minus sign, and about one
that is too long to be written: the first is listed and not found, the second is found and not
listed, and of the third it cannot be said that it is absent. -/
theorem exists_entries_ne_verify :
    (∃ w w' : World, entries .sample w = .ok [sampleKey] w' ∧
      w.outcome (verify .sample sampleKey) = .ok .absent) ∧
    (∃ w w' : World, entries .sample w = .ok [] w' ∧
      w.outcome (verify .sample { sampleKey with port := -22 }) = .ok .same) ∧
    ∃ (w w' : World) (port : Int), entries .sample w = .ok [] w' ∧
      w.outcome (verify .sample { sampleKey with port }) = .error .tooManyDigits := by
  refine ⟨?_, ?_, ?_⟩
  · have ht : Text.hasSurrogate "ssh-rsa@022:host AAAA\n" = false := by decide
    obtain ⟨w, c, -, h, hd⟩ := exists_holds ht
    have hread : (Text.lines "ssh-rsa@022:host AAAA\n").mapM HostKey.ofLine =
        .ok [some sampleKey] := rfl
    obtain ⟨w', he⟩ := entries_of_decode h hd hread
    exact ⟨w, w', he, outcome_verify_of_decode h hd isSane_sampleKey.port_lt (by decide)⟩
  · have ht : Text.hasSurrogate "ssh-rsa@-22:host AAAA\n" = false := by decide
    obtain ⟨w, c, -, h, hd⟩ := exists_holds ht
    have hread : (Text.lines "ssh-rsa@-22:host AAAA\n").mapM HostKey.ofLine = .ok [none] := rfl
    obtain ⟨w', he⟩ := entries_of_decode h hd hread
    have hlt : Int.natAbs (-22) < 10 ^ Decimal.maxDigits := isSane_sampleKey.port_lt
    exact ⟨w, w', he, outcome_verify_of_decode h hd hlt (by decide)⟩
  · have ht : Text.hasSurrogate [] = false := rfl
    have hread : (Text.lines []).mapM HostKey.ofLine = .ok [] := rfl
    obtain ⟨w, c, -, h, hd⟩ := exists_holds ht
    obtain ⟨w', he⟩ := entries_of_decode h hd hread
    refine ⟨w, w', ((10 ^ Decimal.maxDigits : Nat) : Int), he, outcome_verify_of_le h ?_⟩
    exact Nat.le_of_eq (Int.natAbs_natCast _).symm

end TrustFile

end ClientStore
