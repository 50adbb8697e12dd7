import ClientStore.Proofs.HostKey.Store

/-!
# What a new line changes

Recording a key writes at the end of the trust file, without a look at what is there. Two things
must hold for the new key to concern nobody but its host: the file must end at the end of a line,
or else its last line and the new one become one line, and the line must be one line, or else what
comes behind a line feed in it is a line in its own right. Neither is checked.

## Main definitions

* `HostKey.linesRead` — the lines that are read where the line of a key was written.

## Main results

* `TrustFile.outcome_verify_after_record` — at the end of a line, a plain key changes only the
  answers about its own subject, and elsewhere it is not even found itself.
* `TrustFile.outcome_verify_ne_iff` — whose answers any key changes.
-/

namespace ClientStore

/-- The lines that are read where the line of a key was written. -/
def HostKey.linesRead (k : HostKey) : List Text :=
  match Utf8.encode? (k.body ++ [.ofChar '\n']) with
  | none => []
  | some data => (Utf8.decode data).lines

theorem HostKey.IsPlain.linesRead_eq {k : HostKey} (h : k.IsPlain) :
    k.linesRead = [k.body ++ [.ofChar '\n']] := by
  obtain ⟨data, he, hd⟩ := Utf8.exists_encode?_of_hasSurrogate_eq_false h.hasSurrogate_line
  rw [linesRead, he]
  dsimp only
  rw [hd, Text.lines_line h.lineFeed_not_mem_body]

namespace TrustFile

variable {l : Layout} {w w' : World} {c : Bytes} {k q : HostKey}

/-! ### Behind the end of a line -/

/-- Behind the end of a line, what is read of a new key is added to the lines. -/
theorem outcome_verify_of_record (hw : w.IsSound) (h : Contains l w c) (hc : IsClosedBy 0x0A c)
    (hr : record l k w = .ok () w') (hq : q.port.natAbs < 10 ^ Decimal.maxDigits) :
    w'.outcome (verify l q) =
      .ok (HostKey.firstVerdict q.start (fun t => t = q.keydata)
        ((Utf8.decode c).lines ++ k.linesRead)) := by
  obtain ⟨-, -, data, hd, h'⟩ := holds_of_record hw h hr
  rw [outcome_verify (.inl h') hq, Utf8.lines_decode_append hc, HostKey.linesRead, hd]

/-- Behind the end of a line, a key concerns the one that is asked for only if it is a key of the
same, and only if nothing was known of that. -/
theorem outcome_verify_of_record_of_ne (hw : w.IsSound) (h : w.Holds l.hostKeys c)
    (hc : IsClosedBy 0x0A c) (hk : k.IsPlain) (hr : record l k w = .ok () w') (hq : q.IsLegible)
    (hne : q.subject ≠ k.subject ∨ w.outcome (verify l q) ≠ .ok .absent) :
    w'.outcome (verify l q) = w.outcome (verify l q) := by
  rcases Nat.lt_or_ge q.port.natAbs (10 ^ Decimal.maxDigits) with hlt | hlt
  case inr =>
    obtain ⟨-, -, data, -, h'⟩ := holds_of_record hw (.inl h) hr
    rw [outcome_verify_of_le h' hlt, outcome_verify_of_le h hlt]
  rw [outcome_verify (.inl h) hlt] at hne ⊢
  rw [outcome_verify_of_record hw (.inl h) hc hr hlt, hk.linesRead_eq]
  by_cases ha : HostKey.firstVerdict q.start (fun t => t = q.keydata) (Utf8.decode c).lines = .absent
  · have hs : q.subject ≠ k.subject := hne.resolve_right fun hno => hno (by rw [ha])
    rw [HostKey.firstVerdict_append_of_absent ha, ha, HostKey.firstVerdict, hk.trimEnd_line,
      HostKey.dropPrefix?_body hq hk.toIsLegible, if_neg (Ne.symm hs)]
    rfl
  · rw [HostKey.firstVerdict_append ha]

/-- Behind the end of a line, a key answers for its subject if nothing did before. -/
theorem outcome_verify_of_record_of_eq (hw : w.IsSound) (h : w.Holds l.hostKeys c)
    (hc : IsClosedBy 0x0A c) (hk : k.IsPlain) (hr : record l k w = .ok () w') (hq : q.IsLegible)
    (hs : q.subject = k.subject) (ha : w.outcome (verify l q) = .ok .absent) :
    w'.outcome (verify l q) = .ok (if k.keydata = q.keydata then .same else .different) := by
  have hlt : q.port.natAbs < 10 ^ Decimal.maxDigits := by
    obtain ⟨-, hlt, -⟩ := holds_of_record hw (.inl h) hr
    rwa [show q.port = k.port from congrArg (fun s => s.2.1) hs]
  rw [outcome_verify (.inl h) hlt, Except.ok.injEq] at ha
  rw [outcome_verify_of_record hw (.inl h) hc hr hlt, hk.linesRead_eq,
    HostKey.firstVerdict_append_of_absent ha, HostKey.firstVerdict, hk.trimEnd_line,
    HostKey.dropPrefix?_body hq hk.toIsLegible, if_pos hs.symm]
  simp only [decide_eq_true_eq]

/-! ### Elsewhere -/

/-- A line that is longer than it should be does not agree. -/
theorem firstVerdict_concat_ne_same {before : List Text} {last : Text} (hlast : last ≠ [])
    (hk : k.IsPlain) (hl : CodePoint.ofChar '\n' ∉ last)
    (ha : HostKey.firstVerdict k.start (fun t => t = k.keydata) before = .absent) :
    HostKey.firstVerdict k.start (fun t => t = k.keydata)
      (before ++ [last ++ k.body ++ [.ofChar '\n']]) ≠ .same := by
  have htrim : Text.trimEnd HostKey.isLineFeed (last ++ k.body ++ [.ofChar '\n']) =
      last ++ k.body := by
    rw [Text.trimEnd_append _ (by decide)]
    refine Text.trimEnd_eq_self ?_
    intro x hx
    rw [HostKey.isLineFeed, decide_eq_false_iff_not]
    rintro rfl
    exact (List.mem_append.1 hx).elim hl hk.lineFeed_not_mem_body
  rw [HostKey.firstVerdict_append_of_absent ha, HostKey.firstVerdict, htrim]
  cases hd : Text.dropPrefix? k.start (last ++ k.body) with
  | none => simp [HostKey.firstVerdict]
  | some rest =>
    have hlen := congrArg List.length (Text.dropPrefix?_eq_some_iff.1 hd)
    have hpos := List.length_pos_iff.2 hlast
    have hne : rest ≠ k.keydata := by
      rintro rfl
      simp only [HostKey.body, List.length_append] at hlen
      omega
    simp [hne]

/-- Behind a line that is not ended a key is not found. -/
theorem outcome_verify_of_record_ne_same (hw : w.IsSound) (h : w.Holds l.hostKeys c)
    (hc : ¬ IsClosedBy 0x0A c) (hk : k.IsPlain) (hr : record l k w = .ok () w')
    (ha : w.outcome (verify l k) = .ok .absent) : w'.outcome (verify l k) ≠ .ok .same := by
  obtain ⟨-, hlt, data, hd, h'⟩ := holds_of_record hw (.inl h) hr
  obtain ⟨before, last, hne, hl, hlines, hmore⟩ :=
    Text.exists_lines_of_not_isClosedBy (mt Utf8.isClosedBy_decode_iff.1 hc)
  rw [outcome_verify (.inl h) hlt, Except.ok.injEq, hlines, HostKey.firstVerdict_eq_absent_iff] at ha
  rw [outcome_verify (.inl h') hlt, Utf8.decode_append_encode? c hd hk.hasSurrogate_line,
    hmore _ hk.lineFeed_not_mem_body, ne_eq, Except.ok.injEq]
  refine firstVerdict_concat_ne_same hne hk hl (HostKey.firstVerdict_eq_absent_iff.2 ?_)
  intro t ht
  exact ha t (List.mem_append_left _ ht)

/-- **A plain key is added to whatever is there exactly if that ends at the end of a line.** Then it
answers for its subject if nothing did before, and all other answers stay. Otherwise, if nothing
answered for its subject before, it is not found itself. -/
theorem outcome_verify_after_record (hw : w.IsSound) (h : w.Holds l.hostKeys c) (hk : k.IsPlain)
    (hr : record l k w = .ok () w') :
    (IsClosedBy 0x0A c → ∀ q : HostKey, q.IsLegible →
      (q.subject = k.subject → w.outcome (verify l q) = .ok .absent →
        w'.outcome (verify l q) = .ok (if k.keydata = q.keydata then .same else .different)) ∧
      (q.subject ≠ k.subject ∨ w.outcome (verify l q) ≠ .ok .absent →
        w'.outcome (verify l q) = w.outcome (verify l q))) ∧
    (w.outcome (verify l k) = .ok .absent →
      (w'.outcome (verify l k) = .ok .same ↔ IsClosedBy 0x0A c)) := by
  refine ⟨fun hc q hq => ⟨?_, ?_⟩, fun ha => ⟨?_, fun hc => ?_⟩⟩
  · exact outcome_verify_of_record_of_eq hw h hc hk hr hq
  · exact outcome_verify_of_record_of_ne hw h hc hk hr hq
  · intro hs
    by_contra hc
    exact outcome_verify_of_record_ne_same hw h hc hk hr ha hs
  · rw [outcome_verify_of_record_of_eq hw h hc hk hr hk.toIsLegible rfl ha, if_pos rfl]

/-- A trust file may hold any bytes. -/
theorem exists_holds_bytes (c : Bytes) :
    ∃ w : World, w.IsSound ∧ w.Holds Layout.sample.hostKeys c := by
  have ho : openAtEnd .sample .bare = .ok _ _ := rfl
  rcases openAtEnd_cases World.isSound_bare (.inr ⟨rfl, missing_bare⟩) with
    ⟨handle, v, -, hc, hv⟩ | ⟨f, v, hf, -⟩
  · obtain ⟨u, -, hu, hk⟩ := Disk.append_of_opens hv hc c
    exact ⟨u, hk.isSound hv, Disk.holds_iff.2 ⟨handle, hu⟩⟩
  · exact absurd (ho.symm.trans hf) (by simp)

/-- A trust file with any text that has no surrogates. -/
theorem exists_holds {t : Text} (ht : t.hasSurrogate = false) :
    ∃ (w : World) (c : Bytes), w.IsSound ∧ w.Holds Layout.sample.hostKeys c ∧
      Utf8.decode c = t := by
  obtain ⟨c, -, hd⟩ := Utf8.exists_encode?_of_hasSurrogate_eq_false ht
  obtain ⟨w, hw, h⟩ := exists_holds_bytes c
  exact ⟨w, c, hw, h, hd⟩

/-- A key of another host. -/
def otherKey : HostKey := { sampleKey with hostname := "other", keydata := "BBBB" }

theorem isSane_otherKey : otherKey.IsSane :=
  { isSane_sampleKey with
    hostname_ne_nil := by decide
    hostname_space := by decide
    lineFeed := by decide
    surrogate := by decide }

theorem exists_record_otherKey (hw : w.IsSound) (h : w.Holds Layout.sample.hostKeys c) :
    ∃ w', record .sample otherKey w = .ok () w' := by
  obtain ⟨handle, ho, -⟩ := openAtEnd_of_holds hw h
  have hd : Utf8.encode? (otherKey.body ++ [.ofChar '\n']) = some _ := rfl
  exact exists_record_of_openAtEnd isSane_otherKey.port_lt hd ho

/-- What a text in the trust file says about a key. -/
theorem outcome_verify_of_decode {t : Text} {v : HostKey.Verdict} (h : w.Holds l.hostKeys c)
    (hd : Utf8.decode c = t) (hq : q.port.natAbs < 10 ^ Decimal.maxDigits)
    (hv : HostKey.firstVerdict q.start (fun t => t = q.keydata) t.lines = v) :
    w.outcome (verify l q) = .ok v := by
  rw [outcome_verify (.inl h) hq, hd, hv]

/-- A key that is recorded behind an ended line leaves the answer about another one alone. -/
theorem outcome_verify_after_record_otherKey :
    ∃ (w w' : World) (c : Bytes), w.Holds Layout.sample.hostKeys c ∧ IsClosedBy 0x0A c ∧
      record .sample otherKey w = .ok () w' ∧
      w'.outcome (verify .sample sampleKey) = .ok .same := by
  obtain ⟨w, c, hw, h, hd⟩ := exists_holds isSane_sampleKey.isPlain.hasSurrogate_line
  have hc : IsClosedBy 0x0A c := Utf8.isClosedBy_decode_iff.1 (hd ▸ .concat _)
  obtain ⟨w', hr⟩ := exists_record_otherKey hw h
  have hkept := outcome_verify_after_record hw h isSane_otherKey.isPlain hr
  refine ⟨w, w', c, h, hc, hr, ?_⟩
  rw [(hkept.1 hc sampleKey isSane_sampleKey.isPlain.toIsLegible).2 (.inl (by decide))]
  exact outcome_verify_of_decode h hd isSane_sampleKey.port_lt (by decide)

/-- Behind a line that is not ended a key is lost, and takes the last one with it. -/
theorem exists_record_behind_unended :
    ∃ (w w' : World) (c : Bytes), w.IsSound ∧ w.Holds Layout.sample.hostKeys c ∧
      sampleKey.IsSane ∧ otherKey.IsSane ∧ sampleKey.subject ≠ otherKey.subject ∧
      record .sample otherKey w = .ok () w' ∧
      w.outcome (verify .sample sampleKey) = .ok .same ∧
      w'.outcome (verify .sample sampleKey) = .ok .different ∧
      w.outcome (verify .sample otherKey) = .ok .absent ∧
      w'.outcome (verify .sample otherKey) = .ok .absent := by
  have ht : Text.hasSurrogate sampleKey.body = false := by decide
  obtain ⟨w, c, hw, h, hd⟩ := exists_holds ht
  obtain ⟨w', hr⟩ := exists_record_otherKey hw h
  obtain ⟨-, -, data, he, h'⟩ := holds_of_record hw (.inl h) hr
  have hd' := Utf8.decode_append_encode? c he isSane_otherKey.isPlain.hasSurrogate_line
  rw [hd] at hd'
  refine ⟨w, w', c, hw, h, isSane_sampleKey, isSane_otherKey, by decide, hr, ?_, ?_, ?_, ?_⟩
  · exact outcome_verify_of_decode h hd isSane_sampleKey.port_lt (by decide)
  · exact outcome_verify_of_decode h' hd' isSane_sampleKey.port_lt (by decide +kernel)
  · exact outcome_verify_of_decode h hd isSane_otherKey.port_lt (by decide)
  · exact outcome_verify_of_decode h' hd' isSane_otherKey.port_lt (by decide +kernel)

/-! ### Lines within a line -/

/-- **Whose answers a key changes.** The lines that are read of it are added to the ones that are
there, so that it concerns everyone of whom nothing was known and for whom one of its lines begins
as it should. For a plain key that is one line, and only for its own subject. -/
theorem outcome_verify_ne_iff {w₁ w₂ : World} (hw : w.IsSound) (hm : Missing l w)
    (h : Reaches l w w₁) (hr : record l k w₁ = .ok () w₂)
    (hq : q.port.natAbs < 10 ^ Decimal.maxDigits) :
    (w₂.outcome (verify l q) ≠ w₁.outcome (verify l q) ↔
      w₁.outcome (verify l q) = .ok .absent ∧
        ∃ t ∈ k.linesRead, q.start <+: t.trimEnd HostKey.isLineFeed) ∧
    (k.IsPlain → q.IsLegible → q.subject ≠ k.subject →
      w₂.outcome (verify l q) = w₁.outcome (verify l q)) := by
  obtain ⟨c, hc, he⟩ := h.exists_extends hw hm
  have hiff : w₂.outcome (verify l q) ≠ w₁.outcome (verify l q) ↔
      w₁.outcome (verify l q) = .ok .absent ∧
        ∃ t ∈ k.linesRead, q.start <+: t.trimEnd HostKey.isLineFeed := by
    rw [outcome_verify_of_record he.sound hc he.before hr hq, outcome_verify hc hq, ne_eq,
      Except.ok.injEq, Except.ok.injEq]
    by_cases ha :
      HostKey.firstVerdict q.start (fun t => t = q.keydata) (Utf8.decode c).lines = .absent
    · rw [HostKey.firstVerdict_append_of_absent ha, ha, HostKey.firstVerdict_eq_absent_iff]
      simp
    · rw [HostKey.firstVerdict_append ha]
      simp [ha]
  refine ⟨hiff, fun hk hql hs => ?_⟩
  by_contra hne
  obtain ⟨-, t, ht, rest, hrest⟩ := hiff.1 hne
  rw [hk.linesRead_eq, List.mem_singleton] at ht
  rw [ht, hk.trimEnd_line, HostKey.body] at hrest
  exact hs (HostKey.subject_eq_of_start_append hql hk.toIsLegible hrest)

/-- The first key of all leaves the answer about another one alone. -/
theorem outcome_verify_ne_iff_otherKey :
    ∃ w : World, Reaches .sample .bare .bare ∧ record .sample sampleKey .bare = .ok () w ∧
      w.outcome (verify .sample otherKey) = World.bare.outcome (verify .sample otherKey) := by
  obtain ⟨w, hr⟩ := exists_record_sampleKey
  have hkept := outcome_verify_ne_iff World.isSound_bare missing_bare .start hr
    isSane_otherKey.port_lt
  exact ⟨w, .start, hr, hkept.2 isSane_sampleKey.isPlain isSane_otherKey.isPlain.toIsLegible
    (by decide)⟩

/-- A key that is two lines, the second of which is that of another host. -/
def forgedKey : HostKey := { sampleKey with keydata := "AAAA\nssh-rsa@22:other BBBB" }

/-- A key with a line feed in it answers for another host. -/
theorem exists_record_forgedKey :
    ∃ w : World, Reaches .sample .bare .bare ∧ forgedKey.subject ≠ otherKey.subject ∧
      record .sample forgedKey .bare = .ok () w ∧
      World.bare.outcome (verify .sample otherKey) = .ok .absent ∧
      w.outcome (verify .sample otherKey) = .ok .same := by
  have ho : openAtEnd .sample .bare = .ok _ _ := rfl
  have ht : Text.hasSurrogate (forgedKey.body ++ [.ofChar '\n']) = false := by decide
  obtain ⟨data, hd, hread⟩ := Utf8.exists_encode?_of_hasSurrogate_eq_false ht
  have hlt : forgedKey.port.natAbs < 10 ^ Decimal.maxDigits := isSane_sampleKey.port_lt
  obtain ⟨w, hr⟩ := exists_record_of_openAtEnd hlt hd ho
  have hb : Contains .sample .bare [] := .inr ⟨rfl, missing_bare⟩
  obtain ⟨-, -, data', hd', h⟩ := holds_of_record World.isSound_bare hb hr
  obtain rfl : data = data' := Option.some.inj (hd.symm.trans hd')
  refine ⟨w, .start, by decide, hr, ?_, ?_⟩
  · rw [outcome_verify hb isSane_otherKey.port_lt]
    rfl
  · exact outcome_verify_of_decode h hread isSane_otherKey.port_lt (by decide +kernel)

end TrustFile

end ClientStore
