import ClientStore.Proofs.HostKey.Grammar
import ClientStore.Proofs.Decimal

/-!
# Keys and their lines

A key is looked for by the written form of its identity, as a prefix of lines that were put
together from unescaped fields. Two identities must not be written alike, and none must be written
like the beginning of another one with something behind it. Both come down to one fact: a line is
taken apart at separators that its fields do not have, so that the fields can be read off it. The
only thing that is lost between reading a line and writing it is how many zeros stood in front of
the port.

Less is asked of a key that is looked for than of one that is recorded. The separators must be
found in both. In the line of the latter there must also be nothing that ends a line early or that
bytes cannot hold, and to be listed it must not have an empty field or a negative port, either.

## Main definitions

* `HostKey.IsLegible`, `HostKey.IsPlain`, `HostKey.IsSane` — what is asked of the fields of a key.
* `HostKey.start`, `HostKey.body` — how a line begins, and all of it.
* `HostKey.subject` — what a key is the key of.
* `HostKey.answer` — what a list of keys says about a key.

## Main results

* `ofLine_eq` — the key can be read off its line.
* `ofLine_inverts_line` — reading lines inverts writing them.
* `firstVerdict_lines` — looking for a prefix is looking for an identity.
* `firstVerdict_append` — lines that come later change no answer.
-/

namespace ClientStore.HostKey

/-- The separators in the line of a key are the first ones of their kind. Of a port nothing is
asked. -/
structure IsLegible (k : HostKey) : Prop where
  keytype_at : CodePoint.ofChar '@' ∉ k.keytype
  hostname_space : CodePoint.ofChar ' ' ∉ k.hostname

/-- The line of a key can be taken apart, and what is read is what was written. -/
structure IsPlain (k : HostKey) : Prop extends IsLegible k where
  lineFeed : ∀ field ∈ [k.keytype, k.hostname, k.keydata], CodePoint.ofChar '\n' ∉ field
  surrogate : ∀ field ∈ [k.keytype, k.hostname, k.keydata], Text.hasSurrogate field = false

/-- The fields of a key are such that its line can be taken apart. -/
structure IsSane (k : HostKey) : Prop where
  keytype_ne_nil : k.keytype ≠ []
  keytype_at : CodePoint.ofChar '@' ∉ k.keytype
  hostname_ne_nil : k.hostname ≠ []
  hostname_space : CodePoint.ofChar ' ' ∉ k.hostname
  port_nonneg : 0 ≤ k.port
  port_lt : k.port.natAbs < 10 ^ Decimal.maxDigits
  lineFeed : ∀ field ∈ [k.keytype, k.hostname, k.keydata], CodePoint.ofChar '\n' ∉ field
  surrogate : ∀ field ∈ [k.keytype, k.hostname, k.keydata], Text.hasSurrogate field = false

theorem IsSane.isPlain {k : HostKey} (h : k.IsSane) : k.IsPlain where
  keytype_at := h.keytype_at
  hostname_space := h.hostname_space
  lineFeed := h.lineFeed
  surrogate := h.surrogate

/-- What a key is the key of: the type of the key, and the port and the name of the host. -/
def subject (k : HostKey) : Text × Int × Text := (k.keytype, k.port, k.hostname)

/-- What a list of keys says about a key. The first one for the same subject decides. -/
def answer (ks : List HostKey) (q : HostKey) : Verdict :=
  match ks.find? fun k => k.subject = q.subject with
  | none => .absent
  | some k => if k.keydata = q.keydata then .same else .different

theorem answer_eq_absent_iff {ks : List HostKey} {q : HostKey} :
    answer ks q = .absent ↔ ∀ k ∈ ks, k.subject ≠ q.subject := by
  rw [answer]
  cases h : ks.find? fun k => k.subject = q.subject with
  | none => simpa using h
  | some k =>
    have hs : k.subject = q.subject := by simpa using List.find?_some h
    refine iff_of_false ?_ fun hno => hno k (List.mem_of_find?_eq_some h) hs
    dsimp only
    split <;> simp

theorem answer_eq_different_iff {ks : List HostKey} {q : HostKey} :
    answer ks q = .different ↔
      ∃ k, ks.find? (fun k => k.subject = q.subject) = some k ∧ k.keydata ≠ q.keydata := by
  rw [answer]
  cases ks.find? fun k => k.subject = q.subject with
  | none => simp
  | some k => simp

theorem answer_eq_same_iff {ks : List HostKey} {q : HostKey} :
    answer ks q = .same ↔
      ∃ k, ks.find? (fun k => k.subject = q.subject) = some k ∧ k.keydata = q.keydata := by
  rw [answer]
  cases ks.find? fun k => k.subject = q.subject with
  | none => simp
  | some k => simp

/-- Keys for other subjects do not change what is said about a key. -/
theorem answer_append_of_forall_ne {ks more : List HostKey} {k : HostKey}
    (h : ∀ j ∈ more, j.subject ≠ k.subject) :
    answer (ks ++ more) k = answer ks k := by
  have hnone : more.find? (fun j => j.subject = k.subject) = none :=
    List.find?_eq_none.2 fun j hj => by simpa using h j hj
  rw [answer, List.find?_append, hnone, Option.or_none, ← answer]

/-! ### Writing a line -/

/-- The beginning of the line of a key, by which the key is looked for. -/
def start (k : HostKey) : Text :=
  identityText k.keytype (Decimal.numeral k.port) k.hostname ++ [.ofChar ' ']

/-- The line of a key without the line feed at its end. -/
def body (k : HostKey) : Text := k.start ++ k.keydata

section Writing

variable {k q : HostKey}

theorem identity_of_lt (h : k.port.natAbs < 10 ^ Decimal.maxDigits) :
    k.identity = .ok (identityText k.keytype (Decimal.numeral k.port) k.hostname) := by
  rw [identity, Decimal.render_of_lt h]
  rfl

theorem identity_of_le (h : 10 ^ Decimal.maxDigits ≤ k.port.natAbs) :
    k.identity = .error .tooManyDigits := by
  rw [identity, Decimal.render_of_le h]
  rfl

theorem line_of_lt (h : k.port.natAbs < 10 ^ Decimal.maxDigits) :
    k.line = .ok (k.body ++ [.ofChar '\n']) := by
  rw [line, identity_of_lt h, body, start]
  simp [Except.map]

/-- Only the number of the digits of its port can keep a key from having a line. -/
theorem line_eq_ok_iff {line : Text} :
    k.line = .ok line ↔
      k.port.natAbs < 10 ^ Decimal.maxDigits ∧ k.body ++ [.ofChar '\n'] = line := by
  rcases Nat.lt_or_ge k.port.natAbs (10 ^ Decimal.maxDigits) with h | h
  · rw [line_of_lt h, Except.ok.injEq, and_iff_right h]
  · rw [HostKey.line, identity_of_le h]
    exact iff_of_false nofun fun h' => absurd h'.1 (Nat.not_lt.2 h)

/-- A key without a line has a port of too many digits. -/
theorem eq_of_line_eq_error {f : Failure} (h : k.line = .error f) : f = .tooManyDigits := by
  rcases Nat.lt_or_ge k.port.natAbs (10 ^ Decimal.maxDigits) with hlt | hge
  · rw [line_of_lt hlt] at h
    contradiction
  · rw [HostKey.line, identity_of_le hge] at h
    exact (Except.error.inj h).symm

/-- Everything in a line comes from a field, or is part of a number, or a separator. -/
theorem mem_body {c : CodePoint} (h : c ∈ k.body) :
    (∃ field ∈ [k.keytype, k.hostname, k.keydata], c ∈ field) ∨ c.isAsciiDigit = true ∨
      c = .ofChar '-' ∨ c = .ofChar '@' ∨ c = .ofChar ':' ∨ c = .ofChar ' ' := by
  simp only [body, start, identityText, List.mem_append, List.mem_cons, List.not_mem_nil,
    or_false] at h
  rcases h with (((h | rfl | h) | rfl | h) | rfl) | h
  · exact .inl ⟨k.keytype, by simp, h⟩
  · simp
  · exact .inr ((Decimal.mem_numeral h).imp_right .inl)
  · simp
  · exact .inl ⟨k.hostname, by simp, h⟩
  · simp
  · exact .inl ⟨k.keydata, by simp, h⟩

theorem IsPlain.lineFeed_not_mem_body (h : k.IsPlain) : CodePoint.ofChar '\n' ∉ k.body := by
  intro hm
  rcases mem_body hm with ⟨field, hf, hc⟩ | hc | hc | hc | hc | hc
  · exact h.lineFeed field hf hc
  all_goals exact absurd hc (by decide)

/-- A line is free of surrogates if the fields are. -/
theorem hasSurrogate_body
    (h : ∀ field ∈ [k.keytype, k.hostname, k.keydata], Text.hasSurrogate field = false) :
    Text.hasSurrogate k.body = false := by
  refine List.any_eq_false.2 ?_
  intro c hc
  rw [Bool.not_eq_true]
  rcases mem_body hc with ⟨field, hf, hc⟩ | hc | rfl | rfl | rfl | rfl
  · simpa using List.any_eq_false.1 (h field hf) c hc
  · exact Decimal.isSurrogate_of_isAsciiDigit hc
  all_goals decide

theorem hasSurrogate_start
    (h : ∀ field ∈ [k.keytype, k.hostname, k.keydata], Text.hasSurrogate field = false) :
    Text.hasSurrogate k.start = false := by
  have hb := hasSurrogate_body h
  rw [body, Text.hasSurrogate, List.any_append, Bool.or_eq_false_iff] at hb
  exact hb.1

/-- The lines of plain keys are free of surrogates. -/
theorem hasSurrogate_flatMap {ks : List HostKey} (hks : ∀ k ∈ ks, k.IsPlain) :
    Text.hasSurrogate (ks.flatMap fun k => k.body ++ [.ofChar '\n']) = false := by
  refine List.any_eq_false.2 ?_
  intro c hc
  obtain ⟨k, hk, hc⟩ := List.mem_flatMap.1 hc
  rcases List.mem_append.1 hc with hc | hc
  · exact List.any_eq_false.1 (hasSurrogate_body (hks k hk).surrogate) c hc
  · rw [List.mem_singleton.1 hc]
    decide

theorem IsPlain.hasSurrogate_line (h : k.IsPlain) :
    Text.hasSurrogate (k.body ++ [.ofChar '\n']) = false := by
  simpa using hasSurrogate_flatMap (List.forall_mem_singleton.2 h)

theorem IsPlain.trimEnd_line (h : k.IsPlain) :
    Text.trimEnd isLineFeed (k.body ++ [.ofChar '\n']) = k.body := by
  rw [Text.trimEnd_append k.body (by decide)]
  refine Text.trimEnd_eq_self ?_
  intro c hc
  rw [isLineFeed, decide_eq_false_iff_not]
  rintro rfl
  exact h.lineFeed_not_mem_body hc

/-! ### Taking a line apart -/

theorem colon_not_mem_numeral (i : Int) : CodePoint.ofChar ':' ∉ Decimal.numeral i := by
  intro h
  rcases Decimal.mem_numeral h with h | h <;> exact absurd h (by decide)

theorem IsLegible.fields?_start (h : k.IsLegible) (rest : Text) :
    fields? (k.start ++ rest) = some (k.keytype, Decimal.numeral k.port, k.hostname, rest) := by
  rw [start, List.append_assoc]
  exact fields?_line h.keytype_at (colon_not_mem_numeral _) h.hostname_space rest

/-- The line of a key spells it, however long the port is. -/
theorem IsLegible.spells_body (h : k.IsLegible) (ht : k.keytype ≠ []) (hh : k.hostname ≠ [])
    (hp : 0 ≤ k.port) :
    Spells k.body k.keytype (Decimal.digits k.port.natAbs) k.hostname k.keydata := by
  have hf := h.fields?_start k.keydata
  rw [← body, Decimal.numeral_of_nonneg hp] at hf
  exact spells_iff.2 ⟨hf, ht, hh, Decimal.digits_ne_nil _,
    fun c hc => Decimal.isAsciiDigit_of_mem_digits hc⟩

/-- **The key is read off its line**, which may be ended or not. -/
theorem ofLine_eq {t : Text} (h : k.IsLegible) (ht : k.keytype ≠ []) (hh : k.hostname ≠ [])
    (hp : 0 ≤ k.port) (hl : k.port.natAbs < 10 ^ Decimal.maxDigits)
    (hb : t.trimEnd isLineFeed = k.body) : ofLine t = .ok (some k) := by
  refine ofLine_eq_some_iff.2 ⟨_, hb ▸ h.spells_body ht hh hp, ?_, ?_⟩
  · exact (Decimal.length_digits_le_iff (by decide)).2 hl
  · rw [Decimal.value_digits, Int.natAbs_of_nonneg hp]

/-- A key that is on a line can be written. -/
theorem natAbs_lt_of_ofLine {t : Text} (h : ofLine t = .ok (some k)) :
    k.port.natAbs < 10 ^ Decimal.maxDigits := by
  obtain ⟨port, hs, hlen, hport⟩ := ofLine_eq_some_iff.1 h
  rw [hport, Int.natAbs_natCast]
  exact Nat.lt_of_lt_of_le (Decimal.value_lt_pow hs.port_digit)
    (Nat.pow_le_pow_right (by decide) hlen)

/-- The line of a key that was read is the line that it was read off, but for zeros in front of the
port, and with one line feed. -/
theorem line_of_spells {t port : Text} (h : ofLine t = .ok (some k))
    (hs : Spells (t.trimEnd isLineFeed) k.keytype port k.hostname k.keydata) :
    k.line = .ok (k.keytype ++ .ofChar '@' :: Decimal.plain port ++ .ofChar ':' :: k.hostname ++
      .ofChar ' ' :: k.keydata ++ [.ofChar '\n']) := by
  obtain ⟨port', hs', -, hp⟩ := ofLine_eq_some_iff.1 h
  obtain ⟨-, rfl, -, -⟩ := hs.unique hs'
  have hplain : Decimal.numeral k.port = Decimal.plain port := by
    rw [hp, Decimal.numeral_of_nonneg (Int.natCast_nonneg _), Int.natAbs_natCast,
      Decimal.digits_value hs.port_digit]
  rw [line_of_lt (natAbs_lt_of_ofLine h), body, start, hplain, identityText]
  simp

theorem getLast?_body (k : HostKey) :
    k.body.getLast? = some (k.keydata.getLast?.getD (.ofChar ' ')) := by
  rw [body, start, List.append_assoc, List.singleton_append, List.getLast?_append,
    List.getLast?_cons, Option.some_or]

/-- **A key is read off its own line exactly if all its fields can be told apart there**, and the
line feed at the end, too. -/
theorem ofLine_line_iff {line : Text} (h : k.line = .ok line) :
    ofLine line = .ok (some k) ↔
      k.keytype ≠ [] ∧ CodePoint.ofChar '@' ∉ k.keytype ∧ 0 ≤ k.port ∧ k.hostname ≠ [] ∧
        CodePoint.ofChar ' ' ∉ k.hostname ∧ k.keydata.getLast? ≠ some (.ofChar '\n') := by
  obtain ⟨hlt, rfl⟩ := line_eq_ok_iff.1 h
  have htrim : Text.trimEnd isLineFeed (k.body ++ [.ofChar '\n']) =
      Text.trimEnd isLineFeed k.body := Text.trimEnd_append k.body (by decide)
  constructor
  · intro hread
    obtain ⟨port, hs, -, hport⟩ := ofLine_eq_some_iff.1 hread
    refine ⟨hs.keytype_ne_nil, hs.keytype_at, ?_, hs.hostname_ne_nil, hs.hostname_space, ?_⟩
    · rw [hport]
      exact Int.natCast_nonneg _
    · intro hlast
      have hend : (Text.trimEnd isLineFeed k.body).getLast? = some (.ofChar '\n') := by
        rw [← htrim, hs.eq_append, List.getLast?_append, List.getLast?_cons, hlast]
        rfl
      exact absurd (Text.eq_false_of_getLast?_trimEnd _ hend) (by decide)
  · rintro ⟨htn, hta, hp, hhn, hhs, hlast⟩
    refine ofLine_eq ⟨hta, hhs⟩ htn hhn hp hlt (htrim.trans (Text.trimEnd_of_getLast? ?_))
    intro x hx
    rw [getLast?_body, Option.mem_some_iff] at hx
    rw [isLineFeed, decide_eq_false_iff_not]
    rintro rfl
    cases hl : k.keydata.getLast? with
    | none =>
      rw [hl] at hx
      exact absurd hx (by decide)
    | some c =>
      rw [hl] at hx
      exact hlast (hl.trans (congrArg some hx))

/-- **Reading lines inverts writing them.** Without the line feeds at its end a text has a key on it
exactly if it spells one, which it does in one way only, and the key is the one that it spells.
Written again it is the same text with the port in plain decimal form and a single line feed. The
only failure is a port of too many digits. Of the keys that have a line, those are read off it whose
type and host are not empty and without the separator that ends them, whose port is not negative,
and whose data does not end in a line feed. -/
theorem ofLine_inverts_line :
    (∀ t k, ofLine t = .ok (some k) ↔
      ∃ port, Spells (t.trimEnd isLineFeed) k.keytype port k.hostname k.keydata ∧
        port.length ≤ Decimal.maxDigits ∧ k.port = Decimal.value port) ∧
    (∀ t, ofLine t = .ok none ↔
      ¬ ∃ keytype port hostname keydata,
        Spells (t.trimEnd isLineFeed) keytype port hostname keydata) ∧
    (∀ t f, ofLine t = .error f ↔
      f = .tooManyDigits ∧ ∃ keytype port hostname keydata,
        Spells (t.trimEnd isLineFeed) keytype port hostname keydata ∧
          Decimal.maxDigits < port.length) ∧
    (∀ s keytype port hostname keydata keytype' port' hostname' keydata',
      Spells s keytype port hostname keydata → Spells s keytype' port' hostname' keydata' →
        keytype = keytype' ∧ port = port' ∧ hostname = hostname' ∧ keydata = keydata') ∧
    (∀ t k port, ofLine t = .ok (some k) →
      Spells (t.trimEnd isLineFeed) k.keytype port k.hostname k.keydata →
        k.line = .ok (k.keytype ++ .ofChar '@' :: Decimal.plain port ++ .ofChar ':' :: k.hostname ++
          .ofChar ' ' :: k.keydata ++ [.ofChar '\n'])) ∧
    (∀ (k : HostKey) line, k.line = .ok line →
      (ofLine line = .ok (some k) ↔
        k.keytype ≠ [] ∧ CodePoint.ofChar '@' ∉ k.keytype ∧ 0 ≤ k.port ∧ k.hostname ≠ [] ∧
          CodePoint.ofChar ' ' ∉ k.hostname ∧ k.keydata.getLast? ≠ some (.ofChar '\n'))) :=
  ⟨fun _ _ => ofLine_eq_some_iff, fun _ => ofLine_eq_none_iff, fun _ _ => ofLine_eq_error_iff,
    fun _ _ _ _ _ _ _ _ _ h h' => h.unique h', fun _ _ _ h hs => line_of_spells h hs,
    fun _ _ h => ofLine_line_iff h⟩

example : ofLine "ssh rsa@0022:fe80::1 A@B C\n\n" = .ok (some ⟨"ssh rsa", 22, "fe80::1", "A@B C"⟩) :=
  rfl

/-- The lines of some keys are read back as the keys. -/
theorem mapM_ofLine_lines {ks : List HostKey} (hks : ∀ k ∈ ks, k.IsSane) :
    (ks.map fun k => k.body ++ [.ofChar '\n']).mapM ofLine = .ok (ks.map some) := by
  induction ks with
  | nil => rfl
  | cons k ks ih =>
    have hk := hks k (by simp)
    have hline : ofLine (k.body ++ [.ofChar '\n']) = .ok (some k) :=
      ofLine_eq hk.isPlain.toIsLegible hk.keytype_ne_nil hk.hostname_ne_nil hk.port_nonneg
        hk.port_lt hk.isPlain.trimEnd_line
    rw [List.map_cons, List.mapM_cons, hline, ih fun j hj => hks j (List.mem_cons_of_mem _ hj)]
    rfl

/-! ### Looking for an identity -/

theorem start_congr (h : k.subject = q.subject) : k.start = q.start := by
  obtain ⟨ht, hp, hh⟩ : k.keytype = q.keytype ∧ k.port = q.port ∧ k.hostname = q.hostname := by
    simpa [subject] using h
  rw [start, start, ht, hp, hh]

/-- **Identities are not confused.** What begins like the lines of one key and like those of another
one shows that they are keys of the same. -/
theorem subject_eq_of_start_append {s t : Text} (hk : k.IsLegible) (hq : q.IsLegible)
    (h : k.start ++ s = q.start ++ t) : k.subject = q.subject := by
  have hf := hk.fields?_start s
  rw [h, hq.fields?_start, Option.some_inj, Prod.mk.injEq, Prod.mk.injEq, Prod.mk.injEq] at hf
  obtain ⟨ht, hp, hh, -⟩ := hf
  rw [subject, subject, ht, Decimal.numeral_injective hp, hh]

/-- A key is looked for in the line of another one, and found only if they are keys of the same. -/
theorem dropPrefix?_body (hq : q.IsLegible) (hk : k.IsLegible) :
    Text.dropPrefix? q.start k.body = if k.subject = q.subject then some k.keydata else none := by
  split
  · next hs => rw [Text.dropPrefix?_eq_some_iff, body, start_congr hs]
  · next hs =>
    rw [Option.eq_none_iff_forall_ne_some]
    intro rest hr
    exact hs (subject_eq_of_start_append hk hq (Text.dropPrefix?_eq_some_iff.1 hr))

/-- **Looking for a prefix is looking for an identity.** -/
theorem firstVerdict_lines (hq : q.IsLegible) {ks : List HostKey} (hks : ∀ k ∈ ks, k.IsPlain) :
    firstVerdict q.start (fun keydata => keydata = q.keydata)
        (ks.map fun k => k.body ++ [.ofChar '\n']) = answer ks q := by
  induction ks with
  | nil => rfl
  | cons k ks ih =>
    have hk := hks k (by simp)
    rw [List.map_cons, firstVerdict, hk.trimEnd_line, dropPrefix?_body hq hk.toIsLegible]
    by_cases hs : k.subject = q.subject
    · rw [if_pos hs, answer, List.find?_cons_of_pos (by simpa using hs)]
      simp
    · rw [if_neg hs, answer, List.find?_cons_of_neg (by simpa using hs)]
      exact ih fun j hj => hks j (List.mem_cons_of_mem _ hj)

end Writing

/-! ### The lines that decide -/

/-- Nothing is known as long as no line begins as it should. -/
theorem firstVerdict_eq_absent_iff {start : Text} {agrees : Text → Bool} {ts : List Text} :
    firstVerdict start agrees ts = .absent ↔ ∀ t ∈ ts, ¬ start <+: t.trimEnd isLineFeed := by
  induction ts with
  | nil => simp [firstVerdict]
  | cons t ts ih =>
    rw [firstVerdict, List.forall_mem_cons]
    cases hd : Text.dropPrefix? start (t.trimEnd isLineFeed) with
    | none =>
      have hno : ¬ start <+: t.trimEnd isLineFeed := by
        rintro ⟨rest, hr⟩
        rw [Text.dropPrefix?_eq_some_iff.2 hr.symm] at hd
        contradiction
      rw [and_iff_right hno]
      exact ih
    | some keydata =>
      have hyes : start <+: t.trimEnd isLineFeed :=
        ⟨keydata, (Text.dropPrefix?_eq_some_iff.1 hd).symm⟩
      refine iff_of_false ?_ fun h => h.1 hyes
      dsimp only
      split <;> simp

/-- Where nothing is known, the lines that come later decide. -/
theorem firstVerdict_append_of_absent {start : Text} {agrees : Text → Bool} {ts : List Text}
    (h : firstVerdict start agrees ts = .absent) (more : List Text) :
    firstVerdict start agrees (ts ++ more) = firstVerdict start agrees more := by
  induction ts with
  | nil => rfl
  | cons t ts ih =>
    rw [firstVerdict] at h
    rw [List.cons_append, firstVerdict]
    cases hd : Text.dropPrefix? start (t.trimEnd isLineFeed) with
    | none =>
      rw [hd] at h
      exact ih h
    | some keydata =>
      rw [hd] at h
      dsimp only at h
      split at h <;> contradiction

/-- **Lines that come later change no answer.** -/
theorem firstVerdict_append {start : Text} {agrees : Text → Bool} {ts : List Text}
    (h : firstVerdict start agrees ts ≠ .absent) (more : List Text) :
    firstVerdict start agrees (ts ++ more) = firstVerdict start agrees ts := by
  induction ts with
  | nil => exact absurd rfl h
  | cons t ts ih =>
    rw [List.cons_append, firstVerdict, firstVerdict]
    rw [firstVerdict] at h
    cases hd : Text.dropPrefix? start (t.trimEnd isLineFeed) with
    | none =>
      rw [hd] at h
      exact ih h
    | some keydata => rfl

end ClientStore.HostKey
