import ClientStore.Command.Run
import ClientStore.Proofs.HostKey.Readers

/-!
# What is listed of the trust file

A line is listed if it spells a key, and any other line is passed over. Whether it spells one has
nothing to do with how long its fields are, and neither has the list of the keys that the lines of
a file spell. But the port of a key becomes a number, and that is refused above a number of digits.
The line is not passed over then. It ends the listing: the keys on the lines before it have been
given out, and what comes behind it is never looked at.

The keys are given out one by one, and who asks for them may do something about each before the
next one is read. So what is listed is also said of the loop, for anything that is done with a key.

## Main definitions

* `HostKey.IsOn`, `HostKey.Lists` — the key on a line and the keys on some lines, however long the
  port is.
* `HostKey.IsOverlong` — the lines that spell a key with a port of too many digits.
* `HostKey.forKeys` — something is done with one key after the other.

## Main results

* `HostKey.exists_lists`, `HostKey.Lists.unique` — any lines list some keys, and no others.
* `HostKey.forKeys_append`, `HostKey.keysOn_append` — what is done as long as no line is too long.
* `TrustFile.entries_eq_ok_iff` — all keys are listed exactly if no line has too long a port.
-/

namespace ClientStore

namespace HostKey

/-! ### The keys that lines spell -/

/-- The line spells the key. -/
def IsOn (k : HostKey) (t : Text) : Prop :=
  ∃ port, Spells (t.trimEnd isLineFeed) k.keytype port k.hostname k.keydata ∧
    k.port = Decimal.value port

/-- The line spells a key, but the port in it has more digits than are converted. -/
def IsOverlong (t : Text) : Prop :=
  ∃ keytype port hostname keydata,
    Spells (t.trimEnd isLineFeed) keytype port hostname keydata ∧ Decimal.maxDigits < port.length

/-- The keys are those that the lines spell, in order. -/
inductive Lists : List Text → List HostKey → Prop
  | nil : Lists [] []
  | key {t : Text} {ts : List Text} {k : HostKey} {ks : List HostKey} (h : k.IsOn t)
    (hts : Lists ts ks) : Lists (t :: ts) (k :: ks)
  | skip {t : Text} {ts : List Text} {ks : List HostKey} (h : ∀ k : HostKey, ¬ k.IsOn t)
    (hts : Lists ts ks) : Lists (t :: ts) ks

variable {t : Text} {ts rest : List Text} {j k : HostKey} {ks : List HostKey}

theorem IsOn.unique (hj : j.IsOn t) (hk : k.IsOn t) : j = k := by
  obtain ⟨port, hs, hp⟩ := hj
  obtain ⟨port', hs', hp'⟩ := hk
  obtain ⟨ht, rfl, hh, hd⟩ := hs.unique hs'
  cases j
  cases k
  simp_all

theorem exists_lists (ts : List Text) : ∃ ks, Lists ts ks := by
  induction ts with
  | nil => exact ⟨[], .nil⟩
  | cons t ts ih =>
    obtain ⟨ks, hts⟩ := ih
    by_cases h : ∃ k : HostKey, k.IsOn t
    · obtain ⟨k, hk⟩ := h
      exact ⟨k :: ks, .key hk hts⟩
    · exact ⟨ks, .skip (not_exists.1 h) hts⟩

theorem Lists.unique {js : List HostKey} (hj : Lists ts js) (hk : Lists ts ks) : js = ks := by
  induction hj generalizing ks with
  | nil =>
    cases hk
    rfl
  | key h _ ih =>
    cases hk with
    | key h' hts => rw [h.unique h', ih hts]
    | skip hno _ => exact absurd h (hno _)
  | skip hno _ ih =>
    cases hk with
    | key h _ => exact absurd h (hno _)
    | skip _ hts => exact ih hts

/-- Lines that come later add keys at the end. -/
theorem Lists.append {js : List HostKey} (hj : Lists ts js) (hk : Lists rest ks) :
    Lists (ts ++ rest) (js ++ ks) := by
  induction hj with
  | nil => exact hk
  | key h _ ih => exact .key h ih
  | skip hno _ ih => exact .skip hno ih

/-! ### One line -/

theorem ofLine_of_isOn (h : k.IsOn t) (hl : ¬ IsOverlong t) : ofLine t = .ok (some k) := by
  obtain ⟨port, hs, hp⟩ := h
  exact ofLine_eq_some_iff.2 ⟨port, hs, Nat.not_lt.1 fun hlt => hl ⟨_, _, _, _, hs, hlt⟩, hp⟩

theorem ofLine_of_forall_not_isOn (h : ∀ k : HostKey, ¬ k.IsOn t) : ofLine t = .ok none := by
  refine ofLine_of_not_spells ?_
  rintro ⟨keytype, port, hostname, keydata, hs⟩
  exact h ⟨keytype, Decimal.value port, hostname, keydata⟩ ⟨port, hs, rfl⟩

theorem ofLine_of_isOverlong (h : IsOverlong t) : ofLine t = .error .tooManyDigits :=
  ofLine_eq_error_iff.2 ⟨rfl, h⟩

/-! ### One line after the other -/

/-- Does something with every key on some lines, as soon as it has been read. -/
def forKeys (ts : List Text) (g : HostKey → StoreM Unit) : StoreM Unit :=
  ts.forM fun t => do
    match ← ofLine t with
    | some k => g k
    | none => return

theorem forKeys_cons_of_ok {o : Option HostKey} (h : ofLine t = .ok o) (ts : List Text)
    (g : HostKey → StoreM Unit) :
    forKeys (t :: ts) g = o.forM g >>= fun _ => forKeys ts g := by
  have hlift : (liftM (ofLine t) : StoreM (Option HostKey)) = pure o := by
    rw [h]
    rfl
  show ((liftM (ofLine t) : StoreM (Option HostKey)) >>= _) >>= _ = _
  rw [hlift, pure_bind]
  cases o <;> rfl

/-- A port of too many digits ends it. -/
theorem forKeys_cons_of_isOverlong (h : IsOverlong t) (ts : List Text)
    (g : HostKey → StoreM Unit) : forKeys (t :: ts) g = throw .tooManyDigits := by
  have hlift : (liftM (ofLine t) : StoreM (Option HostKey)) = throw .tooManyDigits := by
    rw [ofLine_of_isOverlong h]
    rfl
  show ((liftM (ofLine t) : StoreM (Option HostKey)) >>= _) >>= _ = _
  rw [hlift]
  rfl

/-- **As long as no line has too long a port, something is done with exactly the keys that the lines
spell.** -/
theorem forKeys_append (h : Lists ts ks) (hl : ∀ t ∈ ts, ¬ IsOverlong t) (rest : List Text)
    (g : HostKey → StoreM Unit) :
    forKeys (ts ++ rest) g = ks.forM g >>= fun _ => forKeys rest g := by
  induction h with
  | nil => rfl
  | key h _ ih =>
    obtain ⟨ht, hts⟩ := List.forall_mem_cons.1 hl
    rw [List.cons_append, forKeys_cons_of_ok (ofLine_of_isOn h ht), ih hts]
    exact (bind_assoc _ _ _).symm
  | skip hno _ ih =>
    obtain ⟨-, hts⟩ := List.forall_mem_cons.1 hl
    rw [List.cons_append, forKeys_cons_of_ok (ofLine_of_forall_not_isOn hno), ih hts]
    rfl

/-- **As long as no line has too long a port, exactly the keys that the lines spell are read.** -/
theorem keysOn_append (h : Lists ts ks) (hl : ∀ t ∈ ts, ¬ IsOverlong t) (rest : List Text) :
    keysOn (ts ++ rest) = (keysOn rest).map (ks ++ ·) := by
  induction h with
  | nil =>
    rw [List.nil_append]
    cases keysOn rest <;> rfl
  | key h _ ih =>
    obtain ⟨ht, hts⟩ := List.forall_mem_cons.1 hl
    rw [List.cons_append, keysOn_cons_of_ok (ofLine_of_isOn h ht), ih hts]
    cases keysOn rest <;> rfl
  | skip hno _ ih =>
    obtain ⟨-, hts⟩ := List.forall_mem_cons.1 hl
    rw [List.cons_append, keysOn_cons_of_ok (ofLine_of_forall_not_isOn hno), ih hts]
    cases keysOn rest <;> rfl

theorem keysOn_cons_of_isOverlong (h : IsOverlong t) (ts : List Text) :
    keysOn (t :: ts) = .error .tooManyDigits := by
  rw [keysOn, List.mapM_cons, ofLine_of_isOverlong h]
  rfl

theorem keysOn_eq_ok (h : Lists ts ks) (hl : ∀ t ∈ ts, ¬ IsOverlong t) : keysOn ts = .ok ks := by
  have happend := keysOn_append h hl []
  rw [List.append_nil] at happend
  exact happend.trans (congrArg Except.ok (List.append_nil ks))

theorem keysOn_eq_error {before after : List Text} (hb : ∀ s ∈ before, ¬ IsOverlong s)
    (ht : IsOverlong t) : keysOn (before ++ t :: after) = .error .tooManyDigits := by
  obtain ⟨js, hjs⟩ := exists_lists before
  rw [keysOn_append hjs hb, keysOn_cons_of_isOverlong ht]
  rfl

/-- Either no line has too long a port, or there is a first one that has. -/
theorem forall_not_isOverlong_or (ts : List Text) :
    (∀ t ∈ ts, ¬ IsOverlong t) ∨
      ∃ before t after, ts = before ++ t :: after ∧ (∀ s ∈ before, ¬ IsOverlong s) ∧
        IsOverlong t := by
  induction ts with
  | nil => exact .inl (List.forall_mem_nil _)
  | cons t ts ih =>
    by_cases ht : IsOverlong t
    · exact .inr ⟨[], t, ts, rfl, List.forall_mem_nil _, ht⟩
    rcases ih with hts | ⟨before, s, after, rfl, hb, hs⟩
    · exact .inl (List.forall_mem_cons.2 ⟨ht, hts⟩)
    · exact .inr ⟨t :: before, s, after, rfl, List.forall_mem_cons.2 ⟨ht, hb⟩, hs⟩

/-! ### The lines of keys -/

theorem isOn_line (hk : k.IsPlain) (ht : k.keytype ≠ []) (hh : k.hostname ≠ []) (hp : 0 ≤ k.port) :
    k.IsOn (k.body ++ [.ofChar '\n']) := by
  refine ⟨Decimal.digits k.port.natAbs, ?_, ?_⟩
  · rw [hk.trimEnd_line]
    exact hk.toIsLegible.spells_body ht hh hp
  · rw [Decimal.value_digits, Int.natAbs_of_nonneg hp]

/-- The line of a key has too long a port exactly if the key could not have been written. -/
theorem isOverlong_line_iff (hk : k.IsPlain) (ht : k.keytype ≠ []) (hh : k.hostname ≠ [])
    (hp : 0 ≤ k.port) :
    IsOverlong (k.body ++ [.ofChar '\n']) ↔ 10 ^ Decimal.maxDigits ≤ k.port.natAbs := by
  have hs := hk.toIsLegible.spells_body ht hh hp
  rw [← Nat.not_lt, ← Decimal.length_digits_le_iff (by decide), Nat.not_le]
  refine ⟨?_, fun h => ⟨_, _, _, _, hk.trimEnd_line ▸ hs, h⟩⟩
  rintro ⟨_, _, _, _, hs', h⟩
  rw [hk.trimEnd_line] at hs'
  obtain ⟨-, rfl, -, -⟩ := hs'.unique hs
  exact h

end HostKey

/-- What is printed of a key. -/
def Command.printHostKey (k : HostKey) : StoreM Unit := do
  StoreM.print ((← k.identity).sanitized ++ .ofChar ' ' :: k.keydata.sanitized)

/-- The keys of the trust file are printed as they are read. -/
theorem Command.printHostKeys_eq_forKeys (ts : List Text) :
    printHostKeys ts = HostKey.forKeys ts printHostKey :=
  rfl

namespace TrustFile

variable {l : Layout} {w : World} {c : Bytes}

/-- **All keys are listed exactly if no line has too long a port.** Whatever the trust file holds,
its lines spell certain keys, and there is no limit to the length of any field. The listing ends
well exactly if none of the lines has a port of more digits than are converted, and then it consists
of these keys. Otherwise the first such line makes it fail, when only the keys on the lines before
have been given out. -/
theorem entries_eq_ok_iff (h : Contains l w c) :
    ∃ ks, HostKey.Lists (Utf8.decode c).lines ks ∧
      (∀ js, HostKey.Lists (Utf8.decode c).lines js → js = ks) ∧
      (w.outcome (entries l) = .ok ks ↔ ∀ t ∈ (Utf8.decode c).lines, ¬ HostKey.IsOverlong t) ∧
      ((∀ t ∈ (Utf8.decode c).lines, ¬ HostKey.IsOverlong t) →
        ∀ g, HostKey.forKeys (Utf8.decode c).lines g = ks.forM g) ∧
      ∀ before t after, (Utf8.decode c).lines = before ++ t :: after →
        (∀ s ∈ before, ¬ HostKey.IsOverlong s) → HostKey.IsOverlong t →
          w.outcome (entries l) = .error .tooManyDigits ∧
            ∃ js, HostKey.Lists before js ∧ js <+: ks ∧
              ∀ g, HostKey.forKeys (Utf8.decode c).lines g =
                js.forM g >>= fun _ => throw .tooManyDigits := by
  rw [outcome_entries_of_contains h]
  obtain ⟨ks, hks⟩ := HostKey.exists_lists (Utf8.decode c).lines
  refine ⟨ks, hks, fun js hjs => hjs.unique hks, ⟨fun hok => ?_, HostKey.keysOn_eq_ok hks⟩,
    fun hl g => ?_, fun before t after heq hb ht => ?_⟩
  · rcases HostKey.forall_not_isOverlong_or (Utf8.decode c).lines with
      hl | ⟨before, t, after, heq, hb, ht⟩
    · exact hl
    · rw [heq, HostKey.keysOn_eq_error hb ht] at hok
      contradiction
  · have happend := HostKey.forKeys_append hks hl [] g
    rw [List.append_nil] at happend
    rw [happend]
    exact bind_pure (ks.forM g)
  · rw [heq] at hks ⊢
    obtain ⟨js, hjs⟩ := HostKey.exists_lists before
    obtain ⟨is, his⟩ := HostKey.exists_lists (t :: after)
    refine ⟨HostKey.keysOn_eq_error hb ht, js, hjs, ⟨is, (hjs.append his).unique hks⟩, fun g => ?_⟩
    rw [HostKey.forKeys_append hjs hb, HostKey.forKeys_cons_of_isOverlong ht]

/-- The lines of plain keys may be in a trust file. -/
theorem exists_contains_textOf {ks : List HostKey} (hks : ∀ k ∈ ks, k.IsPlain) :
    ∃ (w : World) (c : Bytes), Contains .sample w c ∧
      (Utf8.decode c).lines = ks.map fun k => k.body ++ [.ofChar '\n'] := by
  obtain ⟨w, c, -, h, hd⟩ := exists_holds (HostKey.hasSurrogate_flatMap hks)
  refine ⟨w, c, .inl h, ?_⟩
  rw [hd, Text.lines_flatMap fun k hk => (hks k hk).lineFeed_not_mem_body]

/-- A key that is listed. -/
theorem entries_eq_ok_iff_sampleKey :
    ∃ (w : World) (c : Bytes), Contains .sample w c ∧
      HostKey.Lists (Utf8.decode c).lines [sampleKey] ∧
      w.outcome (entries .sample) = .ok [sampleKey] := by
  have hs := isSane_sampleKey
  obtain ⟨w, c, hc, hlines⟩ := exists_contains_textOf (List.forall_mem_singleton.2 hs.isPlain)
  obtain ⟨ks, -, hunique, hiff, -⟩ := entries_eq_ok_iff hc
  have hlists : HostKey.Lists (Utf8.decode c).lines [sampleKey] := by
    rw [hlines]
    exact .key (HostKey.isOn_line hs.isPlain hs.keytype_ne_nil hs.hostname_ne_nil hs.port_nonneg)
      .nil
  obtain rfl := hunique _ hlists
  refine ⟨w, c, hc, hlists, hiff.2 ?_⟩
  rw [hlines]
  refine List.forall_mem_singleton.2 fun hlong => Nat.not_lt.2 ?_ hs.port_lt
  exact (HostKey.isOverlong_line_iff hs.isPlain hs.keytype_ne_nil hs.hostname_ne_nil
    hs.port_nonneg).1 hlong

/-- A key with a port of one digit more than are converted. -/
def overlongKey : HostKey := { sampleKey with port := ((10 ^ Decimal.maxDigits : Nat) : Int) }

/-- One port that is too long keeps all keys from being listed, although the lines spell them. -/
theorem exists_lists_of_entries_eq_error :
    ∃ (w : World) (c : Bytes), Contains .sample w c ∧
      HostKey.Lists (Utf8.decode c).lines [overlongKey, sampleKey] ∧
      w.outcome (entries .sample) = .error .tooManyDigits := by
  have hs := isSane_sampleKey
  have hplain : overlongKey.IsPlain :=
    ⟨⟨hs.keytype_at, hs.hostname_space⟩, hs.lineFeed, hs.surrogate⟩
  have hport : overlongKey.port.natAbs = 10 ^ Decimal.maxDigits := Int.natAbs_natCast _
  have hnonneg : 0 ≤ overlongKey.port := Int.natCast_nonneg _
  obtain ⟨w, c, hc, hlines⟩ := exists_contains_textOf
    (List.forall_mem_cons.2 ⟨hplain, List.forall_mem_singleton.2 hs.isPlain⟩)
  refine ⟨w, c, hc, ?_, ?_⟩
  · rw [hlines]
    exact .key (HostKey.isOn_line hplain hs.keytype_ne_nil hs.hostname_ne_nil hnonneg)
      (.key (HostKey.isOn_line hs.isPlain hs.keytype_ne_nil hs.hostname_ne_nil hs.port_nonneg) .nil)
  · rw [outcome_entries_of_contains hc, hlines]
    refine HostKey.keysOn_cons_of_isOverlong ?_ _
    exact (HostKey.isOverlong_line_iff hplain hs.keytype_ne_nil hs.hostname_ne_nil hnonneg).2
      (Nat.le_of_eq hport.symm)

end TrustFile

end ClientStore
