import ClientStore.HostKey.Entry
import ClientStore.Proofs.Text.Lines

/-!
# The grammar of lines

A line is taken apart at the first separator of each kind, and only then are the fields looked at.
That the separators may come again in the fields behind them does no harm: a line has at most one
set of fields, so that it spells a key in at most one way, and a key is read off it exactly if it
spells one.

## Main definitions

* `HostKey.Spells` — the lines with a key on them.

## Main results

* `HostKey.fields?_eq_some_iff` — a line has one set of fields at most.
* `HostKey.Spells.unique` — a line spells a key in one way only.
* `HostKey.ofLine_cases` — what is read off a line.
* `HostKey.ofLine_eq_some_iff` — a key is read off a line exactly if the line spells it.
-/

namespace ClientStore.HostKey

/-! ### Fields -/

/-- The fields can be read off a line if they do not have the separators. -/
theorem fields?_line {keytype port hostname : Text} (ht : CodePoint.ofChar '@' ∉ keytype)
    (hp : CodePoint.ofChar ':' ∉ port) (hh : CodePoint.ofChar ' ' ∉ hostname) (keydata : Text) :
    fields? (identityText keytype port hostname ++ .ofChar ' ' :: keydata) =
      some (keytype, port, hostname, keydata) := by
  rw [identityText, List.append_assoc, List.append_assoc, List.cons_append, List.cons_append,
    fields?, Text.cut?_append ht]
  show (Text.cut? _ (port ++ _) >>= _) = _
  rw [Text.cut?_append hp]
  show (Text.cut? _ (hostname ++ _) >>= _) = _
  rw [Text.cut?_append hh]
  rfl

/-- **A line has one set of fields at most**: it is put together from them, and none has the
separator that ends it. -/
theorem fields?_eq_some_iff {s keytype port hostname keydata : Text} :
    fields? s = some (keytype, port, hostname, keydata) ↔
      s = identityText keytype port hostname ++ .ofChar ' ' :: keydata ∧
        CodePoint.ofChar '@' ∉ keytype ∧ CodePoint.ofChar ':' ∉ port ∧
        CodePoint.ofChar ' ' ∉ hostname := by
  constructor
  · intro h
    rw [fields?] at h
    obtain ⟨⟨a, s₁⟩, h₁, h⟩ := Option.bind_eq_some_iff.1 h
    obtain ⟨⟨b, s₂⟩, h₂, h⟩ := Option.bind_eq_some_iff.1 h
    obtain ⟨⟨c, s₃⟩, h₃, h⟩ := Option.bind_eq_some_iff.1 h
    obtain ⟨rfl, rfl, rfl, rfl⟩ : a = keytype ∧ b = port ∧ c = hostname ∧ s₃ = keydata := by
      simpa using h
    refine ⟨?_, Text.not_mem_of_cut? h₁, Text.not_mem_of_cut? h₂, Text.not_mem_of_cut? h₃⟩
    rw [Text.eq_append_of_cut? h₁, Text.eq_append_of_cut? h₂, Text.eq_append_of_cut? h₃,
      identityText]
    simp
  · rintro ⟨rfl, ht, hp, hh⟩
    exact fields?_line ht hp hh keydata

/-! ### Spellings -/

/-- The text is `keytype@port:hostname keydata`, where the port consists of ASCII digits, there is
something in every field but perhaps the last one, and the first `@` and the space behind the port
are separators. -/
structure Spells (s keytype port hostname keydata : Text) : Prop where
  eq_append : s = keytype ++ .ofChar '@' :: port ++ .ofChar ':' :: hostname ++ .ofChar ' ' :: keydata
  keytype_ne_nil : keytype ≠ []
  keytype_at : CodePoint.ofChar '@' ∉ keytype
  port_ne_nil : port ≠ []
  port_digit : ∀ c ∈ port, c.isAsciiDigit = true
  hostname_ne_nil : hostname ≠ []
  hostname_space : CodePoint.ofChar ' ' ∉ hostname

section Spells

variable {s t keytype port hostname keydata : Text} {k : HostKey}

theorem spells_iff :
    Spells s keytype port hostname keydata ↔
      fields? s = some (keytype, port, hostname, keydata) ∧ keytype ≠ [] ∧ hostname ≠ [] ∧
        port ≠ [] ∧ ∀ c ∈ port, c.isAsciiDigit = true := by
  rw [fields?_eq_some_iff]
  constructor
  · intro h
    have hcolon : CodePoint.ofChar ':' ∉ port := fun hm => absurd (h.port_digit _ hm) (by decide)
    exact ⟨⟨h.eq_append, h.keytype_at, hcolon, h.hostname_space⟩, h.keytype_ne_nil,
      h.hostname_ne_nil, h.port_ne_nil, h.port_digit⟩
  · rintro ⟨⟨hs, ht, -, hh⟩, htn, hhn, hpn, hp⟩
    exact ⟨hs, htn, ht, hpn, hp, hhn, hh⟩

/-- **A line spells a key in one way only.** -/
theorem Spells.unique {keytype' port' hostname' keydata' : Text}
    (h : Spells s keytype port hostname keydata) (h' : Spells s keytype' port' hostname' keydata') :
    keytype = keytype' ∧ port = port' ∧ hostname = hostname' ∧ keydata = keydata' := by
  have hf := (spells_iff.1 h).1.symm.trans (spells_iff.1 h').1
  simpa using hf

/-! ### Reading -/

/-- Of a line that spells a key only the port can be refused. -/
theorem ofLine_of_spells (h : Spells (t.trimEnd isLineFeed) keytype port hostname keydata) :
    ofLine t =
      (Decimal.natural port).map fun (n : Nat) => some ⟨keytype, n, hostname, keydata⟩ := by
  obtain ⟨hf, htn, hhn, hpn, hp⟩ := spells_iff.1 h
  have htn : keytype.isEmpty = false := by simpa using htn
  have hhn : hostname.isEmpty = false := by simpa using hhn
  have hpn : port.isEmpty = false := by simpa using hpn
  have hp : port.all CodePoint.isAsciiDigit = true := List.all_eq_true.2 hp
  rw [ofLine, hf]
  simp only [htn, hhn, hpn, hp, Bool.or_self, Bool.not_true, Bool.false_eq_true, if_false]
  cases Decimal.natural port <;> rfl

theorem ofLine_of_not_spells
    (h : ¬ ∃ keytype port hostname keydata,
      Spells (t.trimEnd isLineFeed) keytype port hostname keydata) :
    ofLine t = .ok none := by
  rw [ofLine]
  cases hf : fields? (t.trimEnd isLineFeed) with
  | none => rfl
  | some fields =>
    obtain ⟨keytype, port, hostname, keydata⟩ := fields
    refine if_pos (eq_true_of_ne_false fun hwell => ?_)
    simp only [Bool.or_eq_false_iff, List.isEmpty_eq_false_iff, Bool.not_eq_false'] at hwell
    obtain ⟨⟨⟨htn, hhn⟩, hpn⟩, hp⟩ := hwell
    exact h ⟨_, _, _, _, spells_iff.2 ⟨hf, htn, hhn, hpn, List.all_eq_true.1 hp⟩⟩

theorem ofLine_of_le (h : Spells (t.trimEnd isLineFeed) keytype port hostname keydata)
    (hl : port.length ≤ Decimal.maxDigits) :
    ofLine t = .ok (some ⟨keytype, Decimal.value port, hostname, keydata⟩) := by
  rw [ofLine_of_spells h, Decimal.natural, if_pos hl]
  rfl

theorem ofLine_of_lt (h : Spells (t.trimEnd isLineFeed) keytype port hostname keydata)
    (hl : Decimal.maxDigits < port.length) : ofLine t = .error .tooManyDigits := by
  rw [ofLine_of_spells h, Decimal.natural, if_neg (Nat.not_le.2 hl)]
  rfl

/-- What a line spells, if anything, decides what is read off it. -/
theorem ofLine_cases (t : Text) :
    (∃ keytype port hostname keydata,
      Spells (t.trimEnd isLineFeed) keytype port hostname keydata ∧
        (port.length ≤ Decimal.maxDigits ∧
            ofLine t = .ok (some ⟨keytype, Decimal.value port, hostname, keydata⟩) ∨
          Decimal.maxDigits < port.length ∧ ofLine t = .error .tooManyDigits)) ∨
    (¬ ∃ keytype port hostname keydata,
      Spells (t.trimEnd isLineFeed) keytype port hostname keydata) ∧ ofLine t = .ok none := by
  by_cases hs : ∃ keytype port hostname keydata,
      Spells (t.trimEnd isLineFeed) keytype port hostname keydata
  · obtain ⟨keytype, port, hostname, keydata, hs⟩ := hs
    refine .inl ⟨keytype, port, hostname, keydata, hs, ?_⟩
    rcases Nat.lt_or_ge Decimal.maxDigits port.length with hlt | hle
    · exact .inr ⟨hlt, ofLine_of_lt hs hlt⟩
    · exact .inl ⟨hle, ofLine_of_le hs hle⟩
  · exact .inr ⟨hs, ofLine_of_not_spells hs⟩

/-- **A key is read off a line exactly if the line spells it**, with a port that is not too long. -/
theorem ofLine_eq_some_iff :
    ofLine t = .ok (some k) ↔
      ∃ port, Spells (t.trimEnd isLineFeed) k.keytype port k.hostname k.keydata ∧
        port.length ≤ Decimal.maxDigits ∧ k.port = Decimal.value port := by
  constructor
  · intro h
    rcases ofLine_cases t with ⟨keytype, port, hostname, keydata, hs, ⟨hle, ho⟩ | ⟨-, ho⟩⟩ | ⟨-, ho⟩
    · obtain rfl : _ = k := Option.some.inj (Except.ok.inj (ho.symm.trans h))
      exact ⟨port, hs, hle, rfl⟩
    · exact absurd (ho.symm.trans h) nofun
    · exact absurd (ho.symm.trans h) nofun
  · rintro ⟨port, hs, hle, hp⟩
    rw [ofLine_of_le hs hle, ← hp]

/-- Nothing is read off a line exactly if it spells no key. -/
theorem ofLine_eq_none_iff :
    ofLine t = .ok none ↔
      ¬ ∃ keytype port hostname keydata,
        Spells (t.trimEnd isLineFeed) keytype port hostname keydata := by
  refine ⟨fun h => ?_, ofLine_of_not_spells⟩
  rcases ofLine_cases t with ⟨_, _, _, _, -, ⟨-, ho⟩ | ⟨-, ho⟩⟩ | ⟨hs, -⟩
  · exact absurd (ho.symm.trans h) nofun
  · exact absurd (ho.symm.trans h) nofun
  · exact hs

theorem ofLine_eq_error_iff {f : Failure} :
    ofLine t = .error f ↔
      f = .tooManyDigits ∧ ∃ keytype port hostname keydata,
        Spells (t.trimEnd isLineFeed) keytype port hostname keydata ∧
          Decimal.maxDigits < port.length := by
  constructor
  · intro h
    rcases ofLine_cases t with ⟨keytype, port, hostname, keydata, hs, ⟨-, ho⟩ | ⟨hlt, ho⟩⟩ | ⟨-, ho⟩
    · exact absurd (ho.symm.trans h) nofun
    · exact ⟨Except.error.inj (h.symm.trans ho), _, _, _, _, hs, hlt⟩
    · exact absurd (ho.symm.trans h) nofun
  · rintro ⟨rfl, keytype, port, hostname, keydata, hs, hlt⟩
    exact ofLine_of_lt hs hlt

end Spells

end ClientStore.HostKey
