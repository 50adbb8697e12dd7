import ClientStore.Proofs.ProfileName

/-!
# How stored names are scanned

A stored name is scanned from left to right. At each position the scanner takes either one code
point or a whole escape of three, and to know which it looks at the two positions behind. Two things
could go wrong there: it could look past the end of the name, and a cut of the name could go through
an escape. Neither happens. The two positions are looked at only where there is room for them; and a
percent sign that begins an escape is at most two places before whatever cut the escape straddles.

The bytes of a name are defined by recursion on the text, where nothing can be looked at that is not
there. So the scanner is given here once more, by positions, with every look being one that may
fail; and it gives the same bytes.

## Main definitions

* `Text.HasBytes` — texts that the scanner has no reason to refuse.
* `Percent.stepAt` — one step of the scanner, by positions.
* `Percent.Scans` — a run of the scanner.

## Main results

* `Percent.decode?_append` — a text may be cut wherever no escape is cut with it.
* `Percent.stepAt_cases` — everything that a step can do.
* `Percent.Scans.toOption_eq` — the scanner by positions gives the bytes of the text.
* `Percent.decode?_by_positions` — all of this for texts, with the positions of the scanner.
-/

namespace ClientStore

/-- The text has bytes: every surrogate in it stands for one. -/
def Text.HasBytes (t : Text) : Prop := ∀ c ∈ t, c.isSurrogate = true → c.isByteEscape = true

instance (t : Text) : Decidable t.HasBytes :=
  decidable_of_iff (t.all (fun c => !c.isSurrogate || c.isByteEscape) = true)
    (by simp [Text.HasBytes, Decidable.or_iff_not_imp_left])

namespace Text

theorem hasBytes_append {s t : Text} : HasBytes (s ++ t) ↔ s.HasBytes ∧ t.HasBytes :=
  List.forall_mem_append

theorem hasBytes_iff_encode? (t : Text) : t.HasBytes ↔ Utf8.encode? t ≠ none := by
  rw [Ne, Utf8.encode?_eq_none_iff, HasBytes]
  simp

theorem hasBytes_of_ascii {t : Text} (h : ∀ c ∈ t, c.val < 0x80) : t.HasBytes := by
  rw [hasBytes_iff_encode?, Utf8.encode?_of_ascii h]
  exact Option.some_ne_none _

theorem hasBytes_singleton (c : CodePoint) : HasBytes [c] ↔ Utf8.encodePoint? c ≠ none := by
  rw [Ne, Utf8.encodePoint?_eq_none_iff, HasBytes]
  simp

end Text

namespace Percent

/-! ### Cuts -/

/-- **A text may be cut wherever no escape is cut with it**: no percent sign among the last two
code points begins one that reaches behind the cut. -/
theorem decode?_append {a b : Text}
    (h : ∀ x y, a = x ++ .ofChar '%' :: y → y.length < 2 → ¬ BeginsWithDigits (y ++ b)) :
    decode? (a ++ b) = (decode? a).bind fun front => (decode? b).map (front ++ ·) := by
  induction a using decode?_induction with
  | nil =>
    show decode? b = (decode? b).map ([] ++ ·)
    cases decode? b <;> rfl
  | escape high low x rest he ih =>
    have hrest := ih fun u v huv => h (.ofChar '%' :: high :: low :: u) v (by rw [huv]; rfl)
    rw [decode?_cons_of_escaped he]
    show decode? (.ofChar '%' :: high :: low :: (rest ++ b)) = _
    rw [decode?_cons_of_escaped he, hrest]
    cases decode? rest <;> cases decode? b <;> rfl
  | plain c rest hc ih =>
    have hrest := ih fun u v huv => h (c :: u) v (by rw [huv]; rfl)
    have hfront : c = .ofChar '%' → ¬ BeginsWithDigits (rest ++ b) := by
      rintro rfl
      -- where fewer than two code points are left, an escape would reach behind the cut
      match rest with
      | [] => exact h [] _ rfl (by decide)
      | [_] => exact h [] _ rfl (by simp)
      | high :: low :: rest => simpa using hc rfl
    rw [decode?_cons_of_not_begins hc, List.cons_append, decode?_cons_of_not_begins hfront, hrest]
    cases Utf8.encodePoint? c <;> cases decode? rest <;> cases decode? b <;> simp

/-- Behind two code points that are no percent signs there is always room for a cut. -/
theorem decode?_append_of_not_mem {a b : Text} (h : .ofChar '%' ∉ a.drop (a.length - 2)) :
    decode? (a ++ b) = (decode? a).bind fun front => (decode? b).map (front ++ ·) := by
  refine decode?_append fun x y hxy hy => absurd ?_ h
  rw [hxy, List.drop_append_of_le_length (by simp; omega), List.mem_append]
  exact .inr List.mem_cons_self

/-- A percent sign is no digit, so that a text may be cut before it; and it is let through if no
digits follow. -/
theorem decode?_append_percent (x : Text) {y : Text} (h : ¬ BeginsWithDigits y) :
    decode? (x ++ .ofChar '%' :: y) =
      (decode? x).bind fun front => (decode? y).map fun back => front ++ 0x25 :: back := by
  have hcut : ∀ u v, x = u ++ .ofChar '%' :: v → v.length < 2 →
      ¬ BeginsWithDigits (v ++ .ofChar '%' :: y) := by
    rintro u v - hv hbegins
    -- the percent sign behind the cut would have to be one of the two digits
    match v with
    | [] =>
      obtain ⟨_, _, _, heq, hdigit, -⟩ := hbegins
      cases heq
      exact percent_not_mem_hexDigits hdigit
    | [_] => exact percent_not_mem_hexDigits (beginsWithDigits_cons_cons.1 hbegins).2
  have hpercent : Utf8.encodePoint? (.ofChar '%') = some [0x25] := rfl
  rw [decode?_append hcut, decode?_cons_of_not_begins fun _ => h, hpercent]
  cases decode? x <;> cases decode? y <;> rfl

/-! ### One step by positions -/

/-- Why a scan breaks off. -/
inductive Stop where
  /-- A position was looked at that is not one of the text. -/
  | outside (position : Nat)
  /-- The code point at a position has no bytes. -/
  | unwritable (position : Nat)
  deriving DecidableEq

/-- The code point at a position. -/
def lookAt (t : Text) (i : Nat) : Except Stop CodePoint :=
  match t[i]? with
  | some c => .ok c
  | none => .error (.outside i)

/-- The byte of the escape that begins at a position, if there is one. The positions are looked at
in their order, and none that is not needed to know. -/
def escapeAt (t : Text) (i : Nat) : Except Stop (Option UInt8) := do
  let c ← lookAt t i
  if c = .ofChar '%' ∧ i + 2 < t.length then
    match Hex.value? (← lookAt t (i + 1)) with
    | none => return none
    | some high =>
      match Hex.value? (← lookAt t (i + 2)) with
      | none => return none
      | some low => return some (.ofNat (16 * high + low))
  else return none

/-- One step of the scanner: what it writes at a position, and where it goes on. -/
def stepAt (t : Text) (i : Nat) : Except Stop (Bytes × Nat) := do
  match ← escapeAt t i with
  | some b => return ([b], i + 3)
  | none =>
    match Utf8.encodePoint? (← lookAt t i) with
    | some bytes => return (bytes, i + 1)
    | none => throw (.unwritable i)

theorem lookAt_of_drop {t rest : Text} {i : Nat} {c : CodePoint} (h : t.drop i = c :: rest) :
    lookAt t i = .ok c := by
  have hget : t[i]? = some c := by rw [← List.head?_drop, h]; rfl
  rw [lookAt, hget]

theorem drop_succ_of_drop {t rest : Text} {i : Nat} {c : CodePoint} (h : t.drop i = c :: rest) :
    t.drop (i + 1) = rest := by
  rw [← List.tail_drop, h]
  rfl

/-- Where there is room for an escape, the positions are inside. -/
theorem escapeAt_of_room {t rest : Text} {i : Nat} {c high low : CodePoint}
    (h : t.drop i = c :: high :: low :: rest) : escapeAt t i = .ok (escaped? c high low) := by
  have hhigh := drop_succ_of_drop h
  have hlow := drop_succ_of_drop hhigh
  have hroom : i + 2 < t.length := by
    have hlen := congrArg List.length h
    simp only [List.length_drop, List.length_cons] at hlen
    omega
  rw [escapeAt, lookAt_of_drop h, lookAt_of_drop hhigh, lookAt_of_drop hlow, escaped?]
  show (if _ then _ else _) = _
  by_cases hc : c = .ofChar '%'
  · rw [if_pos ⟨hc, hroom⟩, if_pos hc]
    show (match Hex.value? high with | none => _ | some _ => _) = _
    cases Hex.value? high with
    | none => rfl
    | some n =>
      show (match Hex.value? low with | none => _ | some _ => _) = _
      cases Hex.value? low <;> rfl
  · rw [if_neg fun hp => hc hp.1, if_neg hc]
    rfl

/-- Where there is none, nothing but the position itself is looked at. -/
theorem escapeAt_of_no_room {t rest : Text} {i : Nat} {c : CodePoint} (h : t.drop i = c :: rest)
    (hrest : rest.length < 2) : escapeAt t i = .ok none := by
  have hroom : ¬ i + 2 < t.length := by
    have hlen := congrArg List.length h
    simp only [List.length_drop, List.length_cons] at hlen
    omega
  rw [escapeAt, lookAt_of_drop h]
  exact if_neg fun hp => hroom hp.2

theorem escapeAt_of_not_begins {t rest : Text} {i : Nat} {c : CodePoint}
    (ht : t.drop i = c :: rest) (h : c = .ofChar '%' → ¬ BeginsWithDigits rest) :
    escapeAt t i = .ok none := by
  match rest with
  | [] => exact escapeAt_of_no_room ht (by decide)
  | [_] => exact escapeAt_of_no_room ht (by simp)
  | high :: low :: rest => rw [escapeAt_of_room ht, escaped?_eq_none_iff.2 h]

/-- **Everything that a step can do**: take an escape, take a code point that begins none, or refuse
one that has no bytes. -/
theorem stepAt_cases {t : Text} {i : Nat} (hi : i < t.length) :
    (∃ high low b rest, t.drop i = .ofChar '%' :: high :: low :: rest ∧
      escaped? (.ofChar '%') high low = some b ∧ stepAt t i = .ok ([b], i + 3)) ∨
    (∃ c rest, t.drop i = c :: rest ∧ (c = .ofChar '%' → ¬ BeginsWithDigits rest) ∧
      ((∃ bytes, Utf8.encodePoint? c = some bytes ∧ stepAt t i = .ok (bytes, i + 1)) ∨
        Utf8.encodePoint? c = none ∧ stepAt t i = .error (.unwritable i))) := by
  obtain ⟨c, rest, ht⟩ := List.exists_cons_of_length_pos
    (show 0 < (t.drop i).length by rw [List.length_drop]; omega)
  by_cases hbegins : c = .ofChar '%' ∧ BeginsWithDigits rest
  · obtain ⟨rfl, high, low, rest, rfl, hhigh, hlow⟩ := hbegins
    obtain ⟨b, hb⟩ := (exists_escaped?_iff _ _ _).2 ⟨rfl, hhigh, hlow⟩
    refine .inl ⟨high, low, b, rest, ht, hb, ?_⟩
    rw [stepAt, escapeAt_of_room ht, hb]
    rfl
  · have hplain : c = .ofChar '%' → ¬ BeginsWithDigits rest := not_and.1 hbegins
    refine .inr ⟨c, rest, ht, hplain, ?_⟩
    rw [stepAt, escapeAt_of_not_begins ht hplain, lookAt_of_drop ht]
    cases hc : Utf8.encodePoint? c with
    | some bytes => exact .inl ⟨bytes, rfl, by simp only [bind, Except.bind, hc]; rfl⟩
    | none => exact .inr ⟨rfl, by simp only [bind, Except.bind, hc]; rfl⟩

/-- A step goes on behind code points that all have bytes, and what it writes is what they stand
for. -/
theorem exists_of_stepAt_ok {t : Text} {i j : Nat} {bytes : Bytes} (hi : i < t.length)
    (h : stepAt t i = .ok (bytes, j)) :
    ∃ front, front ≠ [] ∧ Text.HasBytes front ∧ t.drop i = front ++ t.drop j ∧
      j = i + front.length ∧ decode? (t.drop i) = (decode? (t.drop j)).map (bytes ++ ·) := by
  rcases stepAt_cases hi with ⟨high, low, b, rest, ht, hb, hs⟩ |
    ⟨c, rest, ht, hplain, ⟨own, hc, hs⟩ | ⟨-, hs⟩⟩
  · cases h.symm.trans hs
    have hrest : t.drop (i + 3) = rest :=
      drop_succ_of_drop (drop_succ_of_drop (drop_succ_of_drop ht))
    obtain ⟨-, hhigh, hlow⟩ := (exists_escaped?_iff _ _ _).1 ⟨b, hb⟩
    refine ⟨[.ofChar '%', high, low], List.cons_ne_nil _ _, ?_, ?_, rfl, ?_⟩
    · refine Text.hasBytes_of_ascii (List.forall_mem_cons.2 ⟨by decide, ?_⟩)
      exact List.forall_mem_cons.2 ⟨val_lt_of_mem_hexDigits hhigh,
        List.forall_mem_singleton.2 (val_lt_of_mem_hexDigits hlow)⟩
    · rw [hrest, ht]
      rfl
    · rw [hrest, ht, decode?_cons_of_escaped hb]
      rfl
  · cases h.symm.trans hs
    have hrest : t.drop (i + 1) = rest := drop_succ_of_drop ht
    refine ⟨[c], List.cons_ne_nil _ _, ?_, ?_, rfl, ?_⟩
    · rw [Text.hasBytes_singleton, hc]
      exact Option.some_ne_none _
    · rw [hrest, ht]
      rfl
    · rw [hrest, ht, decode?_cons_of_not_begins hplain, hc]
      rfl
  · cases h.symm.trans hs

/-- A step that fails has met a code point without bytes; it has not looked outside. -/
theorem exists_of_stepAt_error {t : Text} {i : Nat} {stop : Stop} (hi : i < t.length)
    (h : stepAt t i = .error stop) :
    stop = .unwritable i ∧
      ∃ c rest, t.drop i = c :: rest ∧ ¬ Text.HasBytes [c] ∧ decode? (t.drop i) = none := by
  rcases stepAt_cases hi with ⟨high, low, b, rest, ht, hb, hs⟩ |
    ⟨c, rest, ht, hplain, ⟨own, hc, hs⟩ | ⟨hc, hs⟩⟩
  · cases h.symm.trans hs
  · cases h.symm.trans hs
  · cases h.symm.trans hs
    refine ⟨rfl, c, rest, ht, ?_, ?_⟩
    · rw [Text.hasBytes_singleton, hc]
      exact fun hne => hne rfl
    · rw [ht, decode?_cons_of_not_begins hplain, hc]
      rfl

/-! ### Whole runs -/

/-- A run of the scanner from a position on: the positions where it stands, the last one being where
it ends, and what comes of it. The scanner goes on as long as its position is one of the text. -/
inductive Scans (t : Text) : Nat → List Nat → Except Stop Bytes → Prop
  | finished {i : Nat} (hi : t.length ≤ i) : Scans t i [i] (.ok [])
  | stopped {i : Nat} {stop : Stop} (hi : i < t.length) (hs : stepAt t i = .error stop) :
    Scans t i [i] (.error stop)
  | stepped {i j : Nat} {bytes : Bytes} {positions : List Nat} {result : Except Stop Bytes}
    (hi : i < t.length) (hs : stepAt t i = .ok (bytes, j)) (hrest : Scans t j positions result) :
    Scans t i (i :: positions) (result.map (bytes ++ ·))

namespace Scans

variable {t : Text} {i : Nat} {positions : List Nat} {result : Except Stop Bytes}

/-- There is only one run from a position on. -/
theorem unique {positions' : List Nat} {result' : Except Stop Bytes}
    (h : Scans t i positions result) (h' : Scans t i positions' result') :
    positions' = positions ∧ result' = result := by
  induction h generalizing positions' result' with
  | finished hi =>
    cases h' with
    | finished => exact ⟨rfl, rfl⟩
    | stopped hi' _ => omega
    | stepped hi' _ _ => omega
  | stopped hi hs =>
    cases h' with
    | finished hi' => omega
    | stopped _ hs' => cases hs.symm.trans hs'; exact ⟨rfl, rfl⟩
    | stepped _ hs' _ => cases hs.symm.trans hs'
  | stepped hi hs _ ih =>
    cases h' with
    | finished hi' => omega
    | stopped _ hs' => cases hs.symm.trans hs'
    | stepped _ hs' hrest' =>
      cases hs.symm.trans hs'
      obtain ⟨rfl, rfl⟩ := ih hrest'
      exact ⟨rfl, rfl⟩

/-- **The position only grows.** -/
theorem pairwise_lt (h : Scans t i positions result) :
    positions.Pairwise (· < ·) ∧ ∀ p ∈ positions, i ≤ p := by
  induction h with
  | finished => simp
  | stopped => simp
  | @stepped i j bytes positions result hi hs _ ih =>
    obtain ⟨hpairwise, hle⟩ := ih
    obtain ⟨front, hne, -, -, rfl, -⟩ := exists_of_stepAt_ok hi hs
    have hlt : ∀ p ∈ positions, i < p := fun p hp => by
      have hpos := List.length_pos_iff.2 hne
      have := hle p hp
      omega
    exact ⟨List.pairwise_cons.2 ⟨hlt, hpairwise⟩,
      List.forall_mem_cons.2 ⟨Nat.le_refl i, fun p hp => Nat.le_of_lt (hlt p hp)⟩⟩

/-- **The scanner by positions gives the bytes of the text.** -/
theorem toOption_eq (h : Scans t i positions result) : result.toOption = decode? (t.drop i) := by
  induction h with
  | finished hi => rw [List.drop_eq_nil_of_le hi]; rfl
  | stopped hi hs =>
    obtain ⟨-, c, rest, -, -, hnone⟩ := exists_of_stepAt_error hi hs
    rw [hnone]
    rfl
  | @stepped i j bytes positions result hi hs _ ih =>
    obtain ⟨front, -, -, -, -, hdecode⟩ := exists_of_stepAt_ok hi hs
    rw [hdecode, ← ih]
    cases result <;> rfl

/-- **Where a run ends**: exactly at the end of the text, or else at the first code point that has
no bytes. -/
theorem ends (h : Scans t i positions result) (hi : i ≤ t.length) :
    (Text.HasBytes (t.drop i) ∧ (∃ bytes, result = .ok bytes) ∧
      positions.getLast? = some t.length) ∨
    ∃ x c y, t.drop i = x ++ c :: y ∧ Text.HasBytes x ∧ ¬ Text.HasBytes [c] ∧
      result = .error (.unwritable (i + x.length)) ∧
      positions.getLast? = some (i + x.length) := by
  induction h with
  | finished hge =>
    obtain rfl := Nat.le_antisymm hi hge
    rw [List.drop_length]
    exact .inl ⟨List.forall_mem_nil _, ⟨[], rfl⟩, rfl⟩
  | stopped hlt hs =>
    obtain ⟨rfl, c, rest, ht, hc, -⟩ := exists_of_stepAt_error hlt hs
    exact .inr ⟨[], c, rest, ht, List.forall_mem_nil _, hc, rfl, rfl⟩
  | @stepped i j bytes positions result hlt hs hrest ih =>
    obtain ⟨front, -, hfront, ht, rfl, -⟩ := exists_of_stepAt_ok hlt hs
    have hroom : i + front.length ≤ t.length := by
      have hlen := congrArg List.length ht
      simp only [List.length_append, List.length_drop] at hlen
      omega
    rw [ht]
    rcases ih hroom with ⟨hbytes, ⟨own, rfl⟩, hlast⟩ | ⟨x, c, y, hsplit, hx, hc, rfl, hlast⟩
    · refine .inl ⟨Text.hasBytes_append.2 ⟨hfront, hbytes⟩, ⟨bytes ++ own, rfl⟩, ?_⟩
      rw [List.getLast?_cons, hlast]
      rfl
    · refine .inr ⟨front ++ x, c, y, ?_, Text.hasBytes_append.2 ⟨hfront, hx⟩, hc, ?_, ?_⟩
      · rw [hsplit, List.append_assoc]
      · rw [List.length_append, ← Nat.add_assoc]
        rfl
      · rw [List.getLast?_cons, hlast, List.length_append, ← Nat.add_assoc]
        rfl

end Scans

/-- **Every scan ends.** What is left of the text gets shorter with each step. -/
theorem exists_scans (t : Text) (i : Nat) : ∃ positions result, Scans t i positions result := by
  by_cases hi : i < t.length
  · cases hs : stepAt t i with
    | error stop => exact ⟨_, _, .stopped hi hs⟩
    | ok step =>
      obtain ⟨front, hne, -, -, hj, -⟩ := exists_of_stepAt_ok hi hs
      have hpos := List.length_pos_iff.2 hne
      obtain ⟨positions, result, hrest⟩ := exists_scans t step.2
      exact ⟨_, _, .stepped hi hs hrest⟩
  · exact ⟨_, _, .finished (Nat.le_of_not_lt hi)⟩
  termination_by t.length - i

/-- **How a name is scanned.** A text can be cut behind two code points that are no percent signs,
and its bytes are those of the parts. The one scan of a text by positions, in which every look
outside of the text would be an end of its own, has no such end and gives the bytes of the text; its
position grows with every step, exactly to the end if the text has bytes, and else to the first code
point that has none. And a percent sign without two digits behind it stands for itself. -/
theorem decode?_by_positions :
    (∀ a b : Text, a.HasBytes → b.HasBytes → .ofChar '%' ∉ a.drop (a.length - 2) →
      ∃ front back, decode? a = some front ∧ decode? b = some back ∧
        decode? (a ++ b) = some (front ++ back)) ∧
    (∀ t : Text, ∃ positions result,
      (∀ positions' result', Scans t 0 positions' result' ↔
        positions' = positions ∧ result' = result) ∧
      result.toOption = decode? t ∧ (∀ i, result ≠ .error (.outside i)) ∧
      positions.Pairwise (· < ·) ∧
      (t.HasBytes ∧ (∃ bytes, result = .ok bytes) ∧ positions.getLast? = some t.length ∨
        ∃ x c y, t = x ++ c :: y ∧ Text.HasBytes x ∧ ¬ Text.HasBytes [c] ∧
          result = .error (.unwritable x.length) ∧ positions.getLast? = some x.length)) ∧
    ∀ x y : Text, ¬ BeginsWithDigits y →
      decode? (x ++ .ofChar '%' :: y) =
        (decode? x).bind fun front => (decode? y).map fun back => front ++ 0x25 :: back := by
  refine ⟨fun a b ha hb h => ?_, fun t => ?_, fun x y => decode?_append_percent x⟩
  · obtain ⟨own, hown⟩ := Option.ne_none_iff_exists'.1 ((Text.hasBytes_iff_encode? a).1 ha)
    obtain ⟨own', hown'⟩ := Option.ne_none_iff_exists'.1 ((Text.hasBytes_iff_encode? b).1 hb)
    obtain ⟨front, hfront⟩ := exists_decode?_of_encode? hown
    obtain ⟨back, hback⟩ := exists_decode?_of_encode? hown'
    exact ⟨front, back, hfront, hback, by rw [decode?_append_of_not_mem h, hfront, hback]; rfl⟩
  · obtain ⟨positions, result, h⟩ := exists_scans t 0
    have hends := h.ends (Nat.zero_le _)
    simp only [List.drop_zero, Nat.zero_add] at hends
    refine ⟨positions, result, fun positions' result' => ⟨h.unique, ?_⟩, h.toOption_eq, ?_,
      h.pairwise_lt.1, hends⟩
    · rintro ⟨rfl, rfl⟩
      exact h
    · rintro i rfl
      rcases hends with ⟨-, ⟨_, hok⟩, -⟩ | ⟨_, _, _, -, -, -, herror, -⟩
      · cases hok
      · cases herror

/-- A cut between an escape and a percent sign that begins none, and the scan of what is behind the
cut. -/
theorem decode?_by_positions_sample :
    decode? (Text.ofString "a%41" ++ Text.ofString "%4%41") =
        some [0x61, 0x41, 0x25, 0x34, 0x41] ∧
      Scans "%4%41" 0 [0, 1, 2, 5] (.ok [0x25, 0x34, 0x41]) ∧
      decode? (Text.ofString "%4" ++ .ofChar '%' :: Text.ofString "4z") =
        some [0x25, 0x34, 0x25, 0x34, 0x7A] := by
  obtain ⟨hcut, hscan, hpercent⟩ := decode?_by_positions
  refine ⟨?_, ?_, ?_⟩
  · obtain ⟨front, back, hfront, hback, happend⟩ :=
      hcut "a%41" "%4%41" (by decide) (by decide) (by decide)
    have hfront' : decode? "a%41" = some [0x61, 0x41] := by decide
    have hback' : decode? "%4%41" = some [0x25, 0x34, 0x41] := by decide
    obtain rfl := Option.some.inj (hfront.symm.trans hfront')
    obtain rfl := Option.some.inj (hback.symm.trans hback')
    exact happend
  · obtain ⟨positions, result, hunique, -⟩ := hscan "%4%41"
    have hend : Scans "%4%41" 5 [5] (.ok []) := .finished (by decide)
    have hescape : Scans "%4%41" 2 [2, 5] (.ok [0x41]) :=
      .stepped (by decide) (show stepAt _ 2 = .ok ([0x41], 5) from rfl) hend
    have hdigit : Scans "%4%41" 1 [1, 2, 5] (.ok [0x34, 0x41]) :=
      .stepped (by decide) (show stepAt _ 1 = .ok ([0x34], 2) from rfl) hescape
    have hrun : Scans "%4%41" 0 [0, 1, 2, 5] (.ok [0x25, 0x34, 0x41]) :=
      .stepped (by decide) (show stepAt _ 0 = .ok ([0x25], 1) from rfl) hdigit
    obtain ⟨rfl, rfl⟩ := (hunique _ _).1 hrun
    exact (hunique _ _).2 ⟨rfl, rfl⟩
  · have hbegins : ¬ BeginsWithDigits "4z" := fun h =>
      absurd (beginsWithDigits_cons_cons.1 h).2 (by decide)
    have hfront : decode? "%4" = some [0x25, 0x34] := by decide
    have hback : decode? "4z" = some [0x34, 0x7A] := by decide
    refine (hpercent "%4" "4z" hbegins).trans ?_
    rw [hfront, hback]
    rfl

/-- A surrogate without bytes ends the scan where it stands. The percent sign behind it is not
scanned, and there are no bytes. -/
theorem scans_surrogate :
    Scans [.ofNat 0xD800, .ofChar '%'] 0 [0] (.error (.unwritable 0)) ∧
      (∀ positions result, Scans [.ofNat 0xD800, .ofChar '%'] 0 positions result →
        positions.getLast? ≠ some 2) ∧
      decode? [.ofNat 0xD800, .ofChar '%'] = none := by
  have hrun : Scans [.ofNat 0xD800, .ofChar '%'] 0 [0] (.error (.unwritable 0)) :=
    .stopped (by decide) rfl
  refine ⟨hrun, fun positions result h => ?_, by decide⟩
  obtain ⟨rfl, -⟩ := hrun.unique h
  decide

end Percent

end ClientStore
