import ClientStore.Decimal
import Mathlib.Algebra.Group.Nat.Defs

/-!
# Numbers and their digits

The digits of a number are ASCII digits, there is at least one, and their value is the number. A
number can be written exactly if it has not too many digits, and then it can be read back. Whether
it can be written or not, it has one numeral, which no other number has.

## Main definitions

* `Decimal.plain` — digits without the zeros in front of them.
* `Decimal.Begins` — a text begins with an integer.
* `Decimal.Gives` — the integer that a value stands for, however many digits it has.
* `Decimal.IsOverlong` — a text begins with an integer of too many digits.

## Main results

* `Decimal.value_digits` — the digits of a number spell it.
* `Decimal.digits_value` — which digits a number has that some digits spell.
* `Decimal.natural_digits` — a number that can be written can be read.
* `Decimal.leading_of_begins`, `Decimal.leading_of_not_begins` — a text gives the integer that it
  begins with, and zero if there is none.
* `Decimal.gives_iff`, `Decimal.leading_of_isOverlong` — a value stands for one integer, but a text
  with too many digits does not give it.
* `Decimal.numeral_injective` — numbers with the same numeral are the same.
* `Decimal.natAbs_lt_of_integer?` — an integer that an argument spells can be written.
-/

namespace ClientStore.Decimal

/-- The digits of a number spell it. -/
theorem value_digits (n : Nat) : value (digits n) = n := by
  rw [value, digits, List.foldl_map]
  exact Nat.ofDigitChars_ten_toDigits

theorem digits_injective {n m : Nat} (h : digits n = digits m) : n = m := by
  rw [← value_digits n, h, value_digits]

theorem digits_ne_nil (n : Nat) : digits n ≠ [] :=
  fun h => Nat.toDigits_ne_nil (List.map_eq_nil_iff.1 h)

theorem isAsciiDigit_of_mem_digits {n : Nat} {c : CodePoint} (h : c ∈ digits n) :
    c.isAsciiDigit = true := by
  obtain ⟨d, hd, rfl⟩ := List.mem_map.1 h
  have hdigit := Nat.isDigit_of_mem_toDigits (by decide) (by decide) hd
  simp only [Char.isDigit, Bool.and_eq_true, decide_eq_true_eq, UInt32.le_iff_toNat_le] at hdigit
  simp only [CodePoint.isAsciiDigit, Bool.and_eq_true, decide_eq_true_eq]
  exact hdigit

/-- Nothing that is no digit is among the digits of a number. -/
theorem not_mem_digits {c : CodePoint} (h : c.isAsciiDigit = false) (n : Nat) : c ∉ digits n := by
  intro hm
  rw [isAsciiDigit_of_mem_digits hm] at h
  contradiction

theorem length_digits_le_iff {n k : Nat} (hk : 0 < k) : (digits n).length ≤ k ↔ n < 10 ^ k := by
  rw [digits, List.length_map]
  exact Nat.length_toDigits_le_iff (by decide) hk

/-- **A number that can be written can be read.** -/
theorem natural_digits {n : Nat} (h : n < 10 ^ maxDigits) : natural (digits n) = .ok n := by
  rw [natural, if_pos ((length_digits_le_iff (by decide)).2 h), value_digits]

/-! ### Zeros in front of a number -/

/-- The digits of a number without the zeros in front. Of a number that is zero one is kept. -/
def plain (ds : Text) : Text :=
  match ds.dropWhile (· = .ofChar '0') with
  | [] => [.ofChar '0']
  | rest => rest

theorem plain_cons_of_ne {d : CodePoint} (h : d ≠ .ofChar '0') (ds : Text) :
    plain (d :: ds) = d :: ds := by
  rw [plain, List.dropWhile_cons_of_neg (by simpa using h)]

theorem val_of_isAsciiDigit {d : CodePoint} (h : d.isAsciiDigit = true) :
    0x30 ≤ d.val ∧ d.val - 0x30 < 10 := by
  simp only [CodePoint.isAsciiDigit, Bool.and_eq_true, decide_eq_true_eq] at h
  omega

theorem digits_of_lt : ∀ n < 10, digits n = [.ofNat (0x30 + n)] := by decide

theorem digits_val {d : CodePoint} (h : d.isAsciiDigit = true) : digits (d.val - 0x30) = [d] := by
  obtain ⟨hle, hlt⟩ := val_of_isAsciiDigit h
  have hd : CodePoint.ofNat d.val = d := Fin.ext (Nat.mod_eq_of_lt d.isLt)
  rw [digits_of_lt _ hlt, Nat.add_sub_cancel' hle, hd]

/-- Behind a number that is not zero every digit counts. -/
theorem digits_foldl {ds : Text} (h : ∀ d ∈ ds, d.isAsciiDigit = true) {n : Nat} (hn : 0 < n) :
    digits (ds.foldl (fun n d => 10 * n + (d.val - 0x30)) n) = digits n ++ ds := by
  induction ds generalizing n with
  | nil => simp
  | cons d ds ih =>
    rw [List.forall_mem_cons] at h
    have hlt := (val_of_isAsciiDigit h.1).2
    have hd : digits (10 * n + (d.val - 0x30)) = digits n ++ [d] := by
      rw [← digits_val h.1, digits, digits, digits, ← List.map_append,
        Nat.toDigits_append_toDigits (by decide) hn hlt]
    rw [List.foldl_cons, ih h.2 (by omega), hd, List.append_assoc, List.singleton_append]

/-- **A number is written without the zeros in front that it was read with.** -/
theorem digits_value {ds : Text} (h : ∀ d ∈ ds, d.isAsciiDigit = true) :
    digits (value ds) = plain ds := by
  induction ds with
  | nil => rfl
  | cons d ds ih =>
    rw [List.forall_mem_cons] at h
    by_cases hd : d = .ofChar '0'
    · rw [hd]
      exact ih h.2
    · have hpos : 0 < d.val - 0x30 := by
        refine Nat.sub_pos_of_lt (Nat.lt_of_le_of_ne (val_of_isAsciiDigit h.1).1 ?_)
        exact fun he => hd (Fin.ext he.symm)
      have hv : value (d :: ds) = ds.foldl (fun n d => 10 * n + (d.val - 0x30)) (d.val - 0x30) := by
        rw [value, List.foldl_cons, Nat.mul_zero, Nat.zero_add]
      rw [plain_cons_of_ne hd, hv, digits_foldl h.2 hpos, digits_val h.1, List.singleton_append]

/-! ### Integers at the beginning of a text -/

/-- The digits of the integer at the beginning of a text. -/
def leadingDigits (t : Text) : Text :=
  (sign (t.dropWhile CodePoint.isBlank)).2.takeWhile CodePoint.isAsciiDigit

/-- The integer at the beginning of a text, however many digits it has. -/
def leadingValue (t : Text) : Int :=
  signed (sign (t.dropWhile CodePoint.isBlank)).1 (value (leadingDigits t))

/-- **A text gives the integer at its beginning**, if that has not too many digits. -/
theorem leading_eq {t : Text} (h : (leadingDigits t).length ≤ maxDigits) :
    leading t = .ok (leadingValue t) := by
  rw [leadingDigits] at h
  rw [leading, leadingValue, leadingDigits]
  generalize sign (t.dropWhile CodePoint.isBlank) = start at h ⊢
  obtain ⟨negative, rest⟩ := start
  dsimp only at h ⊢
  cases hds : rest.takeWhile CodePoint.isAsciiDigit with
  | nil => simp [value, signed]
  | cons d ds =>
    rw [hds] at h
    have hn : natural (d :: ds) = .ok (value (d :: ds)) := if_pos h
    dsimp only
    rw [hn]
    rfl

/-- A sign or none, as whether it is negative. -/
inductive IsSign : Text → Bool → Prop
  | none : IsSign [] false
  | plus : IsSign [.ofChar '+'] false
  | minus : IsSign [.ofChar '-'] true

/-- The text begins with an integer: there are blanks, a sign or none, and digits. There is at least
one digit, and no digit follows. -/
def Begins (t : Text) (negative : Bool) (ds : Text) : Prop :=
  ∃ blanks sgn rest, t = blanks ++ (sgn ++ (ds ++ rest)) ∧
    (∀ c ∈ blanks, c.isBlank = true) ∧ IsSign sgn negative ∧
    ds ≠ [] ∧ (∀ c ∈ ds, c.isAsciiDigit = true) ∧ ∀ c ∈ rest.head?, c.isAsciiDigit = false

/-- A digit is neither a blank nor a sign. -/
theorem of_isAsciiDigit {c : CodePoint} (h : c.isAsciiDigit = true) :
    c.isBlank = false ∧ c ≠ .ofChar '-' ∧ c ≠ .ofChar '+' := by
  refine ⟨?_, ?_, ?_⟩
  · simp only [CodePoint.isAsciiDigit, Bool.and_eq_true, decide_eq_true_eq] at h
    simp only [CodePoint.isBlank, Bool.or_eq_false_iff, Bool.and_eq_false_iff,
      decide_eq_false_iff_not]
    omega
  · rintro rfl
    exact absurd h (by decide)
  · rintro rfl
    exact absurd h (by decide)

/-- A sign is taken off where there is one. -/
theorem exists_isSign_append (t : Text) :
    ∃ sgn, IsSign sgn (sign t).1 ∧ t = sgn ++ (sign t).2 := by
  cases t with
  | nil => exact ⟨[], .none, rfl⟩
  | cons c rest =>
    rw [sign]
    split
    · next h => exact ⟨_, .minus, by rw [h]; rfl⟩
    · split
      · next h => exact ⟨_, .plus, by rw [h]; rfl⟩
      · exact ⟨[], .none, rfl⟩

section

variable {sgn ds : Text} {negative : Bool}

/-- Of a sign in front of digits nothing is left. -/
theorem IsSign.sign_append (h : IsSign sgn negative) (hne : ds ≠ [])
    (hds : ∀ c ∈ ds, c.isAsciiDigit = true) (rest : Text) :
    sign (sgn ++ (ds ++ rest)) = (negative, ds ++ rest) := by
  cases h with
  | plus => rfl
  | minus => rfl
  | none =>
    obtain ⟨d, ds, rfl⟩ := List.exists_cons_of_ne_nil hne
    obtain ⟨-, hminus, hplus⟩ := of_isAsciiDigit (hds d List.mem_cons_self)
    show sign (d :: (ds ++ rest)) = _
    rw [sign, if_neg hminus, if_neg hplus]
    rfl

/-- There are no blanks in front of a sign or digits. -/
theorem IsSign.dropWhile_append (h : IsSign sgn negative) (hne : ds ≠ [])
    (hds : ∀ c ∈ ds, c.isAsciiDigit = true) (rest : Text) :
    (sgn ++ (ds ++ rest)).dropWhile CodePoint.isBlank = sgn ++ (ds ++ rest) := by
  cases h with
  | plus => exact List.dropWhile_cons_of_neg (by decide)
  | minus => exact List.dropWhile_cons_of_neg (by decide)
  | none =>
    obtain ⟨d, ds, rfl⟩ := List.exists_cons_of_ne_nil hne
    obtain ⟨hblank, -⟩ := of_isAsciiDigit (hds d List.mem_cons_self)
    exact List.dropWhile_cons_of_neg (by simp [hblank])

/-- What a text begins with is known: blanks and a sign are passed over, and then the digits are
taken as far as they go. -/
theorem begins_iff {t : Text} :
    Begins t negative ds ↔
      (sign (t.dropWhile CodePoint.isBlank)).1 = negative ∧ leadingDigits t = ds ∧ ds ≠ [] := by
  constructor
  · rintro ⟨blanks, sgn, rest, rfl, hblanks, hsign, hne, hds, hrest⟩
    rw [leadingDigits, List.dropWhile_append_of_pos hblanks, hsign.dropWhile_append hne hds,
      hsign.sign_append hne hds]
    exact ⟨rfl, Text.takeWhile_run hds hrest, hne⟩
  · rintro ⟨hsigned, hdigits, hne⟩
    obtain ⟨sgn, hsign, hsplit⟩ := exists_isSign_append (t.dropWhile CodePoint.isBlank)
    rw [leadingDigits] at hdigits
    generalize sign (t.dropWhile CodePoint.isBlank) = start at hsigned hdigits hsign hsplit
    refine ⟨t.takeWhile CodePoint.isBlank, sgn, start.2.dropWhile CodePoint.isAsciiDigit, ?_, ?_,
      hsigned ▸ hsign, hne, ?_, ?_⟩
    · rw [← hdigits, List.takeWhile_append_dropWhile, ← hsplit, List.takeWhile_append_dropWhile]
    · exact Text.of_mem_takeWhile CodePoint.isBlank t
    · rw [← hdigits]
      exact Text.of_mem_takeWhile CodePoint.isAsciiDigit start.2
    · exact Text.of_mem_head?_dropWhile CodePoint.isAsciiDigit start.2

/-- A text begins with no integer exactly if there is no digit where one would begin. -/
theorem forall_not_begins_iff {t : Text} :
    (∀ negative ds, ¬ Begins t negative ds) ↔ leadingDigits t = [] := by
  constructor
  · intro h
    exact Classical.byContradiction fun hne => h _ _ (begins_iff.2 ⟨rfl, rfl, hne⟩)
  · intro h negative ds hb
    obtain ⟨-, hdigits, hne⟩ := begins_iff.1 hb
    exact hne (hdigits.symm.trans h)

/-- **A text that begins with an integer gives it**, unless it has too many digits. -/
theorem leading_of_begins {t : Text} (h : Begins t negative ds) :
    leading t = (natural ds).map (signed negative) := by
  obtain ⟨hsign, hdigits, hne⟩ := begins_iff.1 h
  rw [leadingDigits] at hdigits
  rw [leading]
  generalize sign (t.dropWhile CodePoint.isBlank) = start at hsign hdigits
  obtain ⟨_, rest⟩ := start
  dsimp only at hsign hdigits ⊢
  rw [hsign, hdigits]
  cases ds with
  | nil => exact absurd rfl hne
  | cons d ds => rfl

/-- **A text that does not begin with an integer gives zero.** -/
theorem leading_of_not_begins {t : Text} (h : ∀ negative ds, ¬ Begins t negative ds) :
    leading t = .ok 0 := by
  have hdigits := forall_not_begins_iff.1 h
  rw [leadingDigits] at hdigits
  rw [leading]
  dsimp only
  rw [hdigits]

end

/-! ### Integers of any length -/

/-- The integer that a value stands for, however many digits it has: the one that the text begins
with, zero if it begins with none, and the default if there is no text. -/
inductive Gives (default : Int) : Option Text → Int → Prop
  | absent : Gives default none default
  | number {t ds : Text} {negative : Bool} (h : Begins t negative ds) :
      Gives default (some t) (signed negative (value ds))
  | other {t : Text} (h : ∀ negative ds, ¬ Begins t negative ds) : Gives default (some t) 0

/-- The text begins with an integer of more digits than are converted. -/
def IsOverlong (t : Text) : Prop :=
  ∃ negative ds, Begins t negative ds ∧ maxDigits < ds.length

variable {t : Text} {v : Option Text} {default n : Int}

theorem leadingValue_eq_zero (h : leadingDigits t = []) : leadingValue t = 0 := by
  rw [leadingValue, h]
  cases (sign (t.dropWhile CodePoint.isBlank)).1 <;> rfl

/-- **Every value stands for one integer.** -/
theorem gives_iff : Gives default v n ↔ n = v.elim default leadingValue := by
  constructor
  · intro h
    cases h with
    | absent => rfl
    | number h =>
      obtain ⟨rfl, rfl, -⟩ := begins_iff.1 h
      rfl
    | other h => exact (leadingValue_eq_zero (forall_not_begins_iff.1 h)).symm
  · rintro rfl
    cases v with
    | none => exact .absent
    | some t =>
      show Gives default (some t) (leadingValue t)
      by_cases h : leadingDigits t = []
      · rw [leadingValue_eq_zero h]
        exact .other (forall_not_begins_iff.2 h)
      · exact .number (begins_iff.2 ⟨rfl, rfl, h⟩)

theorem exists_gives (default : Int) (v : Option Text) : ∃ n, Gives default v n :=
  ⟨_, gives_iff.2 rfl⟩

theorem Gives.unique {m : Int} (h : Gives default v n) (h' : Gives default v m) : m = n :=
  (gives_iff.1 h').trans (gives_iff.1 h).symm

theorem isOverlong_iff : IsOverlong t ↔ maxDigits < (leadingDigits t).length := by
  constructor
  · rintro ⟨negative, ds, h, hlt⟩
    rwa [(begins_iff.1 h).2.1]
  · intro h
    exact ⟨_, _, begins_iff.2 ⟨rfl, rfl, List.ne_nil_of_length_pos (Nat.zero_lt_of_lt h)⟩, h⟩

instance (t : Text) : Decidable (IsOverlong t) := decidable_of_iff' _ isOverlong_iff

theorem leading_of_not_isOverlong (h : ¬ IsOverlong t) : leading t = .ok (leadingValue t) :=
  leading_eq (Nat.not_lt.1 (mt isOverlong_iff.2 h))

/-- **An integer of too many digits is refused.** -/
theorem leading_of_isOverlong (h : IsOverlong t) : leading t = .error .tooManyDigits := by
  obtain ⟨negative, ds, hb, hlt⟩ := h
  have hrefused : natural ds = .error .tooManyDigits := if_neg (Nat.not_le.2 hlt)
  rw [leading_of_begins hb, hrefused]
  rfl

/-- Zeros in front count for nothing in the value of digits. -/
theorem value_zeros_append (k : Nat) (ds : Text) :
    value (List.replicate k (.ofChar '0') ++ ds) = value ds := by
  induction k with
  | zero => rfl
  | succ k ih => exact ih

/-! ### Integers -/

theorem numeral_of_nonneg {i : Int} (h : 0 ≤ i) : numeral i = digits i.natAbs :=
  if_neg (Int.not_lt.2 h)

theorem numeral_of_neg {i : Int} (h : i < 0) :
    numeral i = .ofChar '-' :: digits i.natAbs :=
  if_pos h

theorem render_of_lt {i : Int} (h : i.natAbs < 10 ^ maxDigits) : render i = .ok (numeral i) := by
  rw [render, Nat.pow_eq, if_pos h]

theorem render_of_le {i : Int} (h : 10 ^ maxDigits ≤ i.natAbs) :
    render i = .error .tooManyDigits := by
  rw [render, Nat.pow_eq, if_neg (Nat.not_lt.2 h)]

/-- A numeral consists of digits and perhaps a minus sign. -/
theorem mem_numeral {i : Int} {c : CodePoint} (h : c ∈ numeral i) :
    c.isAsciiDigit = true ∨ c = .ofChar '-' := by
  rcases Int.lt_or_le i 0 with hi | hi
  · rw [numeral_of_neg hi, List.mem_cons] at h
    exact h.symm.imp_left isAsciiDigit_of_mem_digits
  · rw [numeral_of_nonneg hi] at h
    exact .inl (isAsciiDigit_of_mem_digits h)

theorem isSurrogate_of_isAsciiDigit {c : CodePoint} (h : c.isAsciiDigit = true) :
    c.isSurrogate = false := by
  simp only [CodePoint.isAsciiDigit, Bool.and_eq_true, decide_eq_true_eq] at h
  simp only [CodePoint.isSurrogate, Bool.and_eq_false_iff, decide_eq_false_iff_not]
  omega

theorem hasSurrogate_numeral (i : Int) : (numeral i).hasSurrogate = false := by
  refine List.any_eq_false.2 fun c hc => ?_
  rw [Bool.not_eq_true]
  rcases mem_numeral hc with hd | rfl
  · exact isSurrogate_of_isAsciiDigit hd
  · decide

/-- **Numbers with the same numeral are the same.** -/
theorem numeral_injective {i j : Int} (h : numeral i = numeral j) : i = j := by
  have minus (n : Nat) : CodePoint.ofChar '-' ∉ digits n := not_mem_digits (by decide) n
  rcases Int.lt_or_le i 0 with hi | hi <;> rcases Int.lt_or_le j 0 with hj | hj
  · rw [numeral_of_neg hi, numeral_of_neg hj, List.cons.injEq] at h
    have := digits_injective h.2
    omega
  · rw [numeral_of_neg hi, numeral_of_nonneg hj] at h
    exact absurd (h ▸ List.mem_cons_self) (minus j.natAbs)
  · rw [numeral_of_nonneg hi, numeral_of_neg hj] at h
    exact absurd (h ▸ List.mem_cons_self) (minus i.natAbs)
  · rw [numeral_of_nonneg hi, numeral_of_nonneg hj] at h
    have := digits_injective h
    omega

theorem begins_numeral (i : Int) : Begins (numeral i) (decide (i < 0)) (digits i.natAbs) := by
  have hds : ∀ c ∈ digits i.natAbs, c.isAsciiDigit = true := fun _ => isAsciiDigit_of_mem_digits
  rcases Int.lt_or_le i 0 with hi | hi
  · rw [numeral_of_neg hi, decide_eq_true hi]
    exact ⟨[], _, [], by simp, by simp, .minus, digits_ne_nil _, hds, by simp⟩
  · rw [numeral_of_nonneg hi, decide_eq_false (Int.not_lt.2 hi)]
    exact ⟨[], _, [], by simp, by simp, .none, digits_ne_nil _, hds, by simp⟩

/-- **A numeral gives the integer back.** -/
theorem leading_numeral {i : Int} (h : i.natAbs < 10 ^ maxDigits) :
    leading (numeral i) = .ok i := by
  have hsigned : signed (decide (i < 0)) i.natAbs = i := by
    rcases Int.lt_or_le i 0 with hi | hi
    · rw [decide_eq_true hi]
      show -(i.natAbs : Int) = i
      omega
    · rw [decide_eq_false (Int.not_lt.2 hi)]
      show (i.natAbs : Int) = i
      omega
  rw [leading_of_begins (begins_numeral i), natural_digits h]
  exact congrArg Except.ok hsigned

/-! ### Integers that arguments spell -/

theorem digitValue?_lt {c : CodePoint} {n : Nat} (h : c.digitValue? = some n) : n < 10 := by
  obtain ⟨first, hf, rfl⟩ := Option.map_eq_some_iff.1 h
  have hrange := List.find?_some hf
  simp only [Bool.and_eq_true, decide_eq_true_eq] at hrange
  omega

theorem lt_of_mem_groupedDigits? {t : Text} {ds : List Nat} (h : groupedDigits? t = some ds) :
    ∀ d ∈ ds, d < 10 := by
  fun_induction groupedDigits? t generalizing ds with
  | case1 => contradiction
  | case2 c =>
    obtain ⟨n, hn, rfl⟩ := Option.map_eq_some_iff.1 h
    simpa using digitValue?_lt hn
  | case3 => contradiction
  | case4 c rest n hn ih =>
    obtain ⟨ns, hns, rfl⟩ := Option.map_eq_some_iff.1 h
    exact List.forall_mem_cons.2 ⟨digitValue?_lt hn, ih hns⟩
  | case5 c d rest n hn hd ih =>
    obtain ⟨ns, hns, rfl⟩ := Option.map_eq_some_iff.1 h
    exact List.forall_mem_cons.2 ⟨digitValue?_lt hn, ih hns⟩

theorem foldl_lt_pow {ds : List Nat} (h : ∀ d ∈ ds, d < 10) {n k : Nat} (hn : n < 10 ^ k) :
    ds.foldl (fun n d => 10 * n + d) n < 10 ^ (k + ds.length) := by
  induction ds generalizing n k with
  | nil => exact hn
  | cons d ds ih =>
    have hd := h d List.mem_cons_self
    have hstep : 10 * n + d < 10 ^ (k + 1) := by
      rw [Nat.pow_succ]
      omega
    rw [List.foldl_cons, List.length_cons, ← Nat.add_assoc, Nat.add_right_comm]
    exact ih (fun e he => h e (List.mem_cons_of_mem _ he)) hstep

/-- A number has at most as many digits as it is written with. -/
theorem value_lt_pow {ds : Text} (h : ∀ c ∈ ds, c.isAsciiDigit = true) :
    value ds < 10 ^ ds.length := by
  have hdigits : ∀ d ∈ ds.map fun c => c.val - 0x30, d < 10 := by
    intro d hd
    obtain ⟨c, hc, rfl⟩ := List.mem_map.1 hd
    exact (val_of_isAsciiDigit (h c hc)).2
  have hlt := foldl_lt_pow hdigits (n := 0) (k := 0) (by decide)
  rwa [List.foldl_map, List.length_map, Nat.zero_add] at hlt

theorem natAbs_signed (negative : Bool) (n : Nat) : (signed negative n).natAbs = n := by
  cases negative with
  | true => exact Int.natAbs_neg n
  | false => rfl

/-- **An integer that an argument spells can be written.** -/
theorem natAbs_lt_of_integer? {t : Text} {i : Int} (h : integer? t = some i) :
    i.natAbs < 10 ^ maxDigits := by
  rw [integer?] at h
  generalize sign (t.trim isPadding) = parts at h
  obtain ⟨negative, rest⟩ := parts
  dsimp only at h
  split at h
  · contradiction
  · next ds hds =>
    obtain ⟨hlen, hi⟩ := Option.ite_none_right_eq_some.1 h
    have hlt := foldl_lt_pow (lt_of_mem_groupedDigits? hds) (n := 0) (k := 0) (by decide)
    rw [Nat.zero_add] at hlt
    rw [← Option.some.inj hi, natAbs_signed]
    exact Nat.lt_of_lt_of_le hlt (Nat.pow_le_pow_right (by decide) hlen)

end ClientStore.Decimal
