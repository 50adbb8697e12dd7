import ClientStore.Command.Arguments
import ClientStore.Proofs.Decimal
import Mathlib.Data.List.TakeWhile

/-!
# Arguments that are words

An argument that does not begin with a dash is a word, whatever else is in it. Words fill the places
of a grammar in order, one each, and the last place may take any number; so a command whose
arguments are words is what its name and its words say.

## Main definitions

* `Grammar.IsWord` — arguments that are words in every grammar.
* `Command.hostKeyArguments?` — the arguments that name a host key.
* `Invocation.rootArguments` — the option that names a root.

## Main results

* `Grammar.fill_cons`, `Grammar.fill_last` — how words fill places.
* `Grammar.interpret_of_fill` — words are read by filling the places.
* `Invocation.parse_of_words` — a command with words behind the option that names a root.
* `Invocation.port_lt_of_parse` — a port that the arguments name can be written.
-/

namespace ClientStore

namespace Grammar

variable {κ : Type} {g : Grammar κ} {slot : Slot} {slots : List Slot} {t : Text} {ts : List Text}

/-- The argument is a word in every grammar. -/
def IsWord (t : Text) : Prop := t.head? ≠ some (.ofChar '-')

instance (t : Text) : Decidable (IsWord t) := inferInstanceAs (Decidable (_ ≠ _))

theorem IsWord.ne_separator (h : IsWord t) : t ≠ separator := by
  rintro rfl
  exact h rfl

theorem classify_of_isWord (g : Grammar κ) (h : IsWord t) : g.classify t = .ok .word := if_pos h

theorem withoutSeparator_of_isWord (h : ∀ t ∈ ts, IsWord t) : withoutSeparator ts = ts :=
  List.erase_of_not_mem fun hm => (h _ hm).ne_separator rfl

/-- Some arguments marked as words. -/
def asWords (κ : Type) (ts : List Text) : List (Text × Mark κ) := ts.map (·, .word)

theorem marks_cons {mark : Mark κ} (hs : t ≠ separator) (hc : g.classify t = .ok mark)
    (rest : List Text) : g.marks (t :: rest) = (g.marks rest).map ((t, mark) :: ·) := by
  rw [marks, if_neg hs, hc]
  cases g.marks rest <;> rfl

theorem marks_of_isWord (g : Grammar κ) (h : ∀ t ∈ ts, IsWord t) :
    g.marks ts = .ok (asWords κ ts) := by
  induction ts with
  | nil => rfl
  | cons t ts ih =>
    have ht := h t List.mem_cons_self
    rw [marks_cons ht.ne_separator (classify_of_isWord g ht),
      ih fun t' h' => h t' (List.mem_cons_of_mem _ h')]
    rfl

/-! ### Filling places -/

theorem takeWhile_isSeparator_asWords (ts : List Text) :
    (asWords κ ts).takeWhile (Mark.isSeparator ·.2) = [] := by
  cases ts <;> rfl

theorem isPlain_of_mem_asWords {e : Text × Mark κ} (h : e ∈ asWords κ ts) :
    Mark.isPlain e.2 = true := by
  obtain ⟨t, -, rfl⟩ := List.mem_map.1 h
  rfl

theorem map_fst_asWords (ts : List Text) : (asWords κ ts).map Prod.fst = ts := by
  rw [asWords, List.map_map]
  exact List.map_id ts

/-- A place for one word takes the first one. -/
theorem fill_cons (he : slot.extent = .one) (ha : slot.accepts t = true) (ht : IsWord t)
    {filled : List (List Text)} {taken : Nat} {left : List Slot}
    (h : fill slots (asWords κ ts) = .ok (filled, taken, left)) :
    fill (slot :: slots) (asWords κ (t :: ts)) = .ok ([t] :: filled, taken + 1, left) := by
  have hw : width? slot.extent (asWords κ (t :: ts)) = some 1 := by
    rw [he]
    show some (0 + 1 + ((asWords κ ts).takeWhile (Mark.isSeparator ·.2)).length) = _
    rw [takeWhile_isSeparator_asWords]
    rfl
  have hc : contents slot [t] = .ok [t] := by
    rw [contents, he, withoutSeparator_of_isWord (by simpa using ht)]
    simp [ha]
  rw [fill, hw, Nat.add_comm]
  show (contents slot [t] >>= fun words => fill slots (asWords κ ts) >>= _) = _
  rw [hc, h]
  rfl

/-- A last place that is not for one word takes all of them. -/
theorem fill_last (he : slot.extent ≠ .one) (hne : ts ≠ []) (ha : ∀ t ∈ ts, slot.accepts t = true)
    (hw : ∀ t ∈ ts, IsWord t) : fill [slot] (asWords κ ts) = .ok ([ts], ts.length, []) := by
  have hall : ∀ ts : List Text, (asWords κ ts).takeWhile (Mark.isPlain ·.2) = asWords κ ts :=
    fun ts => List.takeWhile_eq_self_iff.2 fun e => isPlain_of_mem_asWords
  have hwidth : width? slot.extent (asWords κ ts) = some ts.length := by
    cases ts with
    | nil => exact absurd rfl hne
    | cons t ts =>
      cases hx : slot.extent with
      | one => exact absurd hx he
      | many =>
        show some (0 + 1 + ((asWords κ ts).takeWhile (Mark.isPlain ·.2)).length) = _
        rw [hall, asWords, List.length_map, Nat.zero_add, Nat.add_comm, List.length_cons]
      | remainder =>
        show some (0 + 1 + (asWords κ ts).length) = _
        rw [asWords, List.length_map, Nat.zero_add, Nat.add_comm, List.length_cons]
  have htake : ((asWords κ ts).take ts.length).map (·.1) = ts := by
    rw [List.take_of_length_le (by simp [asWords]), map_fst_asWords]
  have hc : contents slot ts = .ok ts := by
    rw [contents, withoutSeparator_of_isWord hw]
    split
    · rfl
    · exact if_pos (List.all_eq_true.2 ha)
  rw [fill, hwidth]
  show (contents slot (((asWords κ ts).take ts.length).map (·.1)) >>= fun words => _) = _
  rw [htake, hc]
  rfl

/-! ### Reading words -/

/-- Words that fill all places are all that is read. -/
theorem run_of_fill (g : Grammar κ) (fuel : Nat) {p : Progress κ} {filled : List (List Text)}
    (h : fill p.slots (asWords κ ts) = .ok (filled, ts.length, [])) :
    g.run (fuel + 1) p (asWords κ ts) =
      .ok ⟨[], { p.matched with filled := p.matched.filled ++ filled }⟩ := by
  have hslots : fillSlots p (asWords κ ts) =
      .ok (ts.length, ⟨[], { p.matched with filled := p.matched.filled ++ filled }⟩) := by
    rw [fillSlots, h]
    rfl
  have hall : (asWords κ ts).all (Mark.isPlain ·.2) = true :=
    List.all_eq_true.2 fun e => isPlain_of_mem_asWords
  have hrest : (asWords κ ts).drop ts.length = [] := List.drop_eq_nil_of_le (by simp [asWords])
  have hend : g.run (fuel + 1) p (asWords κ ts) = fillSlots p (asWords κ ts) >>= fun r =>
      if (asWords κ ts).all (Mark.isPlain ·.2) then
        .ok (r.2.leave !((asWords κ ts).drop r.1).isEmpty)
      else if r.1 = 0 then
        g.run fuel (r.2.leave true) ((asWords κ ts).dropWhile (Mark.isPlain ·.2))
      else g.run fuel r.2 ((asWords κ ts).drop r.1) := by
    cases ts <;> rfl
  rw [hend, hslots]
  show (if _ then _ else _) = _
  rw [if_pos hall, hrest]
  simp [Progress.leave]

/-- **Words are read by filling the places.** -/
theorem interpret_of_fill {filled : List (List Text)} (hw : ∀ t ∈ ts, IsWord t)
    (h : fill g.slots (asWords κ ts) = .ok (filled, ts.length, [])) :
    g.interpret ts = .ok ⟨[], filled, false⟩ := by
  rw [interpret, marks_of_isWord g hw]
  show (g.run (ts.length + 1) ⟨g.slots, ⟨[], [], false⟩⟩ (asWords κ ts) >>= fun p => _) = _
  rw [run_of_fill g _ h]
  rfl

end Grammar

/-- What a command about a host key says about it. -/
def Command.hostKeyArguments? : Command → Option HostKeyArguments
  | checkHostKey a | addHostKey a => some a
  | _ => none

namespace Invocation

open Grammar

/-! ### The option that names a root -/

/-- The arguments that name a root, if one is named. -/
def rootArguments (root : Option Text) : List Text :=
  match root with
  | none => []
  | some t => ["--root", t]

/-- What stands in front of a command with words, and the command with its words. -/
theorem interpret_outer {root : Option Text} {ts : List Text} (hr : ∀ t ∈ root, IsWord t)
    (hne : ts ≠ []) (hw : ∀ t ∈ ts, IsWord t) :
    outer.interpret (rootArguments root ++ ts) =
      .ok ⟨(root.map fun t => (.root, [t])).toList, [ts], false⟩ := by
  have hfill : fill outer.slots (asWords SwitchKey ts) = .ok ([ts], ts.length, []) :=
    fill_last (by decide) hne (fun _ _ => rfl) hw
  cases root with
  | none => exact interpret_of_fill hw hfill
  | some t =>
    have ht : IsWord t := hr t rfl
    have hmarks : outer.marks (rootArguments (some t) ++ ts) =
        .ok ((.ofString "--root", .use ⟨⟨.root, ["--root"], true⟩, false, none⟩) ::
          (t, .word) :: asWords SwitchKey ts) := by
      have hc : outer.classify (.ofString "--root") =
          .ok (.use ⟨⟨.root, ["--root"], true⟩, false, none⟩) := by rfl
      show outer.marks (.ofString "--root" :: t :: ts) = _
      rw [marks_cons (by decide) hc, marks_cons ht.ne_separator (classify_of_isWord outer ht),
        marks_of_isWord outer hw]
      rfl
    rw [interpret, hmarks]
    have hroot : withoutSeparator [t] = [t] := withoutSeparator_of_isWord (by simpa using ht)
    show (outer.run (ts.length + 1 + 1)
      ⟨outer.slots, ⟨[(SwitchKey.root, withoutSeparator [t])], [], false⟩⟩
      (asWords SwitchKey ts) >>= fun p => _) = _
    rw [hroot, run_of_fill outer _ hfill]
    rfl

/-! ### What any arguments are read as -/

/-- The command is what one of the forms makes of some arguments. -/
theorem exists_build_of_parse {args : List Text} {i : Invocation} (h : parse args = .ok i) :
    ∃ e ∈ forms, ∃ m, i.command = e.2.build m := by
  rw [parse] at h
  cases ho : outer.interpret args with
  | error e =>
    rw [ho] at h
    contradiction
  | ok m =>
    rw [ho] at h
    dsimp only [bind, Except.bind] at h
    split at h
    · contradiction
    rename_i commandName rest hwords
    split at h
    · contradiction
    rename_i form hform
    cases hi : form.grammar.interpret rest with
    | error e =>
      rw [hi] at h
      contradiction
    | ok inner =>
      rw [hi] at h
      dsimp only at h
      split at h
      · contradiction
      obtain ⟨front, back, he, -⟩ := List.lookup_eq_some_iff.1 hform
      refine ⟨(commandName, form), by simp [he], inner, ?_⟩
      rw [← Except.ok.inj h]

/-- **A port that the arguments name can be written.** -/
theorem port_lt_of_parse {args : List Text} {i : Invocation} {a : HostKeyArguments} {port : Int}
    (h : parse args = .ok i) (ha : i.command.hostKeyArguments? = some a)
    (hp : a.port = some port) : port.natAbs < 10 ^ Decimal.maxDigits := by
  obtain ⟨e, he, m, hc⟩ := exists_build_of_parse h
  have hport : a.port = (wordsAt m 1).head?.bind Decimal.integer? := by
    rw [hc] at ha
    clear hc
    simp only [forms, List.mem_cons, List.not_mem_nil, or_false] at he
    rcases he with rfl | rfl | rfl | rfl | rfl | rfl | rfl | rfl <;> cases ha <;> rfl
  obtain ⟨t, -, ht⟩ := Option.bind_eq_some_iff.1 (hport.symm.trans hp)
  exact Decimal.natAbs_lt_of_integer? ht

/-- No command has the name of an option. -/
theorem isWord_of_lookup_forms {commandName : Text} {form : Form}
    (h : forms.lookup commandName = some form) : IsWord commandName := by
  have hall : ∀ e ∈ forms, IsWord e.1 := by decide
  obtain ⟨front, back, he, -⟩ := List.lookup_eq_some_iff.1 h
  exact hall (commandName, form) (by simp [he])

/-- **A command with words is what its name and its words say.** -/
theorem parse_of_words {root : Option Text} {commandName : Text} {ts : List Text} {form : Form}
    {filled : List (List Text)} (hr : ∀ t ∈ root, IsWord t)
    (hform : forms.lookup commandName = some form) (hw : ∀ t ∈ ts, IsWord t)
    (h : fill form.grammar.slots (asWords SwitchKey ts) = .ok (filled, ts.length, [])) :
    parse (rootArguments root ++ commandName :: ts) =
      .ok ⟨root.map some, [], 0, form.build ⟨[], filled, false⟩⟩ := by
  have hall : ∀ t ∈ commandName :: ts, IsWord t := 
    List.forall_mem_cons.2 ⟨isWord_of_lookup_forms hform, hw⟩
  rw [parse, interpret_outer hr (by simp) hall]
  simp only [bind, Except.bind, wordsAt, List.getD_cons_zero, hform, interpret_of_fill hw h]
  cases root <;> rfl

end Invocation

end ClientStore
