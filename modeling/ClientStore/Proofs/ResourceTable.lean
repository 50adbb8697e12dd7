import ClientStore.Proofs.Command.Execution
import ClientStore.Proofs.OrderedMap
import ClientStore.Proofs.Text.Lines

/-!
# Resource strings and their table

A resource string is read from its first colon: backwards to a dot or a star, which gives the key,
and forwards over whitespace, which gives the value. Behind the colon there may be any separators,
and in front of the key there may be dots and stars; still the parts of a string are determined by
what they may not have in them, so that a string with a colon is taken apart in one way.

The last string for a key is the one that counts. A string without a colon is none for any key, so
that the table is that of the others.

## Main definitions

* `Resource.Spells` — the parts of a resource string.
* `ResourceTable.IsLast` — the value in the last string for a key.

## Main results

* `Resource.Spells.unique`, `Resource.parse?_of_spells`, `Resource.exists_spells` — a string with a
  colon has one set of parts, and the key and the value among them are read off it.
* `ResourceTable.get?_ofStrings`, `ResourceTable.get?_ofStrings_eq_none` — what the table has.
* `ResourceTable.fallback_of_strings` — what is said and what is answered for any strings.
-/

namespace ClientStore

namespace Resource

/-! ### The parts of a string -/

/-- The text is put together from names in front of the key, the key, a colon, whitespace and the
value. The first colon is the one behind the key, the key has no separator in it but one in front of
it if there is anything in front of it, and the value does not begin with whitespace. -/
structure Spells (t front key blanks value : Text) : Prop where
  eq : t = front ++ (key ++ .ofChar ':' :: (blanks ++ value))
  front_colon : CodePoint.ofChar ':' ∉ front
  key_colon : CodePoint.ofChar ':' ∉ key
  key_dot : CodePoint.ofChar '.' ∉ key
  key_star : CodePoint.ofChar '*' ∉ key
  front_end : ∀ c ∈ front.getLast?, c = .ofChar '.' ∨ c = .ofChar '*'
  blank : ∀ c ∈ blanks, c.isBlank = true
  value_head : ∀ c ∈ value.head?, c.isBlank = false

variable {t front key blanks value front' key' blanks' value' : Text}

theorem isSeparator_eq_true_iff {c : CodePoint} :
    isSeparator c = true ↔ c = .ofChar '.' ∨ c = .ofChar '*' := by
  simp [isSeparator]

/-- In what stands before the colon, the key is the run at the end that has no separator. -/
theorem key_append (hk : ∀ c ∈ key, isSeparator c = false)
    (hf : ∀ c ∈ front.getLast?, isSeparator c = true) : Resource.key (front ++ key) = key := by
  have hrun : ∀ c ∈ key.reverse, (!isSeparator c) = true := by
    intro c hc
    rw [hk c (List.mem_reverse.1 hc)]
    rfl
  have hend : ∀ c ∈ front.reverse.head?, (!isSeparator c) = false := by
    intro c hc
    rw [List.head?_reverse] at hc
    rw [hf c hc]
    rfl
  rw [Resource.key, List.reverse_append, Text.takeWhile_run hrun hend, List.reverse_reverse]

namespace Spells

theorem isSeparator_key (h : Spells t front key blanks value) :
    ∀ c ∈ key, isSeparator c = false := by
  intro c hc
  rw [← Bool.not_eq_true, isSeparator_eq_true_iff]
  rintro (rfl | rfl)
  · exact h.key_dot hc
  · exact h.key_star hc

theorem isSeparator_front (h : Spells t front key blanks value) :
    ∀ c ∈ front.getLast?, isSeparator c = true :=
  fun c hc => isSeparator_eq_true_iff.2 (h.front_end c hc)

theorem cut?_eq (h : Spells t front key blanks value) :
    t.cut? (.ofChar ':') = some (front ++ key, blanks ++ value) := by
  have hcolon : CodePoint.ofChar ':' ∉ front ++ key := by
    rw [List.mem_append, not_or]
    exact ⟨h.front_colon, h.key_colon⟩
  rw [h.eq, ← List.append_assoc, Text.cut?_append hcolon]

/-- **A string is taken apart in one way.** -/
theorem unique (h : Spells t front key blanks value) (h' : Spells t front' key' blanks' value') :
    front' = front ∧ key' = key ∧ blanks' = blanks ∧ value' = value := by
  obtain ⟨hleft, hright⟩ := Prod.mk.inj (Option.some.inj (h'.cut?_eq.symm.trans h.cut?_eq))
  have hkey : key' = key := by
    rw [← key_append h'.isSeparator_key h'.isSeparator_front, hleft,
      key_append h.isSeparator_key h.isSeparator_front]
  have hvalue : value' = value := by
    rw [← Text.dropWhile_run h'.blank h'.value_head, hright,
      Text.dropWhile_run h.blank h.value_head]
  subst hkey hvalue
  exact ⟨List.append_cancel_right hleft, rfl, List.append_cancel_right hright, rfl⟩

end Spells

/-- **The key and the value are read off a string.** -/
theorem parse?_of_spells (h : Spells t front key blanks value) :
    parse? t = some (key, value) := by
  rw [parse?, h.cut?_eq, Option.map_some, Prod.map_apply,
    key_append h.isSeparator_key h.isSeparator_front, Text.dropWhile_run h.blank h.value_head]

/-- In any text before a colon there is a key. -/
theorem exists_front (before : Text) :
    ∃ front, before = front ++ Resource.key before ∧
      ∀ c ∈ front.getLast?, isSeparator c = true := by
  refine ⟨(before.reverse.dropWhile (!isSeparator ·)).reverse, ?_, fun c hc => ?_⟩
  · rw [Resource.key, ← List.reverse_append, List.takeWhile_append_dropWhile, List.reverse_reverse]
  · rw [List.getLast?_reverse] at hc
    simpa using Text.of_mem_head?_dropWhile (!isSeparator ·) before.reverse c hc

theorem isSeparator_of_mem_key {before : Text} {c : CodePoint} (h : c ∈ Resource.key before) :
    isSeparator c = false := by
  simpa using Text.of_mem_takeWhile (!isSeparator ·) before.reverse c (List.mem_reverse.1 h)

/-- **A string with a colon has parts.** -/
theorem exists_spells (h : CodePoint.ofChar ':' ∈ t) :
    ∃ front key blanks value, Spells t front key blanks value := by
  obtain ⟨before, after, rfl, hbefore⟩ := List.eq_append_cons_of_mem h
  obtain ⟨front, hsplit, hfront⟩ := exists_front before
  rw [hsplit, List.mem_append, not_or] at hbefore
  refine ⟨front, Resource.key before, after.takeWhile CodePoint.isBlank,
    after.dropWhile CodePoint.isBlank, ?_, hbefore.1, hbefore.2, ?_, ?_, ?_, ?_, ?_⟩
  · rw [← List.append_assoc, ← hsplit, List.takeWhile_append_dropWhile]
  · exact fun hm => absurd (isSeparator_of_mem_key hm) (by decide)
  · exact fun hm => absurd (isSeparator_of_mem_key hm) (by decide)
  · exact fun c hc => isSeparator_eq_true_iff.1 (hfront c hc)
  · exact Text.of_mem_takeWhile CodePoint.isBlank after
  · exact Text.of_mem_head?_dropWhile CodePoint.isBlank after

/-- A key and a value are read off exactly the strings that they are parts of. -/
theorem parse?_eq_some_iff :
    parse? t = some (key, value) ↔ ∃ front blanks, Spells t front key blanks value := by
  refine ⟨fun h => ?_, fun ⟨front, blanks, hs⟩ => parse?_of_spells hs⟩
  obtain ⟨⟨before, after⟩, hcut, -⟩ := Option.map_eq_some_iff.1 h
  have hcolon : CodePoint.ofChar ':' ∈ t := by
    rw [Text.eq_append_of_cut? hcut]
    simp
  obtain ⟨front, key', blanks, value', hs⟩ := exists_spells hcolon
  obtain ⟨rfl, rfl⟩ := Prod.mk.inj (Option.some.inj ((parse?_of_spells hs).symm.trans h))
  exact ⟨front, blanks, hs⟩

/-- **Nothing is read off a string exactly if it has no colon.** -/
theorem parse?_eq_none_iff : parse? t = none ↔ CodePoint.ofChar ':' ∉ t := by
  constructor
  · intro h hm
    obtain ⟨front, key, blanks, value, hs⟩ := exists_spells hm
    rw [parse?_of_spells hs] at h
    contradiction
  · intro h
    rw [Option.eq_none_iff_forall_ne_some]
    rintro ⟨key, value⟩ hp
    obtain ⟨front, blanks, hs⟩ := parse?_eq_some_iff.1 hp
    rw [hs.eq] at h
    simp at h

end Resource

namespace ResourceTable

open Resource

variable {strings : List Text} {key value : Text}

/-- The string gives the key some value. -/
def HasKey (key s : Text) : Prop := ∃ front blanks value, Spells s front key blanks value

theorem hasKey_iff {s : Text} : HasKey key s ↔ (parse? s).map Prod.fst = some key := by
  rw [Option.map_eq_some_iff]
  constructor
  · rintro ⟨front, blanks, value, hs⟩
    exact ⟨(key, value), parse?_of_spells hs, rfl⟩
  · rintro ⟨⟨_, value⟩, hp, rfl⟩
    obtain ⟨front, blanks, hs⟩ := parse?_eq_some_iff.1 hp
    exact ⟨front, blanks, value, hs⟩

instance (key s : Text) : Decidable (HasKey key s) := decidable_of_iff' _ hasKey_iff

/-- The last of the strings that give the key a value gives it this value. -/
def IsLast (strings : List Text) (key value : Text) : Prop :=
  ∃ earlier s later front blanks, strings = earlier ++ s :: later ∧
    Spells s front key blanks value ∧ ∀ u ∈ later, ¬ HasKey key u

theorem lastValue_eq_none (h : ∀ s ∈ strings, ¬ HasKey key s) :
    OrderedMap.lastValue (strings.filterMap parse?) key = none := by
  rw [Option.eq_none_iff_forall_ne_some]
  intro value hv
  obtain ⟨s, hs, hp⟩ := List.mem_filterMap.1 (OrderedMap.mem_of_lastValue hv)
  obtain ⟨front, blanks, hspells⟩ := parse?_eq_some_iff.1 hp
  exact h s hs ⟨front, blanks, value, hspells⟩

/-- **A table of strings has the value in the last string for a key.** -/
theorem get?_ofStrings (h : IsLast strings key value) (default? : Option (Text → Option Text)) :
    (ofStrings strings default?).1.values.get? key = some value := by
  obtain ⟨earlier, s, later, front, blanks, rfl, hs, hlater⟩ := h
  have hself : OrderedMap.lastValue [(key, value)] key = some value := by
    simp [OrderedMap.lastValue]
  rw [ofStrings, OrderedMap.get?_ofList, List.filterMap_append,
    List.filterMap_cons_some (parse?_of_spells hs), ← List.singleton_append,
    OrderedMap.lastValue_append, OrderedMap.lastValue_append, lastValue_eq_none hlater, hself]
  rfl

/-- **For a key that no string has there is nothing in the table.** -/
theorem get?_ofStrings_eq_none (h : ∀ s ∈ strings, ¬ HasKey key s)
    (default? : Option (Text → Option Text)) :
    (ofStrings strings default?).1.values.get? key = none :=
  (OrderedMap.get?_ofList _ key).trans (lastValue_eq_none h)

/-- Every key has a last string, unless it has none. -/
theorem forall_not_hasKey_or (strings : List Text) (key : Text) :
    (∀ s ∈ strings, ¬ HasKey key s) ∨ ∃ value, IsLast strings key value := by
  induction strings with
  | nil => exact .inl (List.forall_mem_nil _)
  | cons s strings ih =>
    rcases ih with hnone | ⟨value, earlier, u, later, front, blanks, rfl, hu, hlater⟩
    · by_cases hs : HasKey key s
      · obtain ⟨front, blanks, value, hs⟩ := hs
        exact .inr ⟨value, [], s, strings, front, blanks, rfl, hs, hnone⟩
      · exact .inl (List.forall_mem_cons.2 ⟨hs, hnone⟩)
    · exact .inr ⟨value, s :: earlier, u, later, front, blanks, rfl, hu, hlater⟩

/-- The strings that are no resources are those without a colon. -/
theorem rejected_eq (strings : List Text) (default? : Option (Text → Option Text)) :
    (ofStrings strings default?).2 = strings.filter fun s => !s.contains (.ofChar ':') := by
  refine List.filter_congr fun s _ => ?_
  rw [Bool.eq_iff_iff, Option.isNone_iff_eq_none, parse?_eq_none_iff]
  simp

/-- They make no difference to the table. -/
theorem ofStrings_filter (strings : List Text) (default? : Option (Text → Option Text)) :
    (ofStrings (strings.filter fun s => s.contains (.ofChar ':')) default?).1 =
      (ofStrings strings default?).1 := by
  have hparse (s : Text) :
      (if s.contains (.ofChar ':') = true then parse? s else none) = parse? s := by
    split
    · rfl
    · next h => exact (parse?_eq_none_iff.2 (mt List.contains_iff_mem.2 h)).symm
  rw [ofStrings, ofStrings, List.filterMap_filter]
  simp only [hparse]

/-- **What is said and what is answered for any resource strings.** A string without a colon is
none; any other one is taken apart in one way, and the key and the value among its parts are read
off it. The table gives a key the value in the last string for it, and nobody is asked for that.
For a key without a string the source of defaults is asked, once, if there is one. The strings that
are none make no difference to the table, and there is one warning about each of them, in order. -/
theorem fallback_of_strings :
    (∀ t : Text, parse? t = none ↔ CodePoint.ofChar ':' ∉ t) ∧
    (∀ t : Text, CodePoint.ofChar ':' ∈ t → ∃ front key blanks value,
      Spells t front key blanks value ∧ parse? t = some (key, value) ∧
        ∀ front' key' blanks' value', Spells t front' key' blanks' value' →
          front' = front ∧ key' = key ∧ blanks' = blanks ∧ value' = value) ∧
    ∀ (l : Layout) (strings : List Text) (default? : Option (Text → Option Text)) (w : World),
      (∀ key value, IsLast strings key value →
        SessionStore.fallback ⟨l, (ofStrings strings default?).1⟩ key w = .ok (some value) w) ∧
      (∀ key, (∀ s ∈ strings, ¬ HasKey key s) →
        SessionStore.fallback ⟨l, (ofStrings strings default?).1⟩ key w =
          match default? with
          | some answer => .ok (answer key) { w with journal := w.journal ++ [.asked key] }
          | none => .ok none w) ∧
      (∀ key, (∀ s ∈ strings, ¬ HasKey key s) ∨ ∃ value, IsLast strings key value) ∧
      (ofStrings (strings.filter fun s => s.contains (.ofChar ':')) default?).1 =
        (ofStrings strings default?).1 ∧
      complain (ofStrings strings default?).2 w = .ok () { w with
        journal := w.journal ++ (strings.filter fun s => !s.contains (.ofChar ':')).map
          fun s => .logged .warning (complaint s) } := by
  refine ⟨fun t => parse?_eq_none_iff, fun t ht => ?_, fun l strings default? w =>
    ⟨fun key value h => ?_, fun key h => ?_, forall_not_hasKey_or strings,
      ofStrings_filter strings default?, ?_⟩⟩
  · obtain ⟨front, key, blanks, value, hs⟩ := exists_spells ht
    exact ⟨front, key, blanks, value, hs, parse?_of_spells hs, fun _ _ _ _ => hs.unique⟩
  · rw [SessionStore.fallback, source, get?_ofStrings h]
    rfl
  · rw [SessionStore.fallback, source, get?_ofStrings_eq_none h, ofStrings]
    cases default? with
    | some answer => rfl
    | none => rfl
  · rw [complain_eq, rejected_eq]

/-- Strings with names and a star in front of the key, with more colons behind it, without a colon,
and with nothing in front of the colon. -/
def sampleStrings : List Text := ["a.b*Url: none", "*Url:\t http://x:80", "no colon", ": v"]

/-- A source of defaults that knows a color. -/
def sampleDefaults : Text → Option Text := fun key => if key = "Color" then some "red" else none

/-- The last address counts, and the color has to be asked for. -/
theorem fallback_of_sampleStrings :
    (∃ blanks, Spells "*Url:\t http://x:80" "*" "Url" blanks "http://x:80") ∧
    SessionStore.fallback ⟨.sample, (ofStrings sampleStrings (some sampleDefaults)).1⟩ "Url"
      .bare = .ok (some "http://x:80") .bare ∧
    SessionStore.fallback ⟨.sample, (ofStrings sampleStrings (some sampleDefaults)).1⟩ "Color"
      .bare = .ok (some "red") { World.bare with journal := [.asked "Color"] } ∧
    complain (ofStrings sampleStrings (some sampleDefaults)).2 .bare =
      .ok () { World.bare with journal :=
        [.logged .warning "Expected a colon in resource string 'no colon'; ignored"] } := by
  obtain ⟨-, hparts, htable⟩ := fallback_of_strings
  obtain ⟨hlast, hdefault, -, -, hwarned⟩ :=
    htable .sample sampleStrings (some sampleDefaults) .bare
  obtain ⟨front, key, blanks, value, hs, -, hunique⟩ :=
    hparts "*Url:\t http://x:80" (by decide)
  have hurl : Spells "*Url:\t http://x:80" "*" "Url" "\t " "http://x:80" :=
    ⟨rfl, by decide, by decide, by decide, by decide, fun c hc => by cases hc; exact .inr rfl,
      List.all_eq_true.1 (by decide), fun c hc => by cases hc; rfl⟩
  obtain ⟨rfl, rfl, rfl, rfl⟩ := hunique _ _ _ _ hurl
  have hislast : IsLast sampleStrings "Url" "http://x:80" :=
    ⟨["a.b*Url: none"], _, ["no colon", ": v"], _, _, rfl, hurl, by decide⟩
  have hwarnings : (sampleStrings.filter fun s => !s.contains (.ofChar ':')).map
      (fun s => Event.logged .warning (complaint s)) =
        [.logged .warning "Expected a colon in resource string 'no colon'; ignored"] := by
    decide +kernel
  refine ⟨⟨_, hs⟩, hlast _ _ hislast, hdefault _ (by decide), hwarned.trans ?_⟩
  rw [hwarnings]
  rfl

end ResourceTable

end ClientStore
