import ClientStore.Proofs.OrderedMap
import ClientStore.Proofs.Text.Lines
import ClientStore.Settings

/-!
# Settings that were written and read

The written form of settings is read back as a map: its keys are in the order in which they first
occur, and each has the value that it was given last. Values keep everything but the carriage
returns at their ends. This needs that a key has no equals sign and that nothing has a line feed.

What was read of any text can be written and is read back as the same map, whatever the text was.
Even a text whose bytes were no characters is taken apart only at equals signs and line feeds, and
these are never within what the bytes around them could be read as.

## Main definitions

* `Settings.FitsLine`, `Settings.Endures` — a key and a value that can be told apart on a line, and
  whose bytes are read back.
* `Settings.IsWritable` — a key and a value that fit on a line and are no bytes in disguise.
* `Settings.IsNormal` — a text that is the written form of some settings.

## Main results

* `Settings.ofText_formatEntries` — what is read back.
* `Settings.exists_encode?_entries` — what was read can be written, and it is read back.
* `Settings.formatEntries_of_isNormal` — what was read of a normal text is written as that text.
* `Settings.ofText_inverse_formatEntries` — writing and reading are inverse up to the normal form.
-/

namespace ClientStore

namespace Settings

/-- The key and the value can be told apart on a line. -/
structure FitsLine (e : Text × Text) : Prop where
  key_equals : CodePoint.ofChar '=' ∉ e.1
  key_lineFeed : CodePoint.ofChar '\n' ∉ e.1
  value_lineFeed : CodePoint.ofChar '\n' ∉ e.2

/-- The key and the value fit on a line, and their bytes are read back as they are. -/
structure Endures (e : Text × Text) : Prop extends FitsLine e where
  key_survives : Utf8.Survives e.1
  value_survives : Utf8.Survives e.2

/-- The key and the value fit on a line, and nothing in them is changed by being written. -/
structure IsWritable (e : Text × Text) : Prop where
  key_equals : CodePoint.ofChar '=' ∉ e.1
  key_lineFeed : CodePoint.ofChar '\n' ∉ e.1
  value_lineFeed : CodePoint.ofChar '\n' ∉ e.2
  key_surrogate : Text.hasSurrogate e.1 = false
  value_surrogate : Text.hasSurrogate e.2 = false

/-- The value as it is read back. -/
def readBack (value : Text) : Text := value.trimEnd (· = .ofChar '\r')

variable {e : Text × Text} {es : List (Text × Text)}

/-- The line of a setting without its line feed. -/
def body (e : Text × Text) : Text := e.1 ++ .ofChar '=' :: e.2

theorem IsWritable.endures (h : IsWritable e) : Endures e where
  key_equals := h.key_equals
  key_lineFeed := h.key_lineFeed
  value_lineFeed := h.value_lineFeed
  key_survives := Utf8.exists_encode?_of_hasSurrogate_eq_false h.key_surrogate
  value_survives := Utf8.exists_encode?_of_hasSurrogate_eq_false h.value_surrogate

theorem FitsLine.lineFeed_not_mem (h : FitsLine e) : CodePoint.ofChar '\n' ∉ body e := by
  rw [body, List.mem_append, List.mem_cons]
  rintro (hk | he | hv)
  · exact h.key_lineFeed hk
  · exact absurd he (by decide)
  · exact h.value_lineFeed hv

theorem FitsLine.parseLine?_eq (h : FitsLine e) :
    parseLine? (body e ++ [.ofChar '\n']) = some (e.1, readBack e.2) := by
  have hv : e.2.trimEnd isLineEnd = readBack e.2 := by
    refine Text.trimEnd_congr ?_
    intro c hc
    have hn : c ≠ .ofChar '\n' := fun he => h.value_lineFeed (he ▸ hc)
    simp [isLineEnd, hn]
  rw [parseLine?, body, List.append_assoc, List.cons_append, Text.cut?_append h.key_equals,
    Option.map_some, Prod.map_apply, Text.trimEnd_append _ (by decide), hv]
  rfl

theorem formatEntries_eq (es : List (Text × Text)) :
    formatEntries es = es.flatMap fun e => body e ++ [.ofChar '\n'] := by
  rw [formatEntries]
  congr 1

/-- The settings on the lines of some settings. -/
theorem filterMap_parseLine? (h : ∀ e ∈ es, FitsLine e) :
    (es.map fun e => body e ++ [.ofChar '\n']).filterMap parseLine? =
      es.map fun e => (e.1, readBack e.2) := by
  induction es with
  | nil => rfl
  | cons e es ih =>
    rw [List.map_cons, List.filterMap_cons, (h e (by simp)).parseLine?_eq,
      ih fun f hf => h f (List.mem_cons_of_mem _ hf)]
    rfl

/-- **What is read back of settings that were written.** -/
theorem ofText_formatEntries (h : ∀ e ∈ es, FitsLine e) :
    ofText (formatEntries es) = .ofList (es.map fun e => (e.1, readBack e.2)) := by
  rw [ofText, formatEntries_eq, Text.lines_flatMap fun e he => (h e he).lineFeed_not_mem, ofLines,
    filterMap_parseLine? h]

theorem survives_formatEntries (h : ∀ e ∈ es, Endures e) : Utf8.Survives (formatEntries es) := by
  induction es with
  | nil => exact ⟨[], rfl, rfl⟩
  | cons e es ih =>
    have he := h e (by simp)
    have hes := ih fun f hf => h f (List.mem_cons_of_mem _ hf)
    have hline := he.value_survives.append_cons (c := .ofChar '\n') (by decide) hes
    have hall := he.key_survives.append_cons (c := .ofChar '=') (by decide) hline
    simpa [formatEntries, formatLine] using hall

/-- Settings that endure have bytes, and reading those gives back what `ofText_formatEntries`
says. -/
theorem exists_encode?_formatEntries (h : ∀ e ∈ es, Endures e) :
    ∃ c, Utf8.encode? (formatEntries es) = some c ∧
      ofText (Utf8.decode c) = .ofList (es.map fun e => (e.1, readBack e.2)) := by
  obtain ⟨c, he, hd⟩ := survives_formatEntries h
  refine ⟨c, he, ?_⟩
  rw [hd, ofText_formatEntries fun e hm => (h e hm).toFitsLine]

/-! ### Settings that were read -/

/-- Settings have bytes, or there is a first one that has none. -/
theorem encode?_formatEntries_cases (es : List (Text × Text)) :
    (∃ c, Utf8.encode? (formatEntries es) = some c) ∨
      ∃ front e rest c, es = front ++ e :: rest ∧ Utf8.encode? (formatEntries front) = some c ∧
        Utf8.encode? (formatLine e.1 e.2) = none := by
  induction es with
  | nil => exact .inl ⟨[], rfl⟩
  | cons e es ih =>
    cases hl : Utf8.encode? (formatLine e.1 e.2) with
    | none => exact .inr ⟨[], e, es, [], rfl, rfl, hl⟩
    | some line =>
      rcases ih with ⟨c, hc⟩ | ⟨front, e', rest, c, rfl, hc, he⟩
      · exact .inl ⟨_, Utf8.encode?_append hl hc⟩
      · exact .inr ⟨e :: front, e', rest, _, rfl, Utf8.encode?_append hl hc, he⟩

/-- What is read of a line fits on one, it stands within the line, and its value is not changed by
being read again. -/
theorem of_parseLine? {t line : Text} (hline : line ∈ t.lines) (h : parseLine? line = some e) :
    FitsLine e ∧ readBack e.2 = e.2 ∧ e.1 <:+: line ∧ e.2 <:+: line := by
  obtain ⟨body, tail, rfl, hbody, htail⟩ := Text.exists_of_mem_lines hline
  obtain ⟨⟨key, back⟩, hcut, rfl⟩ := Option.map_eq_some_iff.1 h
  have hequals : CodePoint.ofChar '=' ∉ tail := by rcases htail with rfl | rfl <;> decide
  have hend : tail.trimEnd isLineEnd = [] := by rcases htail with rfl | rfl <;> decide
  obtain ⟨rest, rfl, rfl⟩ := Text.exists_of_cut?_append hequals hcut
  have hfront : Text.trimEnd isLineEnd (rest ++ tail) <+: rest := by
    rw [Text.trimEnd_append rest hend]
    exact Text.trimEnd_isPrefix _ _
  refine ⟨⟨Text.not_mem_of_cut? hcut, fun hk => ?_, fun hv => ?_⟩, ?_, ?_, ?_⟩
  · exact hbody (List.mem_append_left _ hk)
  · exact hbody (List.mem_append_right _ (List.mem_cons_of_mem _ (hfront.subset hv)))
  · exact Text.trimEnd_trimEnd (fun x hx => by simp [isLineEnd, of_decide_eq_true hx]) _
  · rw [List.append_assoc]
    exact (List.prefix_append key _).isInfix
  · refine hfront.isInfix.trans ⟨key ++ [.ofChar '='], tail, ?_⟩
    simp

/-- What is read of a text fits on lines, it stands within the text, and its values are not changed
by being read again. -/
theorem of_mem_entries {t : Text} (h : e ∈ (ofText t).entries) :
    FitsLine e ∧ readBack e.2 = e.2 ∧ e.1 <:+: t ∧ e.2 <:+: t := by
  obtain ⟨line, hline, hparse⟩ := List.mem_filterMap.1 (OrderedMap.mem_of_mem_entries_ofList h)
  obtain ⟨hfits, hback, hkey, hvalue⟩ := of_parseLine? hline hparse
  have hin := Text.infix_of_mem_lines hline
  exact ⟨hfits, hback, hkey.trans hin, hvalue.trans hin⟩

/-- **What was read of any text is read again when it was written**, in the same order. -/
theorem ofText_formatEntries_entries (t : Text) :
    ofText (formatEntries (ofText t).entries) = ofText t := by
  have hread (e) (he : e ∈ (ofText t).entries) := of_mem_entries he
  rw [ofText_formatEntries fun e he => (hread e he).1,
    List.map_congr_left fun e he => by rw [(hread e he).2.1], List.map_id',
    OrderedMap.ofList_entries]

/-- **What was read of any bytes can be written, and it is read back as it was.** -/
theorem exists_encode?_entries (bytes : Bytes) :
    ∃ c, Utf8.encode? (formatEntries (ofText (Utf8.decode bytes)).entries) = some c ∧
      ofText (Utf8.decode c) = ofText (Utf8.decode bytes) := by
  have hbytes := Utf8.survives_decode bytes
  have hendures (e) (he : e ∈ (ofText (Utf8.decode bytes)).entries) : Endures e := by
    obtain ⟨hfits, -, hkey, hvalue⟩ := of_mem_entries he
    exact ⟨hfits, hbytes.of_infix hkey, hbytes.of_infix hvalue⟩
  obtain ⟨c, hc, hd⟩ := survives_formatEntries hendures
  exact ⟨c, hc, by rw [hd, ofText_formatEntries_entries]⟩

/-! ### Normal texts -/

/-- Every line of the text is ended and has an equals sign, no two lines have the same key, and no
value ends in a carriage return. -/
def IsNormal (t : Text) : Prop :=
  ∃ es : List (Text × Text), t.lines = es.map (fun e => formatLine e.1 e.2) ∧
    (es.map Prod.fst).Nodup ∧
    ∀ e ∈ es, CodePoint.ofChar '=' ∉ e.1 ∧ e.2.getLast? ≠ some (.ofChar '\r')

/-- What stands on a line of a text, before and behind the first equals sign, fits on a line. -/
theorem fitsLine_of_mem_lines {t : Text} (hkey : CodePoint.ofChar '=' ∉ e.1)
    (h : formatLine e.1 e.2 ∈ t.lines) : FitsLine e := by
  obtain ⟨front, tail, heq, hfront, htail⟩ := Text.exists_of_mem_lines h
  have hbody : body e ++ [.ofChar '\n'] = front ++ tail := heq
  rcases htail with rfl | rfl
  · rw [List.append_nil] at hbody
    exact absurd (by rw [← hbody]; simp) hfront
  · obtain rfl := List.append_cancel_right hbody
    rw [body, List.mem_append, List.mem_cons, not_or, not_or] at hfront
    exact ⟨hkey, hfront.1, hfront.2.2⟩

/-- **What was read of a normal text is written as that text.** -/
theorem formatEntries_of_isNormal {t : Text} (h : IsNormal t) :
    formatEntries (ofText t).entries = t := by
  obtain ⟨es, hlines, hdistinct, hes⟩ := h
  have hfits (e) (he : e ∈ es) : FitsLine e := by
    refine fitsLine_of_mem_lines (t := t) (hes e he).1 ?_
    rw [hlines]
    exact List.mem_map_of_mem he
  have hback (e) (he : e ∈ es) : (e.1, readBack e.2) = e := by
    refine Prod.ext rfl (Text.trimEnd_of_getLast? fun x hx => decide_eq_false fun hr => ?_)
    exact (hes e he).2 (hr ▸ hx)
  have hread : ofText t = .ofList es := by
    rw [ofText, ofLines, hlines]
    refine congrArg OrderedMap.ofList ((filterMap_parseLine? hfits).trans ?_)
    rw [List.map_congr_left hback, List.map_id']
  rw [hread, OrderedMap.entries_ofList hdistinct, formatEntries, List.flatMap_def, ← hlines,
    Text.flatten_lines]

/-- What was read of a text is written in normal form. -/
theorem isNormal_formatEntries (t : Text) : IsNormal (formatEntries (ofText t).entries) := by
  have hread (e) (he : e ∈ (ofText t).entries) := of_mem_entries he
  refine ⟨(ofText t).entries, ?_, (ofText t).distinct, fun e he => ?_⟩
  · rw [formatEntries_eq, Text.lines_flatMap fun e he => (hread e he).1.lineFeed_not_mem]
    rfl
  · obtain ⟨hfits, hback, -⟩ := hread e he
    refine ⟨hfits.key_equals, fun hr => ?_⟩
    rw [← hback] at hr
    exact absurd (Text.eq_false_of_getLast?_trimEnd _ hr) (by simp)

/-- **Writing and reading are inverse up to the normal form.** Settings that fit on lines are read
back as the map in which the keys are in the order in which they first occur, and each has its last
value without the carriage returns at its end. What was read of any text is read again when it was
written, in the same order, and it is written as that text exactly if the text is in normal form. -/
theorem ofText_inverse_formatEntries :
    (∀ es : List (Text × Text), (∀ e ∈ es, FitsLine e) →
      (ofText (formatEntries es)).keys = OrderedMap.firstKeys es ∧
      ∀ key, (ofText (formatEntries es)).get? key =
        (OrderedMap.lastValue es key).map readBack) ∧
    (∀ t, ofText (formatEntries (ofText t).entries) = ofText t) ∧
    (∀ t, formatEntries (ofText t).entries = t ↔ IsNormal t) := by
  refine ⟨fun es hes => ?_, ofText_formatEntries_entries, fun t => ⟨fun h => ?_, ?_⟩⟩
  · rw [ofText_formatEntries hes, OrderedMap.keys_ofList, OrderedMap.firstKeys_map]
    refine ⟨rfl, fun key => ?_⟩
    rw [OrderedMap.get?_ofList, OrderedMap.lastValue_map]
  · rw [← h]
    exact isNormal_formatEntries t
  · exact formatEntries_of_isNormal

/-- Settings in which a key comes twice. -/
def repeated : List (Text × Text) := [("k", "1"), ("l", ""), ("k", "2=\r\r")]

/-- A key that comes twice stands where it came first and has the value that came last. A line
without an equals sign is not written again. -/
theorem ofText_inverse_formatEntries_repeated :
    (∀ e ∈ repeated, FitsLine e) ∧
      (ofText (formatEntries repeated)).keys = [Text.ofString "k", Text.ofString "l"] ∧
      (ofText (formatEntries repeated)).get? "k" = some (Text.ofString "2=") ∧
      ¬ IsNormal "k=2\nplain\n" := by
  have hfits : ∀ e ∈ repeated, FitsLine e := by
    simp only [repeated, List.forall_mem_cons]
    exact ⟨⟨by decide, by decide, by decide⟩, ⟨by decide, by decide, by decide⟩,
      ⟨by decide, by decide, by decide⟩, List.forall_mem_nil _⟩
  obtain ⟨hread, -, hnormal⟩ := ofText_inverse_formatEntries
  obtain ⟨hkeys, hvalues⟩ := hread repeated hfits
  refine ⟨hfits, hkeys.trans (by decide), (hvalues "k").trans (by decide), fun h => ?_⟩
  exact absurd ((hnormal _).2 h) (by decide)

end Settings

end ClientStore
