import ClientStore.Proofs.HostKey.Growth

/-!
# Looking at the raw bytes

The trust file is decoded before it is looked at, and decoding joins bytes to characters and lets
what is no character pass as byte escapes. None of this has a part in the answer. A line feed is
never a part of a character, and a text without surrogates is in what was read exactly where its
bytes are in the file, whatever stands around them. So the answer is that of a scanner of bytes,
which does not know what a character is.

## Main definitions

* `HostKey.scan` — what the bytes of a trust file say.

## Main results

* `HostKey.firstVerdict_lines_decode` — decoding has no part in the answer.
* `TrustFile.verify_eq_scan` — the trust file is scanned byte by byte.
-/

namespace ClientStore

namespace HostKey

/-- What the first line that begins with `start` says, where lines are the bytes between line feeds:
the same if `keydata` is all that is left of it. -/
def scan (start keydata c : Bytes) : Verdict :=
  match (c.splitOn 0x0A).find? fun line => start <+: line with
  | none => .absent
  | some line => if line.drop start.length = keydata then .same else .different

section Scan

variable {start keydata u v : Bytes}

/-- What a scanner makes of one line, if the lines behind it say `otherwise`. -/
def scanLine (start keydata line : Bytes) (otherwise : Verdict) : Verdict :=
  if start <+: line then if line.drop start.length = keydata then .same else .different
  else otherwise

theorem scan_of_not_mem (h : 0x0A ∉ u) : scan start keydata u = scanLine start keydata u .absent := by
  rw [scan, scanLine, List.splitOn_eq_singleton h]
  by_cases hs : start <+: u
  · rw [List.find?_cons_of_pos (by simpa using hs), if_pos hs]
  · rw [List.find?_cons_of_neg (by simpa using hs), if_neg hs]
    rfl

theorem scan_append (h : 0x0A ∉ u) :
    scan start keydata (u ++ 0x0A :: v) = scanLine start keydata u (scan start keydata v) := by
  rw [scan, scanLine, List.splitOn_append_cons_self_of_not_mem h]
  by_cases hs : start <+: u
  · rw [List.find?_cons_of_pos (by simpa using hs), if_pos hs]
  · rw [List.find?_cons_of_neg (by simpa using hs), if_neg hs, scan]

end Scan

section Decode

variable {start keydata : Text} {front data u : Bytes} (hs : Utf8.encode? start = some front)
  (hss : start.hasSurrogate = false) (hk : Utf8.encode? keydata = some data)
  (hks : keydata.hasSurrogate = false)

include hs hss hk hks

/-- What is made of a decoded line is what is made of its bytes. -/
theorem firstVerdict_cons_decode {t : Text} (ht : t.trimEnd isLineFeed = Utf8.decode u)
    (ts : List Text) :
    firstVerdict start (fun rest => rest = keydata) (t :: ts) =
      scanLine front data u (firstVerdict start (fun rest => rest = keydata) ts) := by
  have hagree : Utf8.decode (u.drop front.length) = keydata ↔ u.drop front.length = data := by
    obtain ⟨data', hk', rfl⟩ := Utf8.exists_encode?_of_hasSurrogate_eq_false hks
    obtain rfl : data = data' := Option.some.inj (hk.symm.trans hk')
    exact ⟨fun he => Utf8.decode_injective he, congrArg Utf8.decode⟩
  rw [firstVerdict, ht, Utf8.dropPrefix?_decode hs hss, scanLine]
  by_cases hp : front <+: u
  · simp only [hp, if_true, hagree, decide_eq_true_eq]
  · simp only [hp, if_false]

/-- **Decoding has no part in the answer.** -/
theorem firstVerdict_lines_decode (hne : start ≠ []) (c : Bytes) :
    firstVerdict start (fun rest => rest = keydata) (Utf8.decode c).lines = scan front data c := by
  have htrim {u : Bytes} (hu : 0x0A ∉ u) :
      Text.trimEnd isLineFeed (Utf8.decode u) = Utf8.decode u := by
    refine Text.trimEnd_eq_self fun x hx => decide_eq_false ?_
    rintro rfl
    exact Utf8.lineFeed_not_mem_decode hu hx
  induction c using Utf8.lines_induction with
  | last u hu =>
    rw [scan_of_not_mem hu]
    by_cases hnil : u = []
    · -- there is no line at all, but the scanner sees an empty one
      have hfront : ¬ front <+: [] := by
        intro hp
        obtain rfl := List.prefix_nil.1 hp
        have := Utf8.dropPrefix?_decode hs hss []
        exact hne (by simpa using Text.dropPrefix?_eq_some_iff.1 this)
      rw [hnil, scanLine, if_neg hfront]
      rfl
    · have hu' : Utf8.decode u ≠ [] := fun he => hnil (Utf8.decode_injective he)
      rw [Text.lines_of_not_mem hu' (Utf8.lineFeed_not_mem_decode hu)]
      exact firstVerdict_cons_decode hs hss hk hks (htrim hu) []
  | line u v hu ih =>
    have hfirst : Text.trimEnd isLineFeed (Utf8.decode u ++ [.ofChar '\n']) = Utf8.decode u :=
      (Text.trimEnd_append _ (by decide)).trans (htrim hu)
    have hlines : (Utf8.decode (u ++ 0x0A :: v)).lines =
        (Utf8.decode u ++ [.ofChar '\n']) :: (Utf8.decode v).lines := by
      rw [Utf8.decode_append_lineFeed, ← List.singleton_append, ← List.append_assoc,
        Text.lines_append (.concat _), Text.lines_line (Utf8.lineFeed_not_mem_decode hu)]
      rfl
    rw [hlines, firstVerdict_cons_decode hs hss hk hks hfirst, ih, scan_append hu]

end Decode

end HostKey

/-! ### The trust file -/

namespace TrustFile

variable {l : Layout} {w : World} {c : Bytes} {q : HostKey}

/-- **The trust file is scanned byte by byte.** Whatever bytes it holds, the answer about a key with
fields that are free of surrogates and with a port that can be written is that of the first line
that begins with the bytes of the identity and a space, and it depends on whether the rest of the
line is just the bytes of the key. -/
theorem verify_eq_scan (h : w.Holds l.hostKeys c)
    (hs : ∀ field ∈ [q.keytype, q.hostname, q.keydata], Text.hasSurrogate field = false)
    (hq : q.port.natAbs < 10 ^ Decimal.maxDigits) :
    ∃ start keydata w', Utf8.encode? q.start = some start ∧ Utf8.encode? q.keydata = some keydata ∧
      verify l q w = .ok (HostKey.scan start keydata c) w' := by
  have hss := HostKey.hasSurrogate_start hs
  have hks := hs q.keydata (by simp)
  obtain ⟨start, hst, -⟩ := Utf8.exists_encode?_of_hasSurrogate_eq_false hss
  obtain ⟨keydata, hkd, -⟩ := Utf8.exists_encode?_of_hasSurrogate_eq_false hks
  obtain ⟨w', hv⟩ := verify_of_contains (.inl h) (HostKey.identity_of_lt hq)
  have hne : q.start ≠ [] := List.append_ne_nil_of_right_ne_nil _ (List.cons_ne_nil _ _)
  have hscan := HostKey.firstVerdict_lines_decode hst hss hkd hks hne c
  exact ⟨start, keydata, w', hst, hkd, hv.trans (by rw [← hscan, HostKey.start])⟩

/-- A line behind a stray byte is not about the key, and a stray byte behind the key makes it another
one. -/
theorem verify_eq_scan_of_stray_bytes :
    ∃ (w w' : World) (line : Bytes), Utf8.encode? sampleKey.body = some line ∧
      w.Holds Layout.sample.hostKeys (0xFF :: (line ++ 0x0A :: (line ++ [0xC3]))) ∧
      verify .sample sampleKey w = .ok .different w' := by
  obtain ⟨line, hline⟩ : ∃ line, Utf8.encode? sampleKey.body = some line := ⟨_, rfl⟩
  obtain ⟨w, -, h⟩ := exists_holds_bytes (0xFF :: (line ++ 0x0A :: (line ++ [0xC3])))
  obtain ⟨start, keydata, w', hstart, hkeydata, hv⟩ :=
    verify_eq_scan h isSane_sampleKey.surrogate isSane_sampleKey.port_lt
  cases hline
  cases hstart
  cases hkeydata
  exact ⟨w, w', _, rfl, h, hv⟩

end TrustFile

end ClientStore
