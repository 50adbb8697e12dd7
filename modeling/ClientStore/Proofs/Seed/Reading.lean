import ClientStore.Proofs.Command.Endings
import ClientStore.Proofs.Seed.Writing
import ClientStore.Proofs.Storage

/-!
# What is read of a seed

A seed is handed out in chunks, and the chunks together are what is in the file, neither more nor
less. What is in the file is a matter of all that was ever written: from a root without a seed on,
every writing lays its bytes over those of the ones before, as many of them as were taken. None of
them makes the seed shorter, so it is as long as the longest of them.

A chunk is read into a buffer that is made for the whole of it first. So its size has to be one that
memory can hold, no matter how short the seed is.

## Main definitions

* `Seed.IsChunking` — what the chunks of some content are.
* `Seed.IsFresh` — there is no seed yet.
* `Seed.writeAll`, `Seed.laid` — some writings, and what they lay over each other.

## Main results

* `Seed.isChunking_chunks` — the chunks that are handed out.
* `Seed.exists_writeAll_eq` — what any writings leave.
* `Seed.read_of_writeAll` — what is read after them, and how many bytes are reported.
* `Seed.read_after_write_tooLarge` — a size of chunks for which nothing is read.
-/

namespace ClientStore.Seed

open Disk FileTree

variable {l : Layout} {w w' : World} {handle : Handle} {old c : Bytes} {size : Nat}

/-! ### Chunks -/

/-- The parts make up the content in chunks of a size, of which only the last one may be shorter. -/
structure IsChunking (size : Nat) (content : Bytes) (parts : List Bytes) : Prop where
  flatten_eq : parts.flatten = content
  nil_not_mem : [] ∉ parts
  length_le : ∀ part ∈ parts, part.length ≤ size
  length_eq : ∀ part ∈ parts.dropLast, part.length = size

theorem chunks_nil (size : Nat) : chunks size [] = [] := by
  rw [chunks, dif_pos (.inr rfl)]

/-- **The chunks that are handed out** are those of the content. -/
theorem isChunking_chunks (h : 0 < size) (content : Bytes) :
    IsChunking size content (chunks size content) := by
  fun_induction chunks size content with
  | case1 content hstop =>
    obtain rfl : content = [] := hstop.resolve_left (Nat.ne_of_gt h)
    exact ⟨rfl, List.not_mem_nil, by simp, by simp⟩
  | case2 content hgo ih =>
    have hne : content ≠ [] := fun hnil => hgo (.inr hnil)
    refine ⟨?_, ?_, ?_, ?_⟩
    · rw [List.flatten_cons, ih.flatten_eq, List.take_append_drop]
    · rw [List.mem_cons, not_or]
      refine ⟨fun hnil => ?_, ih.nil_not_mem⟩
      rcases List.take_eq_nil_iff.1 hnil.symm with hz | hz
      · exact absurd hz (Nat.ne_of_gt h)
      · exact hne hz
    · exact List.forall_mem_cons.2 ⟨List.length_take_le _ _, ih.length_le⟩
    · -- a chunk that is not the last one has something behind it, so that it is full
      by_cases hrest : content.drop size = []
      · rw [hrest, chunks_nil]
        simp
      · have hlast : chunks size (content.drop size) ≠ [] := fun hnil => hrest <| by
          rw [← ih.flatten_eq, hnil, List.flatten_nil]
        rw [List.dropLast_cons_of_ne_nil hlast]
        refine List.forall_mem_cons.2 ⟨?_, ih.length_eq⟩
        rw [List.drop_eq_nil_iff, Nat.not_le] at hrest
        exact List.length_take_of_le (Nat.le_of_lt hrest)

/-- There is room for chunks of a size below that of memory. -/
theorem chunksOf_of_lt {size : Int} (h : 1 ≤ size) (hlt : size < memory) (content : Bytes) :
    chunksOf size content = .ok (chunks size.toNat content) := by
  have hmemory : memory < sizeLimit - chunkOverhead := by decide
  have hlimit : 0 < sizeLimit := by decide
  rw [chunksOf, if_neg (by omega), if_neg (by omega), if_neg (by omega), if_neg (by omega)]

/-! ### Reading -/

/-- What is read is cut into chunks. -/
theorem read_of_holds (h : w.Holds l.seed c) (size : Int) :
    read l size w = (liftM (chunksOf size c) : StoreM (List Bytes)) w := by
  have hread : (some <$> Disk.read l.seed : StoreM (Option Bytes)) w = .ok (some c) w :=
    StoreM.bind_of_ok h _
  exact StoreM.bind_of_ok (StoreM.onRefusal_of_ok hread _) _

/-- Without a seed there are no chunks, of whatever size. -/
theorem exists_read_of_lacks (h : w.Lacks l.seed) (size : Int) :
    ∃ w', read l size w = .ok [] w' := by
  obtain ⟨r, hr⟩ := h
  have hread : (some <$> Disk.read l.seed : StoreM (Option Bytes)) w = .error (.refused r) w :=
    StoreM.bind_of_error hr _
  have hnone : ∃ w', (do
      if r.fault ≠ .notFound then
        StoreM.log .debug
          ("Random seed " ++ l.seed.toText ++ (" unreadable: " : Text) ++ r.message)
      return none : StoreM (Option Bytes)) w = .ok none w' := by
    dsimp only
    split <;> exact ⟨_, rfl⟩
  obtain ⟨w', hnone⟩ := hnone
  refine ⟨w', ?_⟩
  rw [read, StoreM.bind_of_ok ((StoreM.onRefusal_of_refused hread _).trans hnone)]
  rfl

/-! ### Roots without a seed -/

/-- There is no seed yet. The root is empty, or it can be made and is empty then. -/
structure IsFresh (l : Layout) (w : World) : Prop where
  sound : w.IsSound
  made : ∃ w', l.ensureRoot w = .ok () w' ∧ w'.IsEmptyAt l.root
  short : l.seed.IsShort

/-- Once the root is made, there is a place for the seed. -/
theorem IsFresh.exists_vacant (h : IsFresh l w) :
    ∃ w' place, l.ensureRoot w = .ok () w' ∧ ∀ aim, w'.Finds aim l.seed (.vacant place) := by
  obtain ⟨w', hr, d, hd, hempty⟩ := h.made
  exact ⟨w', _, hr, World.finds_child_of_none (Layout.isPlainChild_seed h.short) hd (hempty _)⟩

/-- A fresh root has no seed. -/
theorem IsFresh.lacks (h : IsFresh l w) : w.Lacks l.seed := by
  obtain ⟨w', place, hr, hv⟩ := h.exists_vacant
  exact Layout.lacks_of_made hr Layout.isComponent_seed h.short (lacks_of_vacant (hv .denoted))

theorem IsFresh.content_eq (h : IsFresh l w) : content l w = [] := by
  obtain ⟨w', place, hr, hv⟩ := h.exists_vacant
  have hnone {u : World} (hu : u.Lacks l.seed) : u.content? l.seed = none :=
    content?_eq_none_iff.2 (lacks_iff.1 hu).2
  rw [Seed.content, hnone h.lacks, World.after_of_ok hr, hnone (lacks_of_vacant (hv .denoted))]
  rfl

/-- On a fresh root a seed can be opened. -/
theorem IsFresh.exists_openKept (h : IsFresh l w) :
    ∃ handle w', openKept l w = .ok handle w' := by
  obtain ⟨w', place, hr, hv⟩ := h.exists_vacant
  have hopen : Disk.openKept l.seed privateFileMode w' = .ok _ _ :=
    openKept_of_vacant (hv .creation)
  rw [openKept_eq]
  exact ⟨_, _, Layout.openOrMake_of_made hr Layout.isComponent_seed h.short hopen⟩

theorem isFresh_sample : IsFresh .sample .bare := by
  obtain ⟨w', hr, hempty⟩ := Layout.isPristine_sample.made
  exact ⟨World.isSound_bare, ⟨w', hr, hempty⟩, ⟨_, rfl, by decide⟩⟩

/-! ### Any writings -/

/-- Writes some seeds one after the other, and gives each with how much of it was taken. -/
def writeAll (l : Layout) : List (Outlet × Bytes) → StoreM (List (Bytes × Nat))
  | [] => return []
  | (outlet, data) :: rest => do
    let offered ← write l outlet data
    let later ← writeAll l rest
    return (data, outlet.total offered) :: later

/-- The old bytes under what was taken of some data, the first of which was laid over them first. -/
def laid (old : Bytes) (writes : List (Bytes × Nat)) : Bytes :=
  writes.foldl (fun old e => covered old e.1 e.2) old

/-- What is laid over each other is as long as what reaches farthest. -/
theorem length_laid {writes : List (Bytes × Nat)} (h : ∀ e ∈ writes, e.2 ≤ e.1.length)
    (old : Bytes) : (laid old writes).length = (writes.map Prod.snd).foldl max old.length := by
  induction writes generalizing old with
  | nil => rfl
  | cons e writes ih =>
    rw [List.forall_mem_cons] at h
    rw [laid, List.foldl_cons, ← laid, ih h.2, List.map_cons, List.foldl_cons,
      length_covered _ h.1]

/-- What any writings leave, if the file can be opened. -/
theorem exists_writeAll_eq (hw : w.IsSound) (ho : ∃ handle w', openKept l w = .ok handle w')
    (calls : List (Outlet × Bytes)) :
    ∃ writes v, writeAll l calls w = .ok writes v ∧ writes.map Prod.fst = calls.map Prod.snd ∧
      (∀ e ∈ writes, e.2 ≤ e.1.length) ∧
      (calls = [] ∧ v = w ∨ v.Holds l.seed (laid (content l w) writes)) := by
  induction calls generalizing w with
  | nil => exact ⟨[], w, rfl, rfl, List.forall_mem_nil _, .inl ⟨rfl, rfl⟩⟩
  | cons call calls ih =>
    obtain ⟨outlet, data⟩ := call
    obtain ⟨handle, w', ho⟩ := ho
    obtain ⟨offered, u, hwrite, hoffers, -, hu, hholds⟩ := exists_write_eq hw ho outlet data
    obtain ⟨handle', ho'⟩ := exists_openKept_of_holds hholds
    obtain ⟨writes, v, hall, hdata, hle, hv⟩ := ih hu ⟨handle', u, ho'⟩
    refine ⟨(data, outlet.total offered) :: writes, v,
      (StoreM.bind_of_ok hwrite _).trans (StoreM.bind_of_ok hall _), ?_, ?_, .inr ?_⟩
    · rw [List.map_cons, List.map_cons, hdata]
    · exact List.forall_mem_cons.2 ⟨hoffers.total_le, hle⟩
    · rw [content_of_holds hholds] at hv
      rcases hv with ⟨rfl, rfl⟩ | hv
      · obtain rfl : writes = [] := List.map_eq_nil_iff.1 hdata
        exact hholds
      · exact hv

/-! ### What is reported -/

/-- The run that reports the size of the seed prints the number of its bytes. -/
theorem execute_seedSize {env : Environment} {args : List Text} {i : Invocation}
    (hp : Invocation.parse args = .ok i) (hc : i.command = .seedSize) (hl : i.layout env = .ok l)
    (hr : none ∉ i.resources) (h : w.Holds l.seed c) :
    (execute env args w).1.ending = .exit 0 ∧
      (execute env args w).1.output = [Decimal.digits c.length] := by
  have hholds : (i.start w).Holds l.seed c := (holds_congr (w := w) (v := i.start w) rfl rfl).1 h
  have hsurrogate : (Decimal.digits c.length).hasSurrogate = false :=
    Decimal.hasSurrogate_numeral c.length
  have hread : read l chunkSize (i.start w) = .ok (chunks chunkSize.toNat c) (i.start w) := by
    rw [read_of_holds hholds, chunksOf_of_lt (by decide) (by decide)]
    rfl
  have hflatten : (chunks chunkSize.toNat c).flatten = c :=
    (isChunking_chunks (by decide) c).flatten_eq
  have hrun : i.command.run (i.store l) (i.start w) =
      .ok 0 ((i.start w).print [Decimal.digits c.length]) := by
    rw [hc]
    refine (StoreM.bind_of_ok hread _).trans ?_
    rw [hflatten]
    exact StoreM.bind_of_ok (StoreM.print_eq hsurrogate _) _
  rw [execute_of_parse hp, Invocation.execute_eq_conclude hl hr, hrun]
  refine ⟨rfl, ?_⟩
  have houtput := World.output_print (i.start w) [Decimal.digits c.length]
  rw [Invocation.output_start] at houtput
  exact houtput

/-! ### From a fresh root to what is read -/

/-- **What is read after any writings**, and how many bytes are reported. On a fresh root all of
them end well. The seed is what was taken of them, laid over each other, and it is as long as what
reaches farthest; reading it gives chunks of it, of any size that memory can hold. Whatever the seed
is, the number of its bytes is reported; and where there is none, nothing is read. -/
theorem read_of_writeAll :
    (∀ {l : Layout} {w : World}, IsFresh l w → ∀ calls : List (Outlet × Bytes),
      ∃ writes v, writeAll l calls w = .ok writes v ∧ writes.map Prod.fst = calls.map Prod.snd ∧
        (∀ e ∈ writes, e.2 ≤ e.1.length) ∧ (calls ≠ [] → v.Holds l.seed (laid [] writes)) ∧
        (laid [] writes).length = (writes.map Prod.snd).foldl max 0 ∧
        ∀ size : Int, 1 ≤ size → size < memory → ∃ parts u, read l size v = .ok parts u ∧
          IsChunking size.toNat (laid [] writes) parts) ∧
    (∀ {env : Environment} {args : List Text} {i : Invocation} {l : Layout} {w : World} {c : Bytes},
      Invocation.parse args = .ok i → i.command = .seedSize → i.layout env = .ok l →
        none ∉ i.resources → w.Holds l.seed c →
        (execute env args w).1.ending = .exit 0 ∧
          (execute env args w).1.output = [Decimal.digits c.length]) ∧
    ∀ {l : Layout} {w : World}, w.Lacks l.seed → ∀ size, ∃ u, read l size w = .ok [] u := by
  refine ⟨fun hf calls => ?_, execute_seedSize, exists_read_of_lacks⟩
  obtain ⟨writes, v, hall, hdata, hle, hv⟩ := exists_writeAll_eq hf.sound hf.exists_openKept calls
  rw [hf.content_eq] at hv
  refine ⟨writes, v, hall, hdata, hle, fun hne => hv.resolve_left fun h => hne h.1,
    length_laid hle [], fun size hpos hlt => ?_⟩
  rcases hv with ⟨rfl, rfl⟩ | hv
  · -- nothing was written
    obtain rfl : writes = [] := List.map_eq_nil_iff.1 hdata
    obtain ⟨u, hu⟩ := exists_read_of_lacks hf.lacks size
    exact ⟨[], u, hu, rfl, List.not_mem_nil, by simp, by simp⟩
  · refine ⟨chunks size.toNat (laid [] writes), v, ?_, isChunking_chunks (by omega) _⟩
    rw [read_of_holds hv, chunksOf_of_lt hpos hlt]
    rfl

/-- Three bytes are written, and then one of two. -/
def sampleCalls : List (Outlet × Bytes) := [(.whole, [1, 2, 3]), (sampleOutlet, [8, 9])]

/-- The one byte covers the first of the three. -/
theorem read_of_writeAll_sample :
    ∃ v parts u, writeAll .sample sampleCalls .bare = .ok [([1, 2, 3], 3), ([8, 9], 1)] v ∧
      v.Holds Layout.sample.seed [8, 2, 3] ∧ read .sample 2 v = .ok parts u ∧
      parts.flatten = [8, 2, 3] ∧
      (execute ⟨"/home", none⟩ ["--root", "store", "seed-size"] v).1.output =
        [Text.ofString "3"] := by
  obtain ⟨hruns, hsize, -⟩ := read_of_writeAll
  obtain ⟨writes, v, hall, -, -, hholds, -, hread⟩ := hruns isFresh_sample sampleCalls
  have hwrites : (World.bare.outcome (writeAll .sample sampleCalls)).toOption =
      some [([1, 2, 3], 3), ([8, 9], 1)] := by decide +kernel
  rw [World.outcome_of_ok hall] at hwrites
  obtain rfl : writes = [([1, 2, 3], 3), ([8, 9], 1)] := Option.some.inj hwrites
  obtain ⟨parts, u, hparts, hchunks⟩ := hread 2 (by decide) (by decide)
  have hseed : v.Holds Layout.sample.seed [8, 2, 3] := hholds (by simp [sampleCalls])
  have hparse : Invocation.parse ["--root", "store", "seed-size"] =
      .ok ⟨some (some "store"), [], 0, .seedSize⟩ := rfl
  have hreport :
      (execute ⟨"/home", none⟩ ["--root", "store", "seed-size"] v).1.ending = .exit 0 ∧
        (execute ⟨"/home", none⟩ ["--root", "store", "seed-size"] v).1.output =
          [Decimal.digits 3] :=
    hsize hparse rfl rfl List.not_mem_nil hseed
  exact ⟨v, parts, u, hall, hseed, hparts, hchunks.flatten_eq, hreport.2⟩

/-- **A size of chunks for which nothing is read**, although there is a seed of one byte. -/
theorem read_after_write_tooLarge :
    ∃ offered v, write .sample .whole [0] .bare = .ok offered v ∧
      v.Holds Layout.sample.seed [0] ∧
      read .sample 9223372036854775808 v = .error .chunkSizeTooLarge v := by
  have hopen : openKept .sample .bare = .ok _ _ := rfl
  obtain ⟨offered, v, hwrite, -, -, -, hholds⟩ :=
    exists_write_eq World.isSound_bare hopen .whole [0]
  have hoffered : (World.bare.outcome (write .sample .whole [0])).toOption = some [[0]] := by
    decide +kernel
  rw [World.outcome_of_ok hwrite] at hoffered
  obtain rfl : offered = [[0]] := Option.some.inj hoffered
  have hcontent : content .sample .bare = [] := isFresh_sample.content_eq
  rw [hcontent] at hholds
  have hsize : chunksOf 9223372036854775808 [0] = .error .chunkSizeTooLarge := if_pos (by decide)
  have hseed : v.Holds Layout.sample.seed [0] := hholds
  refine ⟨_, v, hwrite, hseed, ?_⟩
  rw [read_of_holds hseed, hsize]
  rfl

end ClientStore.Seed
