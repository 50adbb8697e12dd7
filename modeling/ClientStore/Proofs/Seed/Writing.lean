import ClientStore.Proofs.Layout
import ClientStore.Seed

/-!
# Laying a seed over another

A new seed is written over the old one in as many attempts as it takes, and nothing is known of what
an attempt does: it may take all that is left, some of it or nothing, or it may fail. What can be
said anyway comes from one invariant of the loop. The file has what was taken so far, and behind it
what the old seed had there; what is offered next is what was not taken. So each attempt that does
not end the loop makes the rest shorter, and wherever the loop ends, the old seed is covered only as
far as the new one goes.

## Main definitions

* `Seed.content` — the old seed, if there is one.
* `Seed.covered` — the old seed under so many bytes of the new one.
* `Seed.Outlet.total` — how much some attempts take together.
* `Seed.Outlet.Offers` — which attempts are made.

## Main results

* `Seed.of_openKept_ok` — what is opened has the old seed in it.
* `Seed.exists_writeFrom_eq` — the loop.
* `Seed.write_of_openKept` — what writing a seed does if the file can be opened.
-/

namespace ClientStore.Seed

open Disk

variable {l : Layout} {w w' : World} {handle : Handle} {old data left front rest : Bytes}
  {n m : Nat}

/-! ### Covering -/

/-- What the old bytes become when the first `m` bytes of the data cover them. -/
def covered (old data : Bytes) (m : Nat) : Bytes := data.take m ++ old.drop m

@[simp] theorem covered_zero (old data : Bytes) : covered old data 0 = old := rfl

/-- Some bytes can be covered first, and then some of those behind them. -/
theorem covered_add (old data : Bytes) (n m : Nat) :
    covered old data (n + m) = data.take n ++ covered (old.drop n) (data.drop n) m := by
  rw [covered, covered, List.take_add, List.drop_drop, List.append_assoc]

theorem length_covered (old : Bytes) (h : m ≤ data.length) :
    (covered old data m).length = max old.length m := by
  rw [covered, List.length_append, List.length_take, List.length_drop]
  omega

/-- All of the data covers what is not longer. -/
theorem covered_length (h : old.length ≤ data.length) : covered old data data.length = data := by
  rw [covered, List.take_length, List.drop_eq_nil_of_le h, List.append_nil]

/-! ### Attempts -/

namespace Outlet

variable {outlet : Outlet} {later : List Bytes}

/-- The outlet after some attempts. -/
def skip (outlet : Outlet) (call : Nat) : Outlet := fun i => outlet (call + i)

@[simp] theorem skip_zero (outlet : Outlet) : outlet.skip 0 = outlet := by
  funext i
  rw [skip, Nat.zero_add]

theorem skip_skip (outlet : Outlet) (call : Nat) :
    (outlet.skip call).skip 1 = outlet.skip (call + 1) := by
  funext i
  rw [skip, skip, skip, Nat.add_assoc]

/-- How many of the bytes that are left an attempt takes. -/
def taken (outlet : Outlet) (call left : Nat) : Nat :=
  match outlet call left with
  | .takes n => min n left
  | .fails => 0

/-- How many bytes the attempts take together to which these were offered, one after the other. -/
def total : Outlet → List Bytes → Nat
  | _, [] => 0
  | outlet, left :: later => outlet.taken 0 left.length + (outlet.skip 1).total later

/-- These are offered to the attempts when the data is written. -/
structure Offers (outlet : Outlet) (data : Bytes) (offered : List Bytes) : Prop where
  /-- Where there is nothing to write, no attempt is made. -/
  eq_nil_iff : offered = [] ↔ data = []
  /-- What is offered is all that was not taken. -/
  eq_drop : ∀ i left, offered[i]? = some left → left = data.drop (outlet.total (offered.take i))
  /-- It is less each time. -/
  decreasing : offered.Pairwise fun before after => after.length < before.length
  /-- An attempt is the last one exactly if it fails, if it takes nothing or if it takes all. -/
  last_iff : ∀ i left, offered[i]? = some left → (i + 1 = offered.length ↔
    outlet i left.length = .fails ∨ outlet i left.length = .takes 0 ∨
      outlet.taken i left.length = left.length)
  /-- No more is taken than there is. -/
  total_le : outlet.total offered ≤ data.length

/-- One of the attempts fails. -/
def Fails (outlet : Outlet) (offered : List Bytes) : Prop :=
  ∃ i left, offered[i]? = some left ∧ outlet i left.length = .fails

theorem taken_le (outlet : Outlet) (call left : Nat) : outlet.taken call left ≤ left := by
  rw [taken]
  split
  · exact Nat.min_le_right _ _
  · exact Nat.zero_le _

theorem taken_of_takes {call left : Nat} (h : outlet call left = .takes n) :
    outlet.taken call left = min n left := by
  rw [taken, h]

/-- Taking more than there is, is taking all there is. -/
theorem length_take_eq (h : outlet 0 left.length = .takes n) :
    (left.take n).length = outlet.taken 0 left.length ∧
      left.take (outlet.taken 0 left.length) = left.take n ∧
      left.drop (outlet.taken 0 left.length) = left.drop n := by
  rw [taken_of_takes h]
  refine ⟨List.length_take, ?_⟩
  rcases Nat.le_total n left.length with hle | hle
  · rw [Nat.min_eq_left hle]
    exact ⟨rfl, rfl⟩
  · rw [Nat.min_eq_right hle, List.take_length, List.take_of_length_le hle, List.drop_length,
      List.drop_eq_nil_of_le hle]
    exact ⟨rfl, rfl⟩

/-- An attempt that fails or takes nothing takes nothing. -/
theorem total_singleton (h : outlet 0 left.length = .fails ∨ outlet 0 left.length = .takes 0) :
    outlet.total [left] = 0 := by
  rcases h with h | h
  · rw [total, total, taken, h]
  · rw [total, total, taken_of_takes h, Nat.zero_min]

theorem Offers.nil (outlet : Outlet) : outlet.Offers [] [] :=
  ⟨iff_of_true rfl rfl, fun i _ h => by simp at h, .nil, fun i _ h => by simp at h,
    Nat.zero_le _⟩

/-- An attempt that takes nothing is the only one. -/
theorem Offers.singleton (hl : left ≠ [])
    (h : outlet 0 left.length = .fails ∨ outlet 0 left.length = .takes 0) :
    outlet.Offers left [left] := by
  have hone {i : Nat} {t : Bytes} (hi : [left][i]? = some t) : i = 0 ∧ left = t := by
    rw [List.getElem?_singleton] at hi
    split at hi
    · exact ⟨‹_›, Option.some.inj hi⟩
    · contradiction
  refine ⟨iff_of_false (by simp) hl, fun i t hi => ?_, List.pairwise_singleton _ _,
    fun i t hi => ?_, outlet.taken_le 0 left.length⟩
  · obtain ⟨rfl, rfl⟩ := hone hi
    rfl
  · obtain ⟨rfl, rfl⟩ := hone hi
    exact iff_of_true rfl (h.imp_right .inl)

/-- An attempt that takes something goes before those that are made with the rest. -/
theorem Offers.cons (hl : left ≠ []) (h : outlet 0 left.length = .takes n) (hn : n ≠ 0)
    (hs : (outlet.skip 1).Offers (left.drop n) later) : outlet.Offers left (left :: later) := by
  have hpos : 0 < left.length := List.length_pos_iff.2 hl
  have htaken := taken_of_takes h
  obtain ⟨-, -, hdrop⟩ := length_take_eq h
  refine ⟨iff_of_false (by simp) hl, fun i t hi => ?_, ?_, fun i t hi => ?_, ?_⟩
  · cases i with
    | zero =>
      obtain rfl : left = t := Option.some.inj hi
      rfl
    | succ i =>
      rw [List.getElem?_cons_succ] at hi
      rw [hs.eq_drop i t hi, List.take_succ_cons, total, ← List.drop_drop, hdrop]
  · refine List.pairwise_cons.2 ⟨fun t ht => ?_, hs.decreasing⟩
    obtain ⟨i, hi⟩ := List.getElem?_of_mem ht
    rw [hs.eq_drop i t hi, List.length_drop, List.length_drop]
    omega
  · cases i with
    | zero =>
      obtain rfl : left = t := Option.some.inj hi
      rw [h, htaken, List.length_cons, Nat.zero_add, eq_comm, Nat.add_eq_right,
        List.length_eq_zero_iff, hs.eq_nil_iff, List.drop_eq_nil_iff]
      simp only [reduceCtorEq, Attempt.takes.injEq, hn, false_or]
      omega
    | succ i =>
      rw [List.getElem?_cons_succ] at hi
      rw [List.length_cons, Nat.add_right_cancel_iff, hs.last_iff i t hi, skip, taken, taken,
        skip, Nat.add_comm 1 i]
  · have hle := hs.total_le
    rw [List.length_drop] at hle
    rw [total, htaken]
    omega

theorem not_fails_nil : ¬ outlet.Fails [] := by
  rintro ⟨i, left, h, -⟩
  simp at h

theorem fails_singleton_iff : outlet.Fails [left] ↔ outlet 0 left.length = .fails := by
  refine ⟨?_, fun h => ⟨0, left, rfl, h⟩⟩
  rintro ⟨i, t, hi, h⟩
  cases i with
  | zero =>
    obtain rfl : left = t := Option.some.inj hi
    exact h
  | succ i => simp at hi

/-- Where the first attempt takes something, it is a later one that fails. -/
theorem fails_cons_iff (h : outlet 0 left.length = .takes n) :
    outlet.Fails (left :: later) ↔ (outlet.skip 1).Fails later := by
  constructor
  · rintro ⟨i, t, hi, hf⟩
    cases i with
    | zero =>
      obtain rfl : left = t := Option.some.inj hi
      exact absurd (h.symm.trans hf) (by simp)
    | succ i => exact ⟨i, t, hi, by rwa [skip, Nat.add_comm]⟩
  · rintro ⟨i, t, hi, hf⟩
    rw [skip, Nat.add_comm] at hf
    exact ⟨i + 1, t, hi, hf⟩

end Outlet

/-! ### The loop -/

/-- One warning was given if an attempt failed, and nothing was told if none did. -/
def Warns (outlet : Outlet) (offered : List Bytes) (w w' : World) : Prop :=
  (outlet.Fails offered ∧ ∃ message, w'.journal = w.journal ++ [.logged .warning message]) ∨
    ¬ outlet.Fails offered ∧ w'.journal = w.journal

/-- What the loop leaves, when it has put `front` into the file and there is still `left`. -/
theorem exists_writeFrom_eq (hw : w.IsSound) (ho : w.Opens l.seed handle (front ++ rest))
    (outlet : Outlet) (call : Nat) (left : Bytes) :
    ∃ offered w', writeFrom l outlet handle call front.length left w = .ok offered w' ∧
      (outlet.skip call).Offers left offered ∧ Warns (outlet.skip call) offered w w' ∧
      w'.Opens l.seed handle (front ++ covered rest left ((outlet.skip call).total offered)) ∧
      w'.IsSound := by
  induction hlength : left.length using Nat.strongRecOn generalizing w front rest left call with
  | ind k ih =>
    subst hlength
    rw [writeFrom]
    by_cases hl : left = []
    · subst hl
      exact ⟨[], w, rfl, .nil _, .inr ⟨Outlet.not_fails_nil, rfl⟩, ho, hw⟩
    rw [dif_neg hl]
    have hcovered {n : Nat} (h : n = 0) : front ++ rest = front ++ covered rest left n := by
      rw [h, covered_zero]
    cases hattempt : outlet call left.length with
    | fails =>
      refine ⟨[left], _, rfl, .singleton hl (.inl hattempt),
        .inl ⟨Outlet.fails_singleton_iff.2 hattempt, _, rfl⟩, ?_, hw⟩
      rw [← hcovered (Outlet.total_singleton (.inl hattempt))]
      exact ho
    | takes n =>
      dsimp only
      by_cases hn : n = 0
      · subst hn
        refine ⟨[left], w, rfl, .singleton hl (.inr hattempt), .inr ⟨?_, rfl⟩, ?_, hw⟩
        · rw [Outlet.fails_singleton_iff]
          exact fun hf => absurd (hattempt.symm.trans hf) (by simp)
        · rw [← hcovered (Outlet.total_singleton (.inr hattempt))]
          exact ho
      -- what is taken goes to the front, and the loop goes on with the rest
      rw [dif_neg hn]
      have hshort : (left.drop n).length < left.length := by
        rw [List.length_drop]
        have := List.length_pos_iff.2 hl
        omega
      obtain ⟨u, hwrite, hou, hk, hju⟩ := write_of_opens hw ho (left.take n)
      obtain ⟨later, w', hlater, hoffers, hwarns, how', hw'⟩ :=
        ih _ hshort (hk.isSound hw) hou (call + 1) (left.drop n) rfl
      rw [List.length_append] at hlater
      rw [← Outlet.skip_skip] at hoffers hwarns how'
      refine ⟨left :: later, w', (StoreM.bind_of_ok hwrite _).trans (StoreM.bind_of_ok hlater _),
        hoffers.cons hl hattempt hn, ?_, ?_, hw'⟩
      · rw [Warns, Outlet.fails_cons_iff hattempt, ← hju]
        exact hwarns
      · have hfirst : outlet.skip call 0 left.length = .takes n := hattempt
        obtain ⟨hlen, htake, hdrop⟩ := Outlet.length_take_eq hfirst
        rw [Outlet.total, covered_add, htake, hdrop, ← List.append_assoc, ← hlen]
        exact how'

/-! ### Opening -/

/-- The old seed: what is in the file, also if it takes the root to be made for the file to be found
there. Without a file there is nothing. -/
def content (l : Layout) (w : World) : Bytes :=
  ((w.content? l.seed).or ((w.after l.ensureRoot).content? l.seed)).getD []

theorem content_of_holds (h : w.Holds l.seed old) : content l w = old := by
  rw [content, content?_eq_some_iff.2 h]
  rfl

theorem openKept_eq (l : Layout) : openKept l = l.openOrMake l.seed := rfl

/-- A seed that is there can be opened. -/
theorem exists_openKept_of_holds (h : w.Holds l.seed old) :
    ∃ handle, openKept l w = .ok handle w := by
  obtain ⟨handle, mode, hf⟩ := holds_iff.1 h
  rw [openKept_eq]
  exact ⟨handle, Layout.openOrMake_of_ok (openKept_of_file (hf.creation rfl))⟩

/-- A seed that can be opened as it is, is in a root that is there. -/
theorem hasDirectoryAt_of_openKept_ok (hw : w.IsSound)
    (ho : Disk.openKept l.seed privateFileMode w = .ok handle w') : w.HasDirectoryAt l.root := by
  rcases openKept_ok_cases ho with rfl | ⟨place, hf, -⟩
  · obtain ⟨⟨mode, hf⟩, -⟩ := opens_of_openKept_ok hw ho
    exact hf.parent Layout.isComponent_seed
  · exact hf.parent Layout.isComponent_seed

/-- **What is opened has the old seed in it**, and nothing was told. -/
theorem of_openKept_ok (hw : w.IsSound) (ho : openKept l w = .ok handle w') :
    w'.Opens l.seed handle (content l w) ∧ w'.IsSound ∧ w'.journal = w.journal := by
  rw [openKept_eq] at ho
  have hjournal : w'.journal = w.journal := by
    rw [← World.after_of_ok ho]
    exact (l.isQuiet_openOrMake l.seed).preserves_journal w
  rcases Layout.openOrMake_ok_cases ho with ho | ⟨⟨r, hr⟩, v, hv, ho⟩
  · obtain ⟨hopens, hk⟩ := opens_of_openKept_ok hw ho
    have hroot : l.ensureRoot w = .ok () w :=
      ensureDirectory_of_hasDirectoryAt (hasDirectoryAt_of_openKept_ok hw ho)
    rw [content, World.after_of_ok hroot, Option.or_self]
    exact ⟨hopens, hk.isSound hw, hjournal⟩
  · have hnone : w.content? l.seed = none := content?_eq_none_iff.2 fun c hc => by
      obtain ⟨h, old, hf⟩ := holds_iff.1 hc
      exact absurd (hr.symm.trans (openKept_of_file (hf.creation rfl))) (by simp)
    have hsound := (keeps_of_ensureDirectory hw hv).isSound hw
    obtain ⟨hopens, hk⟩ := opens_of_openKept_ok hsound ho
    rw [content, hnone, Option.none_or, World.after_of_ok hv]
    exact ⟨hopens, hk.isSound hsound, hjournal⟩

/-! ### Writing a seed -/

/-- A seed that can be opened is written, whatever the attempts do. -/
theorem exists_write_eq (hw : w.IsSound) (ho : openKept l w = .ok handle w') (outlet : Outlet)
    (data : Bytes) :
    ∃ offered v, write l outlet data w = .ok offered v ∧ outlet.Offers data offered ∧
      Warns outlet offered w v ∧ v.IsSound ∧
      v.Holds l.seed (covered (content l w) data (outlet.total offered)) := by
  obtain ⟨hopens, hw', hjournal⟩ := of_openKept_ok hw ho
  have hstart : w'.Opens l.seed handle ([] ++ content l w) := hopens
  obtain ⟨offered, v, hloop, hoffers, hwarns, hv, hsound⟩ :=
    exists_writeFrom_eq hw' hstart outlet 0 data
  rw [Outlet.skip_zero] at hoffers hwarns hv
  have hopen : (some <$> openKept l : StoreM (Option Handle)) w = .ok (some handle) w' :=
    StoreM.bind_of_ok ho _
  refine ⟨offered, v, (StoreM.bind_of_ok (StoreM.onRefusal_of_ok hopen _) _).trans hloop, hoffers,
    ?_, hsound, holds_iff.2 ⟨_, hv⟩⟩
  rwa [Warns, ← hjournal]

/-- **What writing a seed does if the file can be opened**, whatever the attempts do. It ends well
and warns only of an attempt that fails. The new seed covers the old one as far as it was taken, so
that the file never gets shorter, and it is the new seed if that is no shorter and was all taken. -/
theorem write_of_openKept (hw : w.IsSound) (ho : openKept l w = .ok handle w') (outlet : Outlet)
    (data : Bytes) :
    ∃ offered v, write l outlet data w = .ok offered v ∧ outlet.Offers data offered ∧
      Warns outlet offered w v ∧ ∃ new, v.Holds l.seed new ∧
        new = data.take (outlet.total offered) ++ (content l w).drop (outlet.total offered) ∧
        (content l w).length ≤ new.length ∧
        (outlet.total offered = data.length → (content l w).length ≤ data.length →
          new = data) := by
  obtain ⟨offered, v, hwrite, hoffers, hwarns, -, hholds⟩ := exists_write_eq hw ho outlet data
  refine ⟨offered, v, hwrite, hoffers, hwarns, _, hholds, rfl, ?_, fun hall hle => ?_⟩
  · rw [length_covered _ hoffers.total_le]
    exact Nat.le_max_left _ _
  · rw [hall, covered_length hle]

/-- A world with a seed of three bytes in it. -/
def sampleWorld : World := World.bare.after (write .sample .whole [7, 8, 9])

/-- The first attempt takes a byte, and the second one fails. -/
def sampleOutlet : Outlet := .ofPlan (.takes 1) [.fails]

/-- One byte of the old seed is covered, and the other two are still there. -/
theorem write_of_openKept_sample :
    ∃ offered v, write .sample sampleOutlet [1, 2] sampleWorld = .ok offered v ∧
      v.Holds Layout.sample.seed [1, 8, 9] ∧ offered = [[1, 2], [2]] ∧
      ∃ message, v.journal = sampleWorld.journal ++ [.logged .warning message] := by
  -- the three bytes are written on a fresh root
  have hfirst : openKept .sample .bare = .ok _ _ := rfl
  obtain ⟨_, u, hwrite, -, -, hsound, hseed⟩ :=
    exists_write_eq World.isSound_bare hfirst .whole [7, 8, 9]
  obtain rfl : sampleWorld = u := World.after_of_ok hwrite
  obtain ⟨handle, hopen⟩ := exists_openKept_of_holds hseed
  obtain ⟨offered, v, hv, -, hwarns, new, hholds, hnew, -⟩ :=
    write_of_openKept hsound hopen sampleOutlet [1, 2]
  have hoffered : (sampleWorld.outcome (write .sample sampleOutlet [1, 2])).toOption =
      some [[1, 2], [2]] := by decide +kernel
  rw [World.outcome_of_ok hv] at hoffered
  obtain rfl : offered = [[1, 2], [2]] := Option.some.inj hoffered
  have hcontent : content .sample sampleWorld = [7, 8, 9] := by decide +kernel
  rw [hnew, hcontent] at hholds
  refine ⟨_, v, hv, hholds, rfl, ?_⟩
  rcases hwarns with ⟨-, hwarned⟩ | ⟨hnot, -⟩
  · exact hwarned
  · exact absurd ⟨1, [2], rfl, rfl⟩ hnot

end ClientStore.Seed
