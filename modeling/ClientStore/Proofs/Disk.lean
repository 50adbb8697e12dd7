import ClientStore.Proofs.FilePath
import ClientStore.Proofs.World

/-!
# What paths lead to

A world gives paths a meaning. Everything the stores do by path is settled here by what the path
leads to before and after, and after that no proof looks at the bytes of a path or at a walk again.

## Main definitions

* `World.IsSound` — the working directory is there.
* `World.Finds` — what a path leads to.
* `World.HasDirectoryAt`, `World.HasEntryAt` — the paths of directories, and those of files and
  links.
* `World.Holds`, `World.Lacks` — the content of the file at a path, and its absence.
* `World.content?` — the content as a value.
* `World.Opens` — a handle of the file at a path.
* `World.Keeps` — a later world in which directories and links are as they were.
* `Disk.Rewritten` — a later world in which one file has other content.

## Main results

* `Disk.openKept_cases` — what becomes of opening a file.
* `Disk.remove_cases` — what becomes of removing one.
* `World.Opens.append` — what is appended through a handle is appended at the path.
-/

namespace ClientStore

open FileTree

/-- The working directory is there. -/
def World.IsSound (w : World) : Prop := w.tree.HasDirectory w.here

/-- The path leads to `s` if it is walked for `aim`. -/
def World.Finds (w : World) (aim : Aim) (p : FilePath) (s : Spot) : Prop :=
  ∃ b, p.bytes = .ok b ∧ w.tree.locate w.here aim b = .ok s

/-- The path is one of a directory. -/
def World.HasDirectoryAt (w : World) (p : FilePath) : Prop := ∃ d, w.Finds .denoted p (.directory d)

/-- The path is that of the file or the link at the place. A link is not followed. -/
def World.HasEntryAt (w : World) (p : FilePath) (place : Place) : Prop :=
  ∃ s, w.Finds .itself p s ∧ s.entry? = some place

/-- There is nothing at the path, and no directory that could take something. -/
def World.Misses (w : World) (p : FilePath) : Prop :=
  ∃ b, p.bytes = .ok b ∧ w.tree.locate w.here .itself b = .error .notFound

/-- The file at the path can be read, and this is what is in it. -/
def World.Holds (w : World) (p : FilePath) (content : Bytes) : Prop :=
  Disk.read p w = .ok content w

/-- The file at the path cannot be read, mostly because there is none. -/
def World.Lacks (w : World) (p : FilePath) : Prop := ∃ r, Disk.read p w = .error (.refused r) w

/-- The open file is what the path leads to, and this is what is in it. -/
def World.Opens (w : World) (p : FilePath) (h : Handle) (content : Bytes) : Prop :=
  ∃ mode, w.Finds .denoted p (.file h.place h.serial mode content)

/-- What the file at a path holds, if it can be read. -/
def World.content? (w : World) (p : FilePath) : Option Bytes :=
  match Disk.read p w with
  | .ok content _ => some content
  | .error _ _ => none

/-- In the world `w'`, directories and links are as they were in `w`. -/
structure World.Keeps (w w' : World) : Prop where
  tree : w.tree.Keeps w'.tree
  here : w'.here = w.here

namespace World

variable {w w' w'' : World} {p : FilePath} {aim : Aim} {s s' : Spot}

/-! ### Walks from the working directory -/

theorem finds_iff :
    w.Finds aim p s ↔ p.IsShort ∧ Leads w.tree aim maxLinks (p.start w.here) p.names s := by
  constructor
  · rintro ⟨b, hb, hl⟩
    have he := (FilePath.bytes_eq_ok_iff.1 hb).1
    have hlt : b.length < pathLengthBound := FilePath.length_lt_of_locate (by rw [hl]; simp)
    refine ⟨⟨b, hb, hlt⟩, ?_⟩
    rwa [← walk_eq_ok_iff, ← FilePath.locate_eq_walk he hlt]
  · rintro ⟨⟨b, hb, hlt⟩, hl⟩
    refine ⟨b, hb, ?_⟩
    rwa [FilePath.locate_eq_walk (FilePath.bytes_eq_ok_iff.1 hb).1 hlt, walk_eq_ok_iff]

/-- Where a path leads to depends on the file tree and the working directory only. -/
theorem finds_congr (ht : w.tree = w'.tree) (hh : w.here = w'.here) :
    w.Finds aim p s ↔ w'.Finds aim p s := by
  rw [Finds, Finds, ht, hh]

theorem opens_congr {h : Handle} {c : Bytes} (ht : w.tree = w'.tree) (hh : w.here = w'.here) :
    w.Opens p h c ↔ w'.Opens p h c := exists_congr fun _ => finds_congr ht hh

theorem Finds.unique (h : w.Finds aim p s) (h' : w.Finds aim p s') : s = s' := by
  obtain ⟨b, hb, hl⟩ := h
  obtain ⟨b', hb', hl'⟩ := h'
  obtain rfl : b = b' := Except.ok.inj (hb.symm.trans hb')
  exact Except.ok.inj (hl.symm.trans hl')

theorem HasEntryAt.unique {place place' : Place} (h : w.HasEntryAt p place)
    (h' : w.HasEntryAt p place') : place = place' := by
  obtain ⟨s, hf, hs⟩ := h
  obtain ⟨s', hf', hs'⟩ := h'
  obtain rfl := hf.unique hf'
  exact Option.some.inj (hs.symm.trans hs')

theorem isSound_bare : World.bare.IsSound := hasDirectory_root _

theorem IsSound.start (hw : w.IsSound) (p : FilePath) : w.tree.HasDirectory (p.start w.here) := by
  rw [FilePath.start]
  split
  · exact hw
  · exact w.tree.hasDirectory_root
  · exact w.tree.hasDirectory_root

theorem slash_not_mem_names (p : FilePath) : ∀ name ∈ p.names, 0x2F ∉ name := by
  intro name hn
  obtain ⟨c, -, rfl⟩ := List.mem_map.1 hn
  cases he : Utf8.encode? c.text with
  | none =>
    rw [Component.bytes, he]
    simp
  | some b =>
    rw [Component.bytes_eq he]
    exact Component.slash_not_mem_bytes he

theorem Finds.isIn (h : w.Finds aim p s) (hw : w.IsSound) : s.IsIn w.tree :=
  (finds_iff.1 h).2.isIn (hw.start p) (slash_not_mem_names p)

theorem Finds.denoted (h : w.Finds aim p s) (hs : aim ≠ .itself ∨ ∀ q target, s ≠ .link q target) :
    w.Finds .denoted p s :=
  finds_iff.2 ⟨(finds_iff.1 h).1, (finds_iff.1 h).2.denoted hs⟩

theorem Finds.creation (h : w.Finds .denoted p s) (hs : s.isDirectory = false) :
    w.Finds .creation p s :=
  finds_iff.2 ⟨(finds_iff.1 h).1, (finds_iff.1 h).2.creation hs⟩

/-! ### Later worlds -/

theorem Keeps.refl (w : World) : w.Keeps w := ⟨.refl _, rfl⟩

theorem Keeps.trans (h : w.Keeps w') (h' : w'.Keeps w'') : w.Keeps w'' :=
  ⟨h.tree.trans h'.tree, h'.here.trans h.here⟩

theorem Keeps.isSound (h : w.Keeps w') (hw : w.IsSound) : w'.IsSound := by
  rw [IsSound, h.here]
  exact h.tree.grows _ hw

/-- What a path leads to can be followed through changes that keep directories and links. -/
theorem Keeps.finds (h : w.Keeps w') (hw : w.IsSound) (hf : w.Finds aim p s) :
    w'.Finds aim p (s.seenIn w'.tree) := by
  obtain ⟨hp, hl⟩ := finds_iff.1 hf
  refine finds_iff.2 ⟨hp, ?_⟩
  rw [h.here]
  exact h.tree.leads hl (hw.start p)

end World

/-! ### Asking the file tree -/

namespace FilePath

/-- What can be wrong with a path before the file tree is asked. -/
theorem eq_of_bytes_eq_error {p : FilePath} {e : Failure} (h : p.bytes = .error e) :
    e = .unencodable ∨ e = .nullInPath := by
  rw [bytes, Text.systemBytes] at h
  split at h
  · exact .inl (Except.error.inj h).symm
  · split at h
    · exact .inr (Except.error.inj h).symm
    · contradiction

theorem ne_refused_of_bytes {p : FilePath} {e : Failure} (h : p.bytes = .error e) (r : Refusal) :
    e ≠ .refused r := by
  rcases eq_of_bytes_eq_error h with rfl | rfl
  · exact nofun
  · exact nofun

end FilePath

namespace Disk

section Asking

variable {α : Type} {w : World} {p : FilePath} {b : Bytes}
  {f : FileTree → Nat → Bytes → Except Fault α}
  {g : FileTree → Nat → Bytes → Except Fault (α × FileTree)}

/-- Once the bytes of a path are known, asking is a matter of the file tree. -/
theorem ask_eq (hb : p.bytes = .ok b) :
    ask p f w =
      match f w.tree w.here b with
      | .ok a => .ok a w
      | .error fault => .error (.refused ⟨fault, some p⟩) w := by
  rw [ask, hb]
  show (match f w.tree w.here b with
    | .ok a => pure a
    | .error fault => throw (.refused ⟨fault, some p⟩) : StoreM α) w = _
  cases f w.tree w.here b with
  | ok a => rfl
  | error fault => rfl

theorem ask_of_bytes {e : Failure} (hb : p.bytes = .error e) : ask p f w = .error e w := by
  rw [ask, hb]
  rfl

theorem change_eq (hb : p.bytes = .ok b) :
    change p g w =
      match g w.tree w.here b with
      | .ok (a, tree) => .ok a { w with tree }
      | .error fault => .error (.refused ⟨fault, some p⟩) w := by
  cases hg : g w.tree w.here b with
  | ok r =>
    have h : ask p g w = .ok r w := by rw [ask_eq hb, hg]
    exact StoreM.bind_of_ok h _
  | error fault =>
    have h : ask p g w = .error (.refused ⟨fault, some p⟩) w := by rw [ask_eq hb, hg]
    exact StoreM.bind_of_error h _

theorem change_of_bytes {e : Failure} (hb : p.bytes = .error e) : change p g w = .error e w :=
  StoreM.bind_of_error (ask_of_bytes hb) _

/-- A change that is not made changes nothing. -/
theorem eq_of_change_eq_error {e : Failure} {w' : World} (h : change p g w = .error e w') :
    w = w' := by
  cases hb : p.bytes with
  | error e' =>
    injection (change_of_bytes hb).symm.trans h
  | ok b =>
    have hc := (change_eq hb).symm.trans h
    cases hg : g w.tree w.here b with
    | ok r =>
      rw [hg] at hc
      contradiction
    | error fault =>
      rw [hg] at hc
      injection hc

/-- What survives the changes that are made survives those that are refused. -/
theorem maintains_change {P : World → Prop}
    (h : ∀ w a w', change p g w = .ok a w' → P w → P w') : (change p g).Maintains P := by
  intro w hw
  rcases StoreM.ok_or_error (change p g) w with ⟨a, hc⟩ | ⟨e, hc⟩
  · exact h w a _ hc hw
  · rwa [← eq_of_change_eq_error hc]

/-- A change that only depends on what the path leads to, and goes through. -/
theorem change_of_finds {aim : Aim} {s : Spot} {a : α} {tree : FileTree} (h : w.Finds aim p s)
    (hg : ∀ b, w.tree.locate w.here aim b = .ok s → g w.tree w.here b = .ok (a, tree)) :
    change p g w = .ok a { w with tree } := by
  obtain ⟨b, hb, hl⟩ := h
  rw [change_eq hb, hg b hl]

/-- A change that only depends on what the path leads to, and is refused. -/
theorem change_of_finds_refused {aim : Aim} {s : Spot} {fault : Fault} (h : w.Finds aim p s)
    (hg : ∀ b, w.tree.locate w.here aim b = .ok s → g w.tree w.here b = .error fault) :
    change p g w = .error (.refused ⟨fault, some p⟩) w := by
  obtain ⟨b, hb, hl⟩ := h
  rw [change_eq hb, hg b hl]

theorem exists_change_eq_error {aim : Aim} (h : ∀ s, ¬ w.Finds aim p s)
    (hg : ∀ b fault, w.tree.locate w.here aim b = .error fault →
      g w.tree w.here b = .error fault) : ∃ e, change p g w = .error e w := by
  cases hb : p.bytes with
  | error e => exact ⟨e, change_of_bytes hb⟩
  | ok b =>
    cases hl : w.tree.locate w.here aim b with
    | ok s => exact absurd ⟨b, hb, hl⟩ (h s)
    | error fault =>
      refine ⟨.refused ⟨fault, some p⟩, ?_⟩
      rw [change_eq hb, hg b fault hl]

/-- A change that goes through depends on what the path leads to. -/
theorem exists_finds_of_change_eq_ok (aim : Aim) {a : α} {w' : World}
    (h : change p g w = .ok a w')
    (hg : ∀ b fault, w.tree.locate w.here aim b = .error fault →
      g w.tree w.here b = .error fault) :
    ∃ s b tree, w.Finds aim p s ∧ w.tree.locate w.here aim b = .ok s ∧
      g w.tree w.here b = .ok (a, tree) ∧ w' = { w with tree } := by
  cases hb : p.bytes with
  | error e => exact absurd ((change_of_bytes hb).symm.trans h) (by simp)
  | ok b =>
    have hc := (change_eq hb).symm.trans h
    cases hl : w.tree.locate w.here aim b with
    | error fault =>
      rw [hg b fault hl] at hc
      contradiction
    | ok s =>
      cases hr : g w.tree w.here b with
      | error fault =>
        rw [hr] at hc
        contradiction
      | ok r =>
        rw [hr] at hc
        injection hc with ha hw
        exact ⟨s, b, r.2, ⟨b, hb, hl⟩, hl, hr.trans (by rw [← ha]), hw.symm⟩

end Asking

section Files

variable {w : World} {p : FilePath} {mode : Nat} {c : Bytes}

/-! ### Reading -/

/-- A file can be read exactly if the path leads to it. -/
theorem holds_iff : w.Holds p c ↔ ∃ h, w.Opens p h c := by
  constructor
  · intro h
    rw [World.Holds, read] at h
    cases hb : p.bytes with
    | error e =>
      rw [ask_of_bytes hb] at h
      contradiction
    | ok b =>
      rw [ask_eq hb, FileTree.read] at h
      cases hl : w.tree.locate w.here .denoted b with
      | error fault =>
        rw [hl] at h
        contradiction
      | ok s =>
        rw [hl] at h
        cases s with
        | file place serial mode content =>
          obtain rfl : content = c := by injection h
          exact ⟨⟨place, serial⟩, mode, b, hb, hl⟩
        | _ => contradiction
  · rintro ⟨h, mode, b, hb, hl⟩
    rw [World.Holds, read, ask_eq hb, FileTree.read, hl]

/-- Reading ends well only with what the file holds, and it changes nothing. -/
theorem read_cases (p : FilePath) (w : World) :
    (∃ c, w.Holds p c) ∨ (∀ c, ¬ w.Holds p c) ∧ ∃ f, read p w = .error f w := by
  cases hb : p.bytes with
  | error e =>
    have hr : read p w = .error e w := ask_of_bytes hb
    exact .inr ⟨fun c h => absurd (hr.symm.trans h) (by simp), e, hr⟩
  | ok b =>
    have hr := ask_eq (f := FileTree.read) (w := w) hb
    cases hread : w.tree.read w.here b with
    | ok c =>
      rw [hread] at hr
      exact .inl ⟨c, hr⟩
    | error fault =>
      rw [hread] at hr
      exact .inr ⟨fun c h => absurd (hr.symm.trans h) (by simp), _, hr⟩

theorem leavesFiles_read (p : FilePath) : (read p).LeavesFiles := by
  intro w
  rcases read_cases p w with ⟨c, h⟩ | ⟨-, f, h⟩
  · rw [World.after_of_ok h]
    exact ⟨rfl, rfl⟩
  · rw [World.after_of_error h]
    exact ⟨rfl, rfl⟩

theorem holds_unique {c c' : Bytes} (h : w.Holds p c) (h' : w.Holds p c') : c = c' := by
  injection h.symm.trans h'

theorem content?_eq_some_iff : w.content? p = some c ↔ w.Holds p c := by
  rw [World.content?, World.Holds]
  rcases read_cases p w with ⟨c', h⟩ | ⟨-, f, h⟩
  · rw [World.Holds] at h
    rw [h]
    simp
  · rw [h]
    simp

theorem content?_eq_none_iff : w.content? p = none ↔ ∀ c, ¬ w.Holds p c := by
  simp only [← content?_eq_some_iff, Option.eq_none_iff_forall_ne_some, ne_eq]

/-- A path without bytes has no content. -/
theorem content?_of_bytes {f : Failure} (h : p.bytes = .error f) : w.content? p = none := by
  have hr : read p w = .error f w := ask_of_bytes h
  rw [World.content?, hr]

/-- What a file holds depends on the file tree and the working directory only. -/
theorem holds_congr {v : World} (ht : w.tree = v.tree) (hh : w.here = v.here) :
    w.Holds p c ↔ v.Holds p c := by
  rw [holds_iff, holds_iff]
  exact exists_congr fun _ => World.opens_congr ht hh

/-- Reading a file is refused. -/
theorem lacks_iff : w.Lacks p ↔ (∃ b, p.bytes = .ok b) ∧ ∀ c, ¬ w.Holds p c := by
  constructor
  · rintro ⟨r, hr⟩
    refine ⟨?_, fun c hc => absurd (hr.symm.trans hc) (by simp)⟩
    cases hb : p.bytes with
    | ok b => exact ⟨b, rfl⟩
    | error e =>
      have he : read p w = .error e w := ask_of_bytes hb
      obtain rfl : e = .refused r := by injection he.symm.trans hr
      exact absurd rfl (FilePath.ne_refused_of_bytes hb r)
  · rintro ⟨⟨b, hb⟩, hno⟩
    have hr : read p w = _ := ask_eq hb
    cases hread : w.tree.read w.here b with
    | ok c =>
      rw [hread] at hr
      exact absurd hr (hno c)
    | error fault =>
      rw [hread] at hr
      exact ⟨_, hr⟩

/-- Where there is only a place for a file, there is none to read. -/
theorem lacks_of_vacant {place : Place} (hf : w.Finds .denoted p (.vacant place)) : w.Lacks p := by
  obtain ⟨b, hb, -⟩ := id hf
  refine lacks_iff.2 ⟨⟨b, hb⟩, fun c hc => ?_⟩
  obtain ⟨h, mode, hfind⟩ := holds_iff.1 hc
  exact absurd (hf.unique hfind) (by simp)

/-! ### Opening -/

theorem openKept_of_file {h : Handle} {old : Nat} (hf : w.Finds .creation p
    (.file h.place h.serial old c)) : openKept p mode w = .ok h w :=
  change_of_finds hf fun b hb => by rw [FileTree.openKept, hb]

theorem openKept_of_vacant {place : Place} (hf : w.Finds .creation p (.vacant place)) :
    openKept p mode w =
      .ok (w.tree.create place mode).1 { w with tree := (w.tree.create place mode).2 } :=
  change_of_finds hf fun b hb => by rw [FileTree.openKept, hb]

/-- Where there is no file and no place for one, none can be opened, and nothing happens. -/
theorem exists_openKept_eq_error (hv : ∀ place, ¬ w.Finds .creation p (.vacant place))
    (hf : ∀ place serial old c, ¬ w.Finds .creation p (.file place serial old c)) (mode : Nat) :
    ∃ f, openKept p mode w = .error f w := by
  by_cases hs : ∃ s, w.Finds .creation p s
  · obtain ⟨s, hs⟩ := hs
    cases s with
    | file place serial old c => exact absurd hs (hf place serial old c)
    | vacant place => exact absurd hs (hv place)
    | _ => exact ⟨_, change_of_finds_refused hs fun b hb => by rw [FileTree.openKept, hb]⟩
  · exact exists_change_eq_error (fun s h => hs ⟨s, h⟩) fun b fault hb => by
      rw [FileTree.openKept, hb]

/-- A file that could be opened was there and is as it was, or there was a place for a new one. -/
theorem openKept_ok_cases {h : Handle} {w' : World} (ho : openKept p mode w = .ok h w') :
    w = w' ∨ ∃ place, w.Finds .creation p (.vacant place) ∧
      w' = { w with tree := (w.tree.create place mode).2 } := by
  obtain ⟨s, b, tree, hf, hl, hg, rfl⟩ := exists_finds_of_change_eq_ok .creation ho
    fun b fault hb => by rw [FileTree.openKept, hb]
  rw [FileTree.openKept, hl] at hg
  cases s with
  | file place serial old c =>
    cases hg
    exact .inl rfl
  | vacant place =>
    cases hg
    exact .inr ⟨place, hf, rfl⟩
  | _ => contradiction

/-- A file that could be emptied was there, or there was a place for a new one. -/
theorem openEmptied_ok_cases {h : Handle} {w' : World} (ho : openEmptied p mode w = .ok h w') :
    (∃ place, w' = { w with tree := w.tree.refill place [] }) ∨
    ∃ place, w.Finds .creation p (.vacant place) ∧
      w' = { w with tree := (w.tree.create place mode).2 } := by
  obtain ⟨s, b, tree, hf, hl, hg, rfl⟩ := exists_finds_of_change_eq_ok .creation ho
    fun b fault hb => by rw [FileTree.openEmptied, hb]
  rw [FileTree.openEmptied, hl] at hg
  cases s with
  | file place serial old c =>
    cases hg
    exact .inl ⟨place, rfl⟩
  | vacant place =>
    cases hg
    exact .inr ⟨place, hf, rfl⟩
  | _ => contradiction

theorem remove_of_finds {s : Spot} {place : Place} (hf : w.Finds .itself p s)
    (hs : s.entry? = some place) : remove p w = .ok () { w with tree := w.tree.prune place } := by
  refine change_of_finds hf fun b hb => ?_
  rw [FileTree.remove, hb]
  cases s with
  | file _ _ _ _ | link _ _ =>
    obtain rfl := Option.some.inj hs
    rfl
  | directory _ | vacant _ => contradiction

theorem exists_remove_eq_error {s : Spot} (hf : w.Finds .itself p s) (hs : s.entry? = none) :
    ∃ f, remove p w = .error f w := by
  cases s with
  | directory _ | vacant _ =>
    exact ⟨_, change_of_finds_refused hf fun b hb => by rw [FileTree.remove, hb]; rfl⟩
  | file _ _ _ _ | link _ _ => contradiction

/-- **What becomes of removing something.** There is a file or a link, and it is taken away; or
there is none, and nothing happens. -/
theorem remove_cases (w : World) (p : FilePath) :
    (∃ place, w.HasEntryAt p place ∧
      remove p w = .ok () { w with tree := w.tree.prune place }) ∨
    (∀ place, ¬ w.HasEntryAt p place) ∧ ∃ f, remove p w = .error f w := by
  by_cases h : ∃ s, w.Finds .itself p s
  case neg =>
    refine .inr ⟨fun place ⟨s, hf, _⟩ => h ⟨s, hf⟩, ?_⟩
    refine exists_change_eq_error (fun s hf => h ⟨s, hf⟩) fun b fault hb => ?_
    rw [FileTree.remove, hb]
    rfl
  obtain ⟨s, hf⟩ := h
  cases hs : s.entry? with
  | some place => exact .inl ⟨place, ⟨s, hf, hs⟩, remove_of_finds hf hs⟩
  | none =>
    refine .inr ⟨fun place ⟨s', hf', hs'⟩ => ?_, exists_remove_eq_error hf hs⟩
    rw [hf'.unique hf, hs] at hs'
    contradiction

/-- What could be removed was a file or a link. -/
theorem remove_ok_cases {w' : World} (h : remove p w = .ok () w') :
    ∃ place, w' = { w with tree := w.tree.prune place } ∧ w.HasEntryAt p place := by
  rcases remove_cases w p with ⟨place, he, hr⟩ | ⟨-, f, hr⟩
  · injection hr.symm.trans h with _ hw
    exact ⟨place, hw.symm, he⟩
  · exact absurd (hr.symm.trans h) (by simp)

theorem openEmptied_of_file {h : Handle} {old : Nat} (hf : w.Finds .creation p
    (.file h.place h.serial old c)) :
    openEmptied p mode w = .ok h { w with tree := w.tree.refill h.place [] } :=
  change_of_finds hf fun b hb => by rw [FileTree.openEmptied, hb]

theorem openEmptied_of_vacant {place : Place} (hf : w.Finds .creation p (.vacant place)) :
    openEmptied p mode w =
      .ok (w.tree.create place mode).1 { w with tree := (w.tree.create place mode).2 } :=
  change_of_finds hf fun b hb => by rw [FileTree.openEmptied, hb]

theorem keeps_create {place : Place} (hv : w.tree.isVacant place = true) (mode : Nat) :
    w.Keeps { w with tree := (w.tree.create place mode).2 } :=
  ⟨FileTree.keeps_create hv, rfl⟩

/-- A new file is at its path, and it is empty. -/
theorem finds_create {place : Place} (hw : w.IsSound) (hf : w.Finds .denoted p (.vacant place)) :
    World.Finds { w with tree := (w.tree.create place mode).2 } .denoted p
      (.file place w.tree.nextSerial mode []) := by
  have hv : w.tree.isVacant place = true := hf.isIn hw
  have hfind := (keeps_create hv mode).finds hw hf
  rwa [Spot.seenIn, FileTree.node?_create hv, if_pos rfl] at hfind

/-- Where there is a new file, a path leads to what it led to before, or to that file. -/
theorem finds_of_create {place : Place} {aim : Aim} {s : Spot} (hv : w.tree.isVacant place = true)
    (hf : World.Finds { w with tree := (w.tree.create place mode).2 } aim p s) :
    w.Finds aim p s ∨
      s = .file place w.tree.nextSerial mode [] ∧ w.Finds aim p (.vacant place) := by
  obtain ⟨b, hb, hl⟩ := hf
  exact (locate_of_create hv hl).imp (fun h => ⟨b, hb, h⟩) (And.imp_right fun h => ⟨b, hb, h⟩)

theorem opens_create {place : Place} (hw : w.IsSound) (hf : w.Finds .denoted p (.vacant place)) :
    World.Opens { w with tree := (w.tree.create place mode).2 } p (w.tree.create place mode).1
      [] :=
  ⟨mode, finds_create hw hf⟩

/-- **What becomes of opening a file.** It is there and stays as it is; or there was none, and it is
new and empty; or there is none that could be read, and nothing happens. -/
theorem openKept_cases (hw : w.IsSound) (p : FilePath) (mode : Nat) :
    (∃ h c, openKept p mode w = .ok h w ∧ w.Opens p h c) ∨
    (∀ c, ¬ w.Holds p c) ∧
      ((∃ h w', openKept p mode w = .ok h w' ∧ w'.Opens p h [] ∧ w.Keeps w') ∨
        ∃ f, openKept p mode w = .error f w) := by
  by_cases hh : ∃ c, w.Holds p c
  · obtain ⟨c, hc⟩ := hh
    obtain ⟨h, old, hf⟩ := holds_iff.1 hc
    exact .inl ⟨h, c, openKept_of_file (hf.creation rfl), old, hf⟩
  refine .inr ⟨fun c hc => hh ⟨c, hc⟩, ?_⟩
  by_cases hv : ∃ place, w.Finds .creation p (.vacant place)
  · obtain ⟨place, hv⟩ := hv
    exact .inl ⟨_, _, openKept_of_vacant hv, opens_create hw (hv.denoted (by simp)),
      keeps_create (hv.isIn hw) mode⟩
  · refine .inr (exists_openKept_eq_error (fun place h => hv ⟨place, h⟩) ?_ mode)
    intro place serial old c hf
    exact hh ⟨c, holds_iff.2 ⟨⟨place, serial⟩, old, hf.denoted (by simp)⟩⟩

/-- A file that could be opened has in it what it held before. A new one is empty. -/
theorem opens_of_openKept_ok {h : Handle} {w' : World} (hw : w.IsSound)
    (ho : openKept p mode w = .ok h w') :
    w'.Opens p h ((w.content? p).getD []) ∧ w.Keeps w' := by
  rcases openKept_cases hw p mode with ⟨h', c, ho', hc⟩ | ⟨hno, ⟨h', u, ho', hc, hk⟩ | ⟨f, hf⟩⟩
  · obtain ⟨rfl, rfl⟩ : h' = h ∧ w = w' := by
      injection ho'.symm.trans ho with hh hw
      exact ⟨hh, hw⟩
    rw [content?_eq_some_iff.2 (holds_iff.2 ⟨h', hc⟩)]
    exact ⟨hc, .refl w⟩
  · obtain ⟨rfl, rfl⟩ : h' = h ∧ u = w' := by
      injection ho'.symm.trans ho with hh hw
      exact ⟨hh, hw⟩
    rw [content?_eq_none_iff.2 hno]
    exact ⟨hc, hk⟩
  · exact absurd (hf.symm.trans ho) (by simp)

/-! ### Appending -/

theorem keeps_refill (w : World) (place : Place) (c : Bytes) :
    w.Keeps { w with tree := w.tree.refill place c } :=
  ⟨FileTree.keeps_refill _ _ _, rfl⟩

/-- A file that is refilled through a handle is refilled at its path. -/
theorem opens_refill {h : Handle} {new : Bytes} (hw : w.IsSound) (ho : w.Opens p h c) :
    World.Opens { w with tree := w.tree.refill h.place new } p h new := by
  obtain ⟨old, hf⟩ := ho
  have hn : w.tree.node? h.place = some (.file h.serial old c) := hf.isIn hw
  have hfind := (keeps_refill w h.place new).finds hw hf
  rw [Spot.seenIn, node?_refill, if_pos rfl, hn] at hfind
  exact ⟨old, hfind⟩

/-- **What is appended through a handle is appended at the path.** -/
theorem append_of_opens {h : Handle} (hw : w.IsSound) (ho : w.Opens p h c) (data : Bytes) :
    ∃ w', append h data w = .ok () w' ∧ w'.Opens p h (c ++ data) ∧ w.Keeps w' := by
  refine ⟨_, rfl, ?_, ?_⟩
  · obtain ⟨old, hf⟩ := id ho
    dsimp only
    rw [append_of_node? (hf.isIn hw)]
    exact opens_refill hw ho
  · obtain ⟨old, hf⟩ := ho
    dsimp only
    rw [append_of_node? (hf.isIn hw)]
    exact keeps_refill _ _ _

/-- What is written through a handle is put over what was there. -/
theorem write_of_opens {h : Handle} {front rest : Bytes} (hw : w.IsSound)
    (ho : w.Opens p h (front ++ rest)) (data : Bytes) :
    ∃ w', write h front.length data w = .ok () w' ∧
      w'.Opens p h (front ++ data ++ rest.drop data.length) ∧ w.Keeps w' ∧
      w'.journal = w.journal := by
  obtain ⟨old, hf⟩ := id ho
  have hwrite : write h front.length data w = .ok ()
      { w with tree := w.tree.refill h.place (front ++ data ++ rest.drop data.length) } := by
    rw [← write_append_of_node? (hf.isIn hw)]
    rfl
  exact ⟨_, hwrite, opens_refill hw ho, keeps_refill _ _ _, rfl⟩

/-! ### Rewriting one file -/

/-- In the world `w'`, the open file holds `c`, and apart from it everything is as in `w`. -/
structure Rewritten (w w' : World) (h : Handle) (mode : Nat) (c : Bytes) : Prop where
  node : ∀ q, w'.tree.node? q =
    if q = h.place then some (.file h.serial mode c) else w.tree.node? q
  keeps : w.Keeps w'

theorem rewritten_create {place : Place} (hv : w.tree.isVacant place = true) (mode : Nat) :
    Rewritten w { w with tree := (w.tree.create place mode).2 } (w.tree.create place mode).1 mode
      [] :=
  ⟨node?_create hv, keeps_create hv mode⟩

/-- A file that is as it was is one that was rewritten with what it held. -/
theorem rewritten_self {h : Handle} (hn : w.tree.node? h.place = some (.file h.serial mode c)) :
    Rewritten w w h mode c := by
  refine ⟨fun q => ?_, .refl w⟩
  split
  · next hq => rw [hq, hn]
  · rfl

theorem rewritten_refill {h : Handle}
    (hn : w.tree.node? h.place = some (.file h.serial mode c)) (new : Bytes) :
    Rewritten w { w with tree := w.tree.refill h.place new } h mode new := by
  refine ⟨fun q => ?_, keeps_refill w _ _⟩
  rw [node?_refill, hn]
  rfl

/-- What is emptied is the file at the path, or it is a new file there. -/
theorem openEmptied_of_finds {place : Place} (hw : w.IsSound)
    (hf : w.Finds .creation p (.vacant place) ∨
      ∃ serial old c, w.Finds .creation p (.file place serial old c)) (mode : Nat) :
    ∃ h w' mode', openEmptied p mode w = .ok h w' ∧ h.place = place ∧
      Rewritten w w' h mode' [] := by
  rcases hf with hf | ⟨serial, old, c, hf⟩
  · exact ⟨_, _, mode, openEmptied_of_vacant hf, rfl, rewritten_create (hf.isIn hw) mode⟩
  · let h : Handle := ⟨place, serial⟩
    have hn : w.tree.node? h.place = some (.file h.serial old c) := hf.isIn hw
    exact ⟨h, _, old, openEmptied_of_file hf, rfl, rewritten_refill hn []⟩

/-- **What becomes of emptying a file.** It is there and is empty, or it is new, and nothing else
has changed; or there is none that could be emptied, and nothing happens. -/
theorem openEmptied_cases (hw : w.IsSound) (p : FilePath) (mode : Nat) :
    (∃ h w' mode', openEmptied p mode w = .ok h w' ∧ w'.Opens p h [] ∧
      Rewritten w w' h mode' []) ∨
      ∃ f, openEmptied p mode w = .error f w := by
  by_cases hf : ∃ s, w.Finds .creation p s
  · obtain ⟨s, hf⟩ := hf
    cases s with
    | file place serial old c =>
      let h : Handle := ⟨place, serial⟩
      have hn : w.tree.node? h.place = some (.file h.serial old c) := hf.isIn hw
      have ho : w.Opens p h c := ⟨old, hf.denoted (by simp)⟩
      exact .inl ⟨h, _, old, openEmptied_of_file hf, opens_refill hw ho, rewritten_refill hn []⟩
    | vacant place =>
      exact .inl ⟨_, _, mode, openEmptied_of_vacant hf, opens_create hw (hf.denoted (by simp)),
        rewritten_create (hf.isIn hw) mode⟩
    | directory n =>
      exact .inr ⟨_, change_of_finds_refused hf fun b hb => by rw [FileTree.openEmptied, hb]⟩
    | link place target =>
      exact .inr ⟨_, change_of_finds_refused hf fun b hb => by rw [FileTree.openEmptied, hb]⟩
  · exact .inr (exists_change_eq_error (fun s hs => hf ⟨s, hs⟩) fun b fault hb => by
      rw [FileTree.openEmptied, hb])

/-- What is opened and kept is the file at the path, or it is a new file there. -/
theorem openKept_of_finds {place : Place} (hw : w.IsSound)
    (hf : w.Finds .creation p (.vacant place) ∧ c = [] ∨
      ∃ serial old, w.Finds .creation p (.file place serial old c)) (mode : Nat) :
    ∃ h w' mode', openKept p mode w = .ok h w' ∧ h.place = place ∧
      Rewritten w w' h mode' c := by
  rcases hf with ⟨hf, rfl⟩ | ⟨serial, old, hf⟩
  · exact ⟨_, _, mode, openKept_of_vacant hf, rfl, rewritten_create (hf.isIn hw) mode⟩
  · let h : Handle := ⟨place, serial⟩
    have hn : w.tree.node? h.place = some (.file h.serial old c) := hf.isIn hw
    exact ⟨h, w, old, openKept_of_file hf, rfl, rewritten_self hn⟩

/-- A path that leads to the open file finds its new content. -/
theorem Rewritten.opens {w' : World} {h : Handle} {serial old : Nat} {before : Bytes}
    (hr : Rewritten w w' h mode c) (hw : w.IsSound)
    (hf : w.Finds .denoted p (.file h.place serial old before)) : w'.Opens p h c := by
  have hfind := hr.keeps.finds hw hf
  rw [Spot.seenIn, hr.node, if_pos rfl] at hfind
  exact ⟨mode, hfind⟩

/-- A path that leads to another file than the open one finds what was in it. -/
theorem Rewritten.opens_of_ne {w' : World} {h k : Handle} {b : Bytes}
    (hr : Rewritten w w' h mode c) (hw : w.IsSound) (ho : w.Opens p k b)
    (hne : k.place ≠ h.place) : w'.Opens p k b := by
  obtain ⟨old, hf⟩ := ho
  have hn : w.tree.node? k.place = some (.file k.serial old b) := hf.isIn hw
  have hfind := hr.keeps.finds hw hf
  rw [Spot.seenIn, hr.node, if_neg hne, hn] at hfind
  exact ⟨old, hfind⟩

/-- Whatever the open file held before, it can be refilled. -/
theorem Rewritten.refill {w' : World} {h : Handle} (hr : Rewritten w w' h mode c) (new : Bytes) :
    Rewritten w { w' with tree := w'.tree.refill h.place new } h mode new := by
  have hn : w'.tree.node? h.place = some (.file h.serial mode c) := by
    rw [hr.node, if_pos rfl]
  have hstep := rewritten_refill hn new
  refine ⟨fun q => ?_, hr.keeps.trans hstep.keeps⟩
  rw [hstep.node]
  split
  · rfl
  · next hq => rw [hr.node, if_neg hq]

/-- What is appended through the handle goes on with the open file. -/
theorem Rewritten.append {w' : World} {h : Handle} (hr : Rewritten w w' h mode c) (data : Bytes) :
    ∃ w'', append h data w' = .ok () w'' ∧ Rewritten w w'' h mode (c ++ data) := by
  have hn : w'.tree.node? h.place = some (.file h.serial mode c) := by
    rw [hr.node, if_pos rfl]
  refine ⟨_, rfl, ?_⟩
  dsimp only
  rw [append_of_node? hn]
  exact hr.refill _

/-- Writing at the end of the open file goes on with it. -/
theorem Rewritten.write {w' : World} {h : Handle} (hr : Rewritten w w' h mode c) (data : Bytes) :
    ∃ w'', write h c.length data w' = .ok () w'' ∧ Rewritten w w'' h mode (c ++ data) := by
  have hn : w'.tree.node? h.place = some (.file h.serial mode c) := by
    rw [hr.node, if_pos rfl]
  refine ⟨_, rfl, ?_⟩
  dsimp only
  rw [write_of_node? hn]
  exact hr.refill _

end Files

/-! ### Directories -/

section Directories

variable {w : World} {p : FilePath} {mode : Nat} {r : Refusal}

theorem isDirectory_eq {b : Bytes} (hb : p.bytes = .ok b) :
    isDirectory p w =
      match w.tree.locate w.here .denoted b with
      | .ok spot => .ok spot.isDirectory w
      | .error fault =>
        if fault.leadsNowhere then .ok false w else .error (.refused ⟨fault, some p⟩) w := by
  rw [isDirectory, hb]
  show (match w.tree.locate w.here .denoted b with
    | .ok spot => pure spot.isDirectory
    | .error fault =>
      if fault.leadsNowhere then pure false else throw (.refused ⟨fault, some p⟩) :
    StoreM Bool) w = _
  cases w.tree.locate w.here .denoted b with
  | ok spot => rfl
  | error fault => cases fault <;> rfl

/-- Where there is a directory, a refusal to make one does not matter. -/
theorem unlessDirectory_of_hasDirectoryAt (h : w.HasDirectoryAt p) :
    unlessDirectory p r w = .ok () w := by
  obtain ⟨d, b, hb, hl⟩ := h
  have hd : isDirectory p w = .ok true w := by
    rw [isDirectory_eq hb, hl]
    rfl
  exact StoreM.bind_of_ok hd _

theorem exists_unlessDirectory_eq_error (h : ¬ w.HasDirectoryAt p) :
    ∃ f, unlessDirectory p r w = .error f w := by
  have hd : isDirectory p w = .ok false w ∨ ∃ f, isDirectory p w = .error f w := by
    cases hb : p.bytes with
    | error e => exact .inr ⟨e, by rw [isDirectory, hb]; rfl⟩
    | ok b =>
      rw [isDirectory_eq hb]
      cases hl : w.tree.locate w.here .denoted b with
      | error fault => cases fault <;> simp [Fault.leadsNowhere]
      | ok s =>
        cases s with
        | directory d => exact absurd ⟨d, b, hb, hl⟩ h
        | _ => exact .inl rfl
  rcases hd with hd | ⟨f, hd⟩
  · exact ⟨_, StoreM.bind_of_ok hd _⟩
  · exact ⟨f, StoreM.bind_of_error hd _⟩

/-- What becomes of making one directory. -/
theorem makeDirectory_cases (w : World) (p : FilePath) (mode : Nat) :
    (∃ place, w.Finds .itself p (.vacant place) ∧
      makeDirectory p mode w = .ok () { w with tree := w.tree.graftDirectory place mode }) ∨
    (∃ fault, makeDirectory p mode w = .error (.refused ⟨fault, some p⟩) w ∧
      (fault = .notFound → w.Misses p)) ∨
    ∃ f, makeDirectory p mode w = .error f w ∧ ∀ r, f ≠ .refused r := by
  cases hb : p.bytes with
  | error e =>
    exact .inr (.inr ⟨e, change_of_bytes hb, FilePath.ne_refused_of_bytes hb⟩)
  | ok b =>
    cases hl : w.tree.locate w.here .itself b with
    | error fault =>
      refine .inr (.inl ⟨fault, ?_, fun hn => ⟨b, hb, hn ▸ hl⟩⟩)
      rw [makeDirectory, change_eq hb, FileTree.makeDirectory, hl]
      rfl
    | ok s =>
      have hf : w.Finds .itself p s := ⟨b, hb, hl⟩
      cases s with
      | vacant place =>
        refine .inl ⟨place, hf, ?_⟩
        rw [makeDirectory, change_eq hb, FileTree.makeDirectory, hl]
        rfl
      | _ =>
        refine .inr (.inl ⟨.exists, ?_, by simp⟩)
        rw [makeDirectory, change_eq hb, FileTree.makeDirectory, hl]
        rfl

end Directories

end Disk

end ClientStore
