import ClientStore.Proofs.FileTree.Changes

/-!
# Where walks lead

A walk is computed by recursion on its names with a bound on the links that it follows. What it
leads to is given here once more as an inductive relation, with one rule for each thing that can
happen to a name, so that everything about walks that arrive is an induction over their rules.

## Main definitions

* `Leads` — the rules.
* `Spot.IsIn` — what the end of a walk says is so in the tree.
* `Spot.entry?` — the place of a file or link at the end of a walk.
* `Spot.seenIn` — the end of a walk as another tree has it.

## Main results

* `walk_eq_ok_iff` — the rules describe the walks that arrive.
* `Leads.isIn` — a walk does not lie.
* `Keeps.leads` — a walk ends at the same place in every tree that keeps directories and links.
* `Leads.of_create` — a walk in a tree with a new file ends where it did before, or at that file.
* `Leads.of_prune` — a walk in a pruned tree ends where it did before, or where there is nothing.
* `Leads.walk_append`, `Leads.of_append` — a walk through a directory is a walk to it and a walk
  from it.
-/

namespace ClientStore.FileTree

/-- The names of nodes, as against the empty one and the two that a walk understands by itself. -/
structure IsPlain (name : Bytes) : Prop where
  not_idle : ¬ (name = [] ∨ name = [0x2E])
  not_back : name ≠ [0x2E, 0x2E]

theorem name_cases (name : Bytes) :
    (name = [] ∨ name = [0x2E]) ∨ name = [0x2E, 0x2E] ∨ IsPlain name := by
  by_cases hi : name = [] ∨ name = [0x2E]
  · exact .inl hi
  by_cases hb : name = [0x2E, 0x2E]
  · exact .inr (.inl hb)
  · exact .inr (.inr ⟨hi, hb⟩)

/-- The walk from `dir` along some names arrives, with the given number of links at its disposal. -/
inductive Leads (t : FileTree) (aim : Aim) : (links dir : Nat) → List Bytes → Spot → Prop
  | arrive {k dir : Nat} : Leads t aim k dir [] (.directory dir)
  | idle {k dir : Nat} {name : Bytes} {rest : List Bytes} {s : Spot}
      (hn : name = [] ∨ name = [0x2E]) (h : Leads t aim k dir rest s) :
      Leads t aim k dir (name :: rest) s
  | back {k dir : Nat} {rest : List Bytes} {s : Spot} (h : Leads t aim k (t.above dir) rest s) :
      Leads t aim k dir ([0x2E, 0x2E] :: rest) s
  | enter {k dir number : Nat} {name : Bytes} {rest : List Bytes} {s : Spot} (hp : IsPlain name)
      (hc : ¬ (aim = .creation ∧ rest = [[]])) (hl : name.length ≤ maxNameLength)
      (hn : t.node? ⟨dir, name⟩ = some (.directory number)) (h : Leads t aim k number rest s) :
      Leads t aim k dir (name :: rest) s
  | follow {k dir : Nat} {name target : Bytes} {rest : List Bytes} {s : Spot} (hp : IsPlain name)
      (hc : ¬ (aim = .creation ∧ rest = [[]])) (hl : name.length ≤ maxNameLength)
      (hn : t.node? ⟨dir, name⟩ = some (.link target)) (ha : ¬ (rest = [] ∧ aim = .itself))
      (ht : target.isEmpty = false)
      (h : Leads t aim k (origin dir target) (namesAlong target ++ rest) s) :
      Leads t aim (k + 1) dir (name :: rest) s
  | vacant {k dir : Nat} {name : Bytes} (hp : IsPlain name) (hl : name.length ≤ maxNameLength)
      (hn : t.node? ⟨dir, name⟩ = none) : Leads t aim k dir [name] (.vacant ⟨dir, name⟩)
  | file {k dir serial mode : Nat} {name content : Bytes} (hp : IsPlain name)
      (hl : name.length ≤ maxNameLength)
      (hn : t.node? ⟨dir, name⟩ = some (.file serial mode content)) :
      Leads t aim k dir [name] (.file ⟨dir, name⟩ serial mode content)
  | link {k dir : Nat} {name target : Bytes} (hp : IsPlain name)
      (hl : name.length ≤ maxNameLength) (hn : t.node? ⟨dir, name⟩ = some (.link target))
      (ha : aim = .itself) : Leads t aim k dir [name] (.link ⟨dir, name⟩ target)

/-! ### The walk, one name at a time -/

/-- What becomes of a link that is met when `links` more may be followed. -/
def followed (t : FileTree) (aim : Aim) : (links : Nat) → Nat → List Bytes → Except Fault Spot
  | 0, _, _ => .error .tooManyLinks
  | links + 1, dir, names => walk t aim links dir names

theorem walk_eq (t : FileTree) (aim : Aim) (k dir : Nat) (names : List Bytes) :
    walk t aim k dir names = walkWith t (followed t aim k) aim dir names := by
  cases k <;> rfl

variable {t t' : FileTree} {aim : Aim} {k dir : Nat} {name : Bytes} {names rest : List Bytes}
  {s : Spot}

theorem walk_nil : walk t aim k dir [] = .ok (.directory dir) := walk_eq ..

theorem walk_idle (h : name = [] ∨ name = [0x2E]) :
    walk t aim k dir (name :: rest) = walk t aim k dir rest := by
  rw [walk_eq, walk_eq]
  exact if_pos h

theorem walk_back :
    walk t aim k dir ([0x2E, 0x2E] :: rest) = walk t aim k (t.above dir) rest := by
  rw [walk_eq, walk_eq]
  exact (if_neg (by decide)).trans (if_pos rfl)

theorem walk_plain (h : IsPlain name) :
    walk t aim k dir (name :: rest) =
      if aim = .creation ∧ rest = [[]] then .error .isDirectory
      else if maxNameLength < name.length then .error .nameTooLong
      else
        match t.node? ⟨dir, name⟩ with
        | none => if rest.isEmpty then .ok (.vacant ⟨dir, name⟩) else .error .notFound
        | some (.directory number) => walk t aim k number rest
        | some (.file serial mode content) =>
          if rest.isEmpty then .ok (.file ⟨dir, name⟩ serial mode content)
          else .error .notDirectory
        | some (.link target) =>
          if rest = [] ∧ aim = .itself then .ok (.link ⟨dir, name⟩ target)
          else if target.isEmpty then .error .notFound
          else followed t aim k (origin dir target) (namesAlong target ++ rest) := by
  rw [walk_eq]
  refine ((if_neg h.not_idle).trans (if_neg h.not_back)).trans ?_
  cases t.node? ⟨dir, name⟩ with
  | none => rfl
  | some node =>
    cases node with
    | directory number => simp only [walk_eq]
    | file serial mode content => rfl
    | link target => rfl

/-- **Induction along a walk.** A step leaves fewer names, and a link that is followed leaves fewer
links. -/
theorem walk_induction {P : Nat → Nat → List Bytes → Prop} (nil : ∀ k dir, P k dir [])
    (cons : ∀ k dir name rest, (∀ dir', P k dir' rest) →
      (∀ j < k, ∀ dir' names, P j dir' names) → P k dir (name :: rest)) :
    ∀ k dir names, P k dir names := by
  intro k
  induction k using Nat.strongRecOn with
  | ind k ih =>
    intro dir names
    induction names generalizing dir with
    | nil => exact nil k dir
    | cons name rest ihn => exact cons k dir name rest ihn ih

theorem leads_of_walk_eq_ok : ∀ k dir names,
    walk t aim k dir names = .ok s → Leads t aim k dir names s := by
  refine walk_induction ?_ ?_
  · intro k dir h
    rw [walk_nil] at h
    cases h
    exact .arrive
  · intro k dir name rest ihr ihk h
    rcases name_cases name with hi | rfl | hp
    · rw [walk_idle hi] at h
      exact .idle hi (ihr dir h)
    · rw [walk_back] at h
      exact .back (ihr _ h)
    rw [walk_plain hp] at h
    split at h
    · contradiction
    next hc =>
    split at h
    · contradiction
    next hl =>
    have hl := Nat.le_of_not_lt hl
    split at h
    · next hn =>
      split at h
      · next hr =>
        cases List.isEmpty_iff.1 hr
        cases h
        exact .vacant hp hl hn
      · contradiction
    · next number hn => exact .enter hp hc hl hn (ihr number h)
    · next serial mode content hn =>
      split at h
      · next hr =>
        cases List.isEmpty_iff.1 hr
        cases h
        exact .file hp hl hn
      · contradiction
    · next target hn =>
      split at h
      · next ha =>
        cases ha.1
        cases h
        exact .link hp hl hn ha.2
      next ha =>
      split at h
      · contradiction
      next ht =>
      cases k with
      | zero => contradiction
      | succ k => exact .follow hp hc hl hn ha (by simpa using ht) (ihk k (by omega) _ _ h)

theorem Leads.walk_eq_ok (h : Leads t aim k dir names s) : walk t aim k dir names = .ok s := by
  induction h with
  | arrive => exact walk_nil
  | idle hn _ ih => rw [walk_idle hn, ih]
  | back _ ih => rw [walk_back, ih]
  | enter hp hc hl hn _ ih => rw [walk_plain hp, if_neg hc, if_neg (Nat.not_lt.2 hl), hn, ← ih]
  | follow hp hc hl hn ha ht _ ih =>
    rw [walk_plain hp, if_neg hc, if_neg (Nat.not_lt.2 hl), hn, ← ih]
    simp only [ha, ht, if_false, Bool.false_eq_true, followed]
  | vacant hp hl hn => rw [walk_plain hp, if_neg (by simp), if_neg (Nat.not_lt.2 hl), hn]; rfl
  | file hp hl hn => rw [walk_plain hp, if_neg (by simp), if_neg (Nat.not_lt.2 hl), hn]; rfl
  | link hp hl hn ha =>
    rw [walk_plain hp, if_neg (by simp), if_neg (Nat.not_lt.2 hl), hn]
    simp only [ha, and_self, if_true]

/-- **The rules describe exactly the walks that arrive.** -/
theorem walk_eq_ok_iff : walk t aim k dir names = .ok s ↔ Leads t aim k dir names s :=
  ⟨leads_of_walk_eq_ok k dir names, Leads.walk_eq_ok⟩

/-! ### What is at the end -/

/-- What the end of a walk says is so in the tree. -/
def Spot.IsIn (t : FileTree) : Spot → Prop
  | .directory n => t.HasDirectory n
  | .file p serial mode content => t.node? p = some (.file serial mode content)
  | .link p target => t.node? p = some (.link target)
  | .vacant p => t.isVacant p = true

/-- The place of the file or the link at the end of a walk. -/
def Spot.entry? : Spot → Option Place
  | .file p .. | .link p _ => some p
  | .directory _ | .vacant _ => none

/-- The end of a walk as it is in the tree `t'`. -/
def Spot.seenIn (t' : FileTree) : Spot → Spot
  | .directory n => .directory n
  | .link p target => .link p target
  | .file p _ _ _ | .vacant p =>
    match t'.node? p with
    | none => .vacant p
    | some (.directory n) => .directory n
    | some (.file serial mode content) => .file p serial mode content
    | some (.link target) => .link p target

theorem not_mem_of_mem_namePieces (path : Bytes) : ∀ piece ∈ namePieces path, 0x2F ∉ piece := by
  induction path with
  | nil => simp [namePieces]
  | cons b rest ih =>
    rw [namePieces]
    split
    · simpa using ih
    next hb =>
    split
    · simpa using fun h => hb h.symm
    · next piece others he =>
      rw [he] at ih
      intro q hq
      rcases List.mem_cons.1 hq with rfl | hq
      · have hp := ih piece (by simp)
        simpa [hp] using fun h => hb h.symm
      · exact ih q (List.mem_cons_of_mem _ hq)

/-- The names along a path have no slash in them. -/
theorem not_mem_of_mem_namesAlong {path : Bytes} : ∀ name ∈ namesAlong path, 0x2F ∉ name := by
  intro name h
  rw [namesAlong] at h
  rcases List.mem_append.1 h with h | h
  · exact not_mem_of_mem_namePieces path name (List.mem_filter.1 h).1
  · split at h
    · rw [List.mem_singleton.1 h]
      simp
    · contradiction

theorem hasDirectory_origin (hd : t.HasDirectory dir) (path : Bytes) :
    t.HasDirectory (origin dir path) := by
  rw [origin]
  split
  · exact t.hasDirectory_root
  · exact hd

theorem isFileName_of_isPlain (hp : IsPlain name) (hl : name.length ≤ maxNameLength)
    (hs : 0x2F ∉ name) : isFileName name = true := by
  have hi := hp.not_idle
  have hb := hp.not_back
  simp only [not_or] at hi
  simp [isFileName, hi, hb, hs, hl]

theorem of_isFileName (h : isFileName name = true) :
    IsPlain name ∧ 0x2F ∉ name ∧ name.length ≤ maxNameLength := by
  simp only [isFileName, Bool.and_eq_true, Bool.not_eq_true', bne_iff_ne, decide_eq_true_eq,
    List.isEmpty_eq_false_iff] at h
  obtain ⟨⟨⟨⟨hempty, hdot⟩, hback⟩, hslash⟩, hlen⟩ := h
  exact ⟨⟨not_or.2 ⟨hempty, hdot⟩, hback⟩, by simpa using hslash, hlen⟩

/-- **A walk does not lie.** -/
theorem Leads.isIn (h : Leads t aim k dir names s) (hd : t.HasDirectory dir)
    (hs : ∀ name ∈ names, 0x2F ∉ name) : s.IsIn t := by
  induction h with
  | arrive => exact hd
  | idle _ _ ih => exact ih hd fun name hn => hs name (List.mem_cons_of_mem _ hn)
  | back _ ih =>
    exact ih (hasDirectory_above hd) fun name hn => hs name (List.mem_cons_of_mem _ hn)
  | enter _ _ _ hn _ ih =>
    exact ih (hasDirectory_of_node?_eq_directory hn) fun name hn =>
      hs name (List.mem_cons_of_mem _ hn)
  | follow _ _ _ _ _ _ _ ih =>
    refine ih (hasDirectory_origin hd _) ?_
    intro name hn
    rcases List.mem_append.1 hn with hn | hn
    · exact not_mem_of_mem_namesAlong name hn
    · exact hs name (List.mem_cons_of_mem _ hn)
  | vacant hp hl hn =>
    exact (t.isVacant_iff _).2 ⟨hd, isFileName_of_isPlain hp hl (hs _ (by simp)), hn⟩
  | file _ _ hn => exact hn
  | link _ _ hn _ => exact hn

/-- **A walk ends at the same place in every tree that keeps directories and links.** What is at
that place can have changed if it was a file or nothing. -/
theorem Keeps.leads (hk : t.Keeps t') (h : Leads t aim k dir names s) (hd : t.HasDirectory dir) :
    Leads t' aim k dir names (s.seenIn t') := by
  -- at a last name with nothing or a file, the new tree may have nothing, a file or a directory
  have last {k dir : Nat} {name : Bytes} (hp : IsPlain name) (hl : name.length ≤ maxNameLength)
      (hn : ∀ target, t.node? ⟨dir, name⟩ ≠ some (.link target)) :
      Leads t' aim k dir [name] (Spot.seenIn t' (.vacant ⟨dir, name⟩)) := by
    rw [Spot.seenIn]
    split
    · next h' => exact .vacant hp hl h'
    · next n h' => exact .enter hp (by simp) hl h' .arrive
    · next h' => exact .file hp hl h'
    · next target h' => exact absurd (hk.link _ target h') (hn target)
  induction h with
  | arrive => exact .arrive
  | idle hn _ ih => exact .idle hn (ih hd)
  | back _ ih =>
    refine .back ?_
    rw [hk.above hd]
    exact ih (hasDirectory_above hd)
  | enter hp hc hl hn _ ih =>
    exact .enter hp hc hl (hk.node _ _ hn rfl) (ih (hasDirectory_of_node?_eq_directory hn))
  | follow hp hc hl hn ha ht _ ih =>
    exact .follow hp hc hl (hk.node _ _ hn rfl) ha ht (ih (hasDirectory_origin hd _))
  | vacant hp hl hn => exact last hp hl (by simp [hn])
  | file hp hl hn => exact last hp hl (by simp [hn])
  | link hp hl hn ha => exact .link hp hl (hk.node _ _ hn rfl) ha

/-- **A walk in a tree with a new file** ends where it did before, unless it now finds that file. -/
theorem Leads.of_create {p : Place} {mode : Nat} (hv : t.isVacant p = true)
    (h : Leads (t.create p mode).2 aim k dir names s) :
    Leads t aim k dir names s ∨
      s = .file p t.nextSerial mode [] ∧ Leads t aim k dir names (.vacant p) := by
  have hold {q : Place} {node : Node} (hn : (t.create p mode).2.node? q = some node) :
      t.node? q = some node ∨ q = p ∧ node = .file t.nextSerial mode [] := by
    rw [node?_create hv] at hn
    split at hn
    · next hq => exact .inr ⟨hq, (Option.some.inj hn).symm⟩
    · exact .inl hn
  have habove (n : Nat) : (t.create p mode).2.above n = t.above n := by
    rw [above, above, create]
    exact congrArg (fun q => (Option.map Place.directory q).getD n) (place?_graft n)
  induction h with
  | arrive => exact .inl .arrive
  | idle hn _ ih => exact ih.imp (.idle hn) (And.imp_right (.idle hn))
  | back _ ih =>
    rw [habove] at ih
    exact ih.imp .back (And.imp_right .back)
  | enter hp hc hl hn _ ih =>
    rcases hold hn with hn | ⟨-, hn⟩
    · exact ih.imp (.enter hp hc hl hn) (And.imp_right (.enter hp hc hl hn))
    · contradiction
  | follow hp hc hl hn ha ht _ ih =>
    rcases hold hn with hn | ⟨-, hn⟩
    · exact ih.imp (.follow hp hc hl hn ha ht) (And.imp_right (.follow hp hc hl hn ha ht))
    · contradiction
  | @vacant k dir name hp hl hn =>
    rw [node?_create hv] at hn
    split at hn
    · contradiction
    · exact .inl (.vacant hp hl hn)
  | file hp hl hn =>
    rcases hold hn with hn | ⟨rfl, hnew⟩
    · exact .inl (.file hp hl hn)
    · injection hnew with hs hm hc
      subst hs hm hc
      exact .inr ⟨rfl, .vacant hp hl ((t.isVacant_iff _).1 hv).2.2⟩
  | link hp hl hn ha =>
    rcases hold hn with hn | ⟨-, hn⟩
    · exact .inl (.link hp hl hn ha)
    · contradiction

/-- A walk in a pruned tree ends where it did before, or where there is nothing. -/
theorem Leads.of_prune {p : Place} (h : Leads (t.prune p) aim k dir names s) :
    Leads t aim k dir names s ∨ ∃ q, s = .vacant q := by
  have habove (n : Nat) : (t.prune p).above n = t.above n := by
    rw [above, above, place?_prune]
  induction h with
  | arrive => exact .inl .arrive
  | idle hn _ ih => exact ih.imp_left (.idle hn)
  | back _ ih =>
    rw [habove] at ih
    exact ih.imp_left .back
  | enter hp hc hl hn _ ih => exact ih.imp_left (.enter hp hc hl (node?_of_prune hn))
  | follow hp hc hl hn ha ht _ ih =>
    exact ih.imp_left (.follow hp hc hl (node?_of_prune hn) ha ht)
  | vacant => exact .inr ⟨_, rfl⟩
  | file hp hl hn => exact .inl (.file hp hl (node?_of_prune hn))
  | link hp hl hn ha => exact .inl (.link hp hl (node?_of_prune hn) ha)

/-! ### Where paths lead -/

theorem locate_eq_ok_iff {here : Nat} {path : Bytes} :
    t.locate here aim path = .ok s ↔
      (path.isEmpty = false ∧ path.length < pathLengthBound) ∧
        Leads t aim maxLinks (origin here path) (namesAlong path) s := by
  rw [← walk_eq_ok_iff, locate]
  by_cases he : path.isEmpty = true
  · simp [he]
  by_cases hl : pathLengthBound ≤ path.length
  · simp [he, hl, Nat.not_lt.2 hl]
  · simp [he, hl, Nat.lt_of_not_le hl]

theorem isIn_of_locate {here : Nat} {path : Bytes} (hd : t.HasDirectory here)
    (h : t.locate here aim path = .ok s) : s.IsIn t :=
  (locate_eq_ok_iff.1 h).2.isIn (hasDirectory_origin hd path) not_mem_of_mem_namesAlong

/-- A path leads to the same place in every tree that keeps directories and links. -/
theorem Keeps.locate {here : Nat} {path : Bytes} (hk : t.Keeps t') (hd : t.HasDirectory here)
    (h : t.locate here aim path = .ok s) : t'.locate here aim path = .ok (s.seenIn t') := by
  rw [locate_eq_ok_iff] at h ⊢
  exact ⟨h.1, hk.leads h.2 (hasDirectory_origin hd path)⟩

/-- A path leads to what it led to before there was a new file, or it leads to that file. -/
theorem locate_of_create {here : Nat} {path : Bytes} {p : Place} {mode : Nat}
    (hv : t.isVacant p = true) (h : (t.create p mode).2.locate here aim path = .ok s) :
    t.locate here aim path = .ok s ∨
      s = .file p t.nextSerial mode [] ∧ t.locate here aim path = .ok (.vacant p) := by
  rw [locate_eq_ok_iff] at h
  simp only [locate_eq_ok_iff]
  exact (h.2.of_create hv).imp (And.intro h.1) (And.imp_right (And.intro h.1))

/-- A path leads to what it led to before something was pruned, or nowhere. -/
theorem locate_of_prune {here : Nat} {path : Bytes} {p : Place}
    (h : (t.prune p).locate here aim path = .ok s) :
    t.locate here aim path = .ok s ∨ ∃ q, s = .vacant q := by
  rw [locate_eq_ok_iff] at h ⊢
  exact h.2.of_prune.imp_left (And.intro h.1)

/-- The directory at a path is the one that the path leads to. -/
theorem openDirectory_eq_ok_iff {here d : Nat} {path : Bytes} :
    t.openDirectory here path = .ok d ↔ t.locate here .denoted path = .ok (.directory d) := by
  rw [openDirectory]
  cases t.locate here .denoted path with
  | error fault => simp
  | ok s => cases s <;> simp

/-! ### What a walk is for -/

/-- The walks for something else find nothing that the plain one does not, except links. -/
theorem Leads.denoted (h : Leads t aim k dir names s)
    (hs : aim ≠ .itself ∨ ∀ p target, s ≠ .link p target) : Leads t .denoted k dir names s := by
  induction h with
  | arrive => exact .arrive
  | idle hn _ ih => exact .idle hn (ih hs)
  | back _ ih => exact .back (ih hs)
  | enter hp _ hl hn _ ih => exact .enter hp (by simp) hl hn (ih hs)
  | follow hp _ hl hn _ ht _ ih => exact .follow hp (by simp) hl hn (by simp) ht (ih hs)
  | vacant hp hl hn => exact .vacant hp hl hn
  | file hp hl hn => exact .file hp hl hn
  | link _ _ _ ha => exact (hs.elim (absurd ha) fun h => absurd rfl (h _ _))

/-- What a link denotes can be found by the walk for the node itself, if not the link is. -/
theorem Leads.itself (h : Leads t .denoted k dir names s) :
    Leads t .itself k dir names s ∨ ∃ p target, Leads t .itself k dir names (.link p target) := by
  induction h with
  | arrive => exact .inl .arrive
  | idle hn _ ih => exact ih.imp (.idle hn) fun ⟨p, target, h⟩ => ⟨p, target, .idle hn h⟩
  | back _ ih => exact ih.imp .back fun ⟨p, target, h⟩ => ⟨p, target, .back h⟩
  | enter hp _ hl hn _ ih =>
    exact ih.imp (.enter hp (by simp) hl hn) fun ⟨p, target, h⟩ =>
      ⟨p, target, .enter hp (by simp) hl hn h⟩
  | @follow k dir name target rest s hp _ hl hn _ ht _ ih =>
    by_cases hr : rest = []
    · subst hr
      exact .inr ⟨_, target, .link hp hl hn rfl⟩
    · exact ih.imp (.follow hp (by simp) hl hn (by simp [hr]) ht) fun ⟨p, other, h⟩ =>
        ⟨p, other, .follow hp (by simp) hl hn (by simp [hr]) ht h⟩
  | vacant hp hl hn => exact .inl (.vacant hp hl hn)
  | file hp hl hn => exact .inl (.file hp hl hn)
  | link _ _ _ ha => contradiction

/-- What one name by itself can be, if a link is not followed. -/
theorem Leads.singleton_cases (h : Leads t .itself k dir [name] s) :
    (∃ n, s = .directory n) ∨ (IsPlain name ∧ name.length ≤ maxNameLength) ∧
      (s = .vacant ⟨dir, name⟩ ∨
        (∃ serial mode c, s = .file ⟨dir, name⟩ serial mode c ∧
          t.node? ⟨dir, name⟩ = some (.file serial mode c)) ∨
        ∃ target, s = .link ⟨dir, name⟩ target ∧ t.node? ⟨dir, name⟩ = some (.link target)) := by
  cases h with
  | idle _ h =>
    cases h
    exact .inl ⟨_, rfl⟩
  | back h =>
    cases h
    exact .inl ⟨_, rfl⟩
  | enter _ _ _ _ h =>
    cases h
    exact .inl ⟨_, rfl⟩
  | follow _ _ _ _ ha => exact absurd ⟨rfl, rfl⟩ ha
  | vacant hp hl => exact .inr ⟨⟨hp, hl⟩, .inl rfl⟩
  | file hp hl hn => exact .inr ⟨⟨hp, hl⟩, .inr (.inl ⟨_, _, _, rfl, hn⟩)⟩
  | link hp hl hn => exact .inr ⟨⟨hp, hl⟩, .inr (.inr ⟨_, rfl, hn⟩)⟩

/-! ### Walks through a directory -/

theorem not_slash_append (hn : name ≠ []) (rest tail : List Bytes) :
    ¬ (aim = .creation ∧ rest ++ name :: tail = [[]]) := by
  rintro ⟨-, he⟩
  cases rest with
  | nil => exact hn (List.cons.inj he).1
  | cons a rest => simp at he

/-- **A walk through a directory goes on as a walk from it**, with the links that are left. -/
theorem Leads.walk_append {d : Nat} (h : Leads t .denoted k dir names (.directory d)) :
    ∃ j, ∀ (aim : Aim) {name : Bytes} (tail : List Bytes), name ≠ [] →
      walk t aim k dir (names ++ name :: tail) = walk t aim j d (name :: tail) := by
  generalize hs : Spot.directory d = s at h
  induction h with
  | @arrive k dir =>
    cases hs
    exact ⟨k, fun _ _ _ _ => rfl⟩
  | idle hi _ ih =>
    obtain ⟨j, hj⟩ := ih hs
    refine ⟨j, fun aim name tail hn => ?_⟩
    rw [List.cons_append, walk_idle hi, hj aim tail hn]
  | back _ ih =>
    obtain ⟨j, hj⟩ := ih hs
    refine ⟨j, fun aim name tail hn => ?_⟩
    rw [List.cons_append, walk_back, hj aim tail hn]
  | enter hp _ hl hd _ ih =>
    obtain ⟨j, hj⟩ := ih hs
    refine ⟨j, fun aim name tail hn => ?_⟩
    rw [List.cons_append, walk_plain hp, if_neg (not_slash_append hn _ _),
      if_neg (Nat.not_lt.2 hl), hd]
    exact hj aim tail hn
  | follow hp _ hl hd _ ht _ ih =>
    obtain ⟨j, hj⟩ := ih hs
    refine ⟨j, fun aim name tail hn => ?_⟩
    rw [List.cons_append, walk_plain hp, if_neg (not_slash_append hn _ _),
      if_neg (Nat.not_lt.2 hl), hd]
    simp only [ht, Bool.false_eq_true, if_false]
    rw [if_neg (by simp), ← hj aim tail hn, List.append_assoc]
    rfl
  | vacant => contradiction
  | file => contradiction
  | link => contradiction

/-- A walk that goes on has reached a directory. -/
theorem Leads.of_append {tail : List Bytes} (h : Leads t aim k dir (names ++ name :: tail) s) :
    ∃ d j, Leads t .denoted k dir names (.directory d) ∧ Leads t aim j d (name :: tail) s := by
  generalize hl : names ++ name :: tail = l at h
  induction h generalizing names with
  | arrive => simp at hl
  | @idle k dir a rest s ha h ih =>
    cases names with
    | nil =>
      obtain ⟨rfl, rfl⟩ := List.cons.inj hl
      exact ⟨dir, k, .arrive, .idle ha h⟩
    | cons b names =>
      obtain ⟨rfl, rfl⟩ := List.cons.inj hl
      obtain ⟨d, j, hd, ht⟩ := ih rfl
      exact ⟨d, j, .idle ha hd, ht⟩
  | @back k dir rest s h ih =>
    cases names with
    | nil =>
      obtain ⟨rfl, rfl⟩ := List.cons.inj hl
      exact ⟨dir, k, .arrive, .back h⟩
    | cons b names =>
      obtain ⟨rfl, rfl⟩ := List.cons.inj hl
      obtain ⟨d, j, hd, ht⟩ := ih rfl
      exact ⟨d, j, .back hd, ht⟩
  | @enter k dir number a rest s hp hc hlen hn h ih =>
    cases names with
    | nil =>
      obtain ⟨rfl, rfl⟩ := List.cons.inj hl
      exact ⟨dir, k, .arrive, .enter hp hc hlen hn h⟩
    | cons b names =>
      obtain ⟨rfl, rfl⟩ := List.cons.inj hl
      obtain ⟨d, j, hd, ht⟩ := ih rfl
      exact ⟨d, j, .enter hp (by simp) hlen hn hd, ht⟩
  | @follow k dir a target rest s hp hc hlen hn ha ht h ih =>
    cases names with
    | nil =>
      obtain ⟨rfl, rfl⟩ := List.cons.inj hl
      exact ⟨dir, k + 1, .arrive, .follow hp hc hlen hn ha ht h⟩
    | cons b names =>
      obtain ⟨rfl, rfl⟩ := List.cons.inj hl
      obtain ⟨d, j, hd, htail⟩ := ih (List.append_assoc ..)
      exact ⟨d, j, .follow hp (by simp) hlen hn (by simp) ht hd, htail⟩
  | @vacant k dir a hp hlen hn =>
    cases names with
    | nil =>
      obtain ⟨rfl, rfl⟩ := List.cons.inj hl
      exact ⟨dir, k, .arrive, .vacant hp hlen hn⟩
    | cons b names => simp at hl
  | @file k dir serial mode a content hp hlen hn =>
    cases names with
    | nil =>
      obtain ⟨rfl, rfl⟩ := List.cons.inj hl
      exact ⟨dir, k, .arrive, .file hp hlen hn⟩
    | cons b names => simp at hl
  | @link k dir a target hp hlen hn ha =>
    cases names with
    | nil =>
      obtain ⟨rfl, rfl⟩ := List.cons.inj hl
      exact ⟨dir, k, .arrive, .link hp hlen hn ha⟩
    | cons b names => simp at hl

/-- What stops a walk stops it also on the way to something further on. -/
theorem walk_append_of_error {fault : Fault} {tail : List Bytes} (hn : name ≠ []) :
    ∀ k dir names, walk t .itself k dir names = .error fault →
      walk t aim k dir (names ++ name :: tail) = .error fault := by
  refine walk_induction ?_ ?_
  · intro k dir h
    rw [walk_nil] at h
    contradiction
  · intro k dir a rest ihr ihk h
    rcases name_cases a with hi | rfl | hp
    · rw [walk_idle hi] at h
      rw [List.cons_append, walk_idle hi]
      exact ihr dir h
    · rw [walk_back] at h
      rw [List.cons_append, walk_back]
      exact ihr _ h
    rw [walk_plain hp, if_neg (by simp)] at h
    rw [List.cons_append, walk_plain hp, if_neg (not_slash_append hn rest tail)]
    by_cases hl : maxNameLength < a.length
    · rw [if_pos hl] at h ⊢
      exact h
    rw [if_neg hl] at h ⊢
    have hempty : (rest ++ name :: tail).isEmpty = false := by simp
    cases hd : t.node? ⟨dir, a⟩ with
    | none =>
      simp only [hd, hempty] at h ⊢
      split at h
      · contradiction
      · exact h
    | some node =>
      cases node with
      | directory number =>
        simp only [hd] at h ⊢
        exact ihr number h
      | file serial mode content =>
        simp only [hd, hempty] at h ⊢
        split at h
        · contradiction
        · exact h
      | link target =>
        simp only [hd] at h ⊢
        split at h
        · contradiction
        rw [if_neg (by simp)]
        split at h
        · next ht =>
          rw [if_pos ht]
          exact h
        next ht =>
        rw [if_neg ht]
        cases k with
        | zero => exact h
        | succ k =>
          have := ihk k (by omega) _ _ h
          rwa [List.append_assoc] at this

/-- Nothing is found below a place where there is nothing. -/
theorem Leads.walk_append_of_vacant {aim' : Aim} {p : Place} {tail : List Bytes}
    (h : Leads t aim' k dir names (.vacant p)) (hn : name ≠ []) :
    walk t aim k dir (names ++ name :: tail) = .error .notFound := by
  generalize hs : Spot.vacant p = s at h
  induction h with
  | arrive => contradiction
  | idle hi _ ih => rw [List.cons_append, walk_idle hi, ih hs]
  | back _ ih => rw [List.cons_append, walk_back, ih hs]
  | @enter k dir number a rest s hp _ hl hd _ ih =>
    rw [List.cons_append, walk_plain hp, if_neg (not_slash_append hn rest tail),
      if_neg (Nat.not_lt.2 hl), hd]
    exact ih hs
  | @follow k dir a target rest s hp _ hl hd _ ht _ ih =>
    rw [List.cons_append, walk_plain hp, if_neg (not_slash_append hn rest tail),
      if_neg (Nat.not_lt.2 hl), hd]
    simp only [ht, Bool.false_eq_true, if_false]
    rw [if_neg (by simp), ← ih hs, List.append_assoc]
    rfl
  | vacant hp hl hd =>
    rw [List.cons_append, walk_plain hp, if_neg (not_slash_append hn [] tail),
      if_neg (Nat.not_lt.2 hl), hd]
    rfl
  | file => contradiction
  | link => contradiction

/-- A slash at the end of a path asks for a directory. -/
theorem Leads.isDirectory_of_slash (h : Leads t aim k dir (names ++ [[]]) s) :
    s.isDirectory = true := by
  obtain ⟨d, j, -, h⟩ := h.of_append
  cases h with
  | idle _ h =>
    cases h
    rfl
  | enter hp => exact absurd (.inl rfl) hp.not_idle
  | follow hp => exact absurd (.inl rfl) hp.not_idle
  | vacant hp => exact absurd (.inl rfl) hp.not_idle
  | file hp => exact absurd (.inl rfl) hp.not_idle
  | link hp => exact absurd (.inl rfl) hp.not_idle

/-- Except for a directory, the plain walk finds nothing that the walk for making a file does
not. -/
theorem Leads.creation (h : Leads t .denoted k dir names s) (hs : s.isDirectory = false) :
    Leads t .creation k dir names s := by
  have slash {k dir : Nat} {l rest : List Bytes} {s : Spot}
      (h : Leads t .denoted k dir (l ++ rest) s) (hs : s.isDirectory = false) :
      ¬ (Aim.creation = .creation ∧ rest = [[]]) := by
    rintro ⟨-, rfl⟩
    exact absurd (hs.symm.trans h.isDirectory_of_slash) (by simp)
  induction h with
  | arrive => contradiction
  | idle hn _ ih => exact .idle hn (ih hs)
  | back _ ih => exact .back (ih hs)
  | enter hp _ hl hn h ih => exact .enter hp (slash (l := []) h hs) hl hn (ih hs)
  | follow hp _ hl hn _ ht h ih => exact .follow hp (slash h hs) hl hn (by simp) ht (ih hs)
  | vacant hp hl hn => exact .vacant hp hl hn
  | file hp hl hn => exact .file hp hl hn
  | link _ _ _ ha => contradiction

end ClientStore.FileTree
