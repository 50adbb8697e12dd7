import ClientStore.Proofs.FileTree.Changes
import ClientStore.Proofs.ProfileName
import ClientStore.Proofs.World
import ClientStore.Session.Cursor
import Mathlib.Data.List.Nodup
import Mathlib.Data.List.Perm.Basic

/-!
# Going through a listing

A listing can be used in two ways that may be mixed. One asks its cursor for the next name, or one
iterates over it; of the iterations several can be under way at once, and each that has come to its
end stays there. All of them use up the same entries, which are the regular files in the directory,
and the links whose paths lead to regular files.

The invariant is a list of the entries that are left, in any order. What a call does to that list is
said once for each kind of call, and a whole dialogue is an induction on its calls. While it lasts,
the directory stays as it is and its links lead to regular files as they did; all else in the world
may change between two calls.

## Main definitions

* `Cursor.Shows`, `Cursor.ShowsAs` — the entries that are listed, and under which names.
* `Cursor.Unchanged` — two worlds agree on what is listed.
* `Cursor.Left` — the entries that a cursor has not come to yet.
* `Enumeration`, `Enumeration.run` — a listing in use, and a dialogue with it.
* `Enumeration.IsFaithful` — a dialogue gives every entry once and nothing after its end.

## Main results

* `Cursor.exists_rest_eq` — going on to the end is asking for one name after the other.
* `Cursor.Left.next` — a name is that of an entry that is left; there is none only if none is.
* `Enumeration.exists_gives` — what one call does.
* `Enumeration.exists_isFaithful_run` — what any calls do.
-/

namespace ClientStore

open FileTree

namespace Cursor

variable {w w' : World} {path b : Bytes} {d : Nat} {c c' : Cursor} {left : List Bytes}
  {entries : List (Bytes × Node)}

/-! ### What is listed -/

/-- The path of an entry leads to a regular file. A link counts only as far as the walk along that
path follows it. -/
def LeadsToFile (w : World) (path b : Bytes) : Prop :=
  ∃ place serial mode c,
    w.tree.locate w.here .denoted (entryPath path b) = .ok (.file place serial mode c)

/-- The directory at a path has an entry with some name that is a regular file, or a link that leads
to one. -/
inductive Shows (w : World) (path b : Bytes) : Prop
  | file {d serial mode : Nat} {c : Bytes} (hd : w.tree.openDirectory w.here path = .ok d)
      (hn : w.tree.node? ⟨d, b⟩ = some (.file serial mode c))
  | link {d : Nat} {target : Bytes} (hd : w.tree.openDirectory w.here path = .ok d)
      (hn : w.tree.node? ⟨d, b⟩ = some (.link target)) (hl : LeadsToFile w path b)

/-- The name under which an entry is listed. -/
def ShowsAs (b : Bytes) (t : Text) : Prop := ProfileName.listed? (Utf8.decode b) = some t

/-- An entry is a regular file, or it is a link and its path leads to one. -/
theorem isRegular_iff {node : Node} :
    isRegular w path (b, node) = true ↔ node.isFile = true ∨
      (∃ target, node = .link target) ∧ LeadsToFile w path b := by
  rw [LeadsToFile]
  cases node with
  | file serial mode c => exact iff_of_true rfl (.inl rfl)
  | directory n => exact iff_of_false Bool.false_ne_true (by simp [Node.isFile])
  | link target =>
    rw [isRegular, denoted?]
    cases w.tree.locate w.here .denoted (entryPath path b) with
    | error fault => simp [Node.isFile, Except.toOption]
    | ok s => cases s <;> simp [Node.isFile, Except.toOption, Spot.isFile]

theorem shows_iff :
    Shows w path b ↔ ∃ d node, w.tree.openDirectory w.here path = .ok d ∧
      w.tree.node? ⟨d, b⟩ = some node ∧ isRegular w path (b, node) = true := by
  constructor
  · rintro (⟨hd, hn⟩ | ⟨hd, hn, hl⟩)
    · exact ⟨_, _, hd, hn, rfl⟩
    · exact ⟨_, _, hd, hn, isRegular_iff.2 (.inr ⟨⟨_, rfl⟩, hl⟩)⟩
  · rintro ⟨d, node, hd, hn, hr⟩
    rcases isRegular_iff.1 hr with hf | ⟨⟨target, rfl⟩, hl⟩
    · cases node with
      | file serial mode c => exact .file hd hn
      | directory n => contradiction
      | link target => contradiction
    · exact .link hd hn hl

/-- The names of the regular files among some entries. -/
def filesAmong (w : World) (path : Bytes) (entries : List (Bytes × Node)) : List Bytes :=
  (entries.filter (isRegular w path)).map Prod.fst

theorem mem_filesAmong_names (hd : w.tree.openDirectory w.here path = .ok d) :
    b ∈ filesAmong w path (w.tree.names d) ↔ Shows w path b := by
  rw [shows_iff, filesAmong, List.mem_map]
  constructor
  · rintro ⟨⟨_, node⟩, he, rfl⟩
    obtain ⟨he, hr⟩ := List.mem_filter.1 he
    exact ⟨d, node, hd, (mem_names_iff _ _ _).1 he, hr⟩
  · rintro ⟨d', node, hd', hn, hr⟩
    obtain rfl := Except.ok.inj (hd.symm.trans hd')
    exact ⟨(b, node), List.mem_filter.2 ⟨(mem_names_iff _ _ _).2 hn, hr⟩, rfl⟩

theorem nodup_filesAmong_names (w : World) (path : Bytes) (d : Nat) :
    (filesAmong w path (w.tree.names d)).Nodup :=
  (nodup_names w.tree d).sublist (List.filter_sublist.map Prod.fst)

/-! ### Worlds that agree on it -/

/-- What the directory at a path has in `w`, it has in `w'`, and its links lead to regular files as
they did. -/
structure Unchanged (path : Bytes) (w w' : World) : Prop where
  node : ∀ d, w.tree.openDirectory w.here path = .ok d →
    ∀ b, w'.tree.node? ⟨d, b⟩ = w.tree.node? ⟨d, b⟩
  leads : ∀ d, w.tree.openDirectory w.here path = .ok d →
    ∀ b target, w.tree.node? ⟨d, b⟩ = some (.link target) →
      (LeadsToFile w' path b ↔ LeadsToFile w path b)

namespace Unchanged

theorem of_eq (path : Bytes) (ht : w'.tree = w.tree) (hh : w'.here = w.here) :
    Unchanged path w w' where
  node _ _ _ := by rw [ht]
  leads _ _ _ _ _ := by rw [LeadsToFile, ht, hh, LeadsToFile]

theorem isRegular_eq (h : Unchanged path w w') (hd : w.tree.openDirectory w.here path = .ok d)
    {e : Bytes × Node} (hn : w.tree.node? ⟨d, e.1⟩ = some e.2) :
    isRegular w' path e = isRegular w path e := by
  obtain ⟨b, node⟩ := e
  cases node with
  | file serial mode c => rfl
  | directory n => rfl
  | link target =>
    rw [Bool.eq_iff_iff, isRegular_iff, isRegular_iff, h.leads d hd b target hn]

/-- In another order, perhaps, the same entries are fetched. -/
theorem names_perm (h : Unchanged path w w') (hd : w.tree.openDirectory w.here path = .ok d) :
    (w'.tree.names d).Perm (w.tree.names d) := by
  refine (List.perm_ext_iff_of_nodup (.of_map Prod.fst (nodup_names _ _))
    (.of_map Prod.fst (nodup_names _ _))).2 fun e => ?_
  rw [mem_names_iff, mem_names_iff, h.node d hd]

theorem filesAmong_eq (h : Unchanged path w w') (hd : w.tree.openDirectory w.here path = .ok d)
    (he : ∀ e ∈ entries, w.tree.node? ⟨d, e.1⟩ = some e.2) :
    filesAmong w' path entries = filesAmong w path entries := by
  rw [filesAmong, filesAmong, List.filter_congr fun e h' => h.isRegular_eq hd (he e h')]

end Unchanged

/-! ### One name after the other -/

theorem start_eq {directory : Text} (h : directory.systemBytes = .ok path) (w : World) :
    start directory w =
      match w.tree.openDirectory w.here path with
      | .ok number => .ok (.opened path number) w
      | .error _ => .ok .finished w := by
  refine (StoreM.bind_lift_of_ok h _ w).trans ?_
  show (match w.tree.openDirectory w.here path with
    | .ok number => pure (Cursor.opened path number)
    | .error _ => pure .finished : StoreM Cursor) w = _
  cases w.tree.openDirectory w.here path <;> rfl

theorem forall₂_showsAs_iff {taken : List Bytes} {names : List Text} :
    List.Forall₂ ShowsAs taken names ↔
      taken.map (fun b => ProfileName.listed? (Utf8.decode b)) = names.map some := by
  rw [← List.forall₂_eq_eq_eq, List.forall₂_map_left_iff, List.forall₂_map_right_iff]
  rfl

theorem mem_iff_of_forall₂_showsAs {taken : List Bytes} {names : List Text} {t : Text}
    (h : List.Forall₂ ShowsAs taken names) : t ∈ names ↔ ∃ b ∈ taken, ShowsAs b t := by
  rw [← List.mem_map_of_injective fun _ _ => Option.some.inj, ← forall₂_showsAs_iff.1 h,
    List.mem_map]
  rfl

/-- Every entry has a name to be listed under, whatever its bytes are. -/
theorem exists_nameOf_eq (e : Bytes × Node) : ∃ t, ShowsAs e.1 t ∧ nameOf e = .ok t := by
  obtain ⟨t, ht⟩ := ProfileName.exists_listed? e.1
  exact ⟨t, ht, by rw [nameOf, ht]⟩

/-- A regular file in front is given. -/
theorem exists_next_of_isRegular {e : Bytes × Node} (hr : isRegular w path e = true)
    (entries : List (Bytes × Node)) :
    ∃ t, ShowsAs e.1 t ∧ nameOf e = .ok t ∧
      (fetched path (e :: entries)).next w = .ok (some t, .fetched path entries) w := by
  obtain ⟨t, ht, hname⟩ := exists_nameOf_eq e
  have hadvance : advance w path (e :: entries) = .ok (some t, entries) := by
    rw [advance, if_pos hr, hname]
    rfl
  exact ⟨t, ht, hname, StoreM.bind_lift_of_ok hadvance _ w⟩

/-- Anything else is passed over. -/
theorem next_of_isRegular_eq_false {e : Bytes × Node} (hr : isRegular w path e = false)
    (entries : List (Bytes × Node)) :
    (fetched path (e :: entries)).next w = (fetched path entries).next w := by
  show (liftM (advance w path (e :: entries)) >>= _ : StoreM _) w = _
  rw [advance, if_neg (by simp [hr])]
  rfl

/-- Either there is no regular file among the entries, or the first one is given. -/
theorem next_fetched_cases (w : World) (path : Bytes) (entries : List (Bytes × Node)) :
    filesAmong w path entries = [] ∧
      (fetched path entries).next w = .ok (none, .fetched path []) w ∨
    ∃ b later t, filesAmong w path entries = b :: filesAmong w path later ∧
      (∀ e ∈ later, e ∈ entries) ∧ ShowsAs b t ∧
      (fetched path entries).next w = .ok (some t, .fetched path later) w := by
  induction entries with
  | nil => exact .inl ⟨rfl, rfl⟩
  | cons e entries ih =>
    cases hr : isRegular w path e with
    | true =>
      obtain ⟨t, ht, -, hnext⟩ := exists_next_of_isRegular hr entries
      refine .inr ⟨e.1, entries, t, ?_, fun _ => List.mem_cons_of_mem e, ht, hnext⟩
      rw [filesAmong, List.filter_cons_of_pos hr]
      rfl
    | false =>
      rw [filesAmong, List.filter_cons_of_neg (by simp [hr]), next_of_isRegular_eq_false hr]
      refine ih.imp_right ?_
      rintro ⟨b, later, t, hb, hlater, h⟩
      exact ⟨b, later, t, hb, fun e' he' => List.mem_cons_of_mem e (hlater e' he'), h⟩

/-- Asking for one name after the other until there is none. -/
inductive Drains (w : World) : Cursor → List Text → Cursor → Prop
  | none {c c' : Cursor} (h : c.next w = .ok (none, c') w) : Drains w c [] c'
  | some {c c' c'' : Cursor} {t : Text} {ts : List Text} (h : c.next w = .ok (some t, c') w)
      (hr : Drains w c' ts c'') : Drains w c (t :: ts) c''

/-- Only what is given first is a matter of the cursor. -/
theorem Drains.congr {c₁ : Cursor} {names : List Text} (h : Drains w c names c')
    (hc : c₁.next w = c.next w) : Drains w c₁ names c' := by
  cases h with
  | none h => exact .none (hc.trans h)
  | some h hr => exact .some (hc.trans h) hr

theorem exists_namesOf_eq (w : World) (path : Bytes) (entries : List (Bytes × Node)) :
    ∃ names, namesOf w path entries = .ok names ∧
      Drains w (.fetched path entries) names (.fetched path []) := by
  induction entries with
  | nil => exact ⟨[], rfl, .none rfl⟩
  | cons e entries ih =>
    obtain ⟨names, hn, hd⟩ := ih
    rw [namesOf] at hn
    cases hr : isRegular w path e with
    | true =>
      obtain ⟨t, -, hname, hnext⟩ := exists_next_of_isRegular hr entries
      refine ⟨t :: names, ?_, .some hnext hd⟩
      rw [namesOf, List.filter_cons_of_pos hr, List.mapM_cons, hname, hn]
      rfl
    | false =>
      refine ⟨names, ?_, hd.congr (next_of_isRegular_eq_false hr entries)⟩
      rw [namesOf, List.filter_cons_of_neg (by simp [hr]), hn]

/-- **Going on to the end** is asking for one name after the other until there is none, and it ends
well. -/
theorem exists_rest_eq (c : Cursor) (w : World) :
    ∃ names c', c.rest w = .ok (names, c') w ∧ Drains w c names c' := by
  cases c with
  | finished => exact ⟨[], .finished, rfl, .none rfl⟩
  | opened path d =>
    obtain ⟨names, hn, hd⟩ := exists_namesOf_eq w path (w.tree.names d)
    exact ⟨names, _, StoreM.bind_lift_of_ok hn _ w, hd.congr rfl⟩
  | fetched path entries =>
    obtain ⟨names, hn, hd⟩ := exists_namesOf_eq w path entries
    exact ⟨names, _, StoreM.bind_lift_of_ok hn _ w, hd⟩

/-! ### What is left -/

/-- These are the entries that a cursor has not come to yet, in any order. -/
inductive Left (w : World) (path : Bytes) : Cursor → List Bytes → Prop
  | opened {d : Nat} {left : List Bytes} (hd : w.tree.openDirectory w.here path = .ok d)
      (h : left.Perm (filesAmong w path (w.tree.names d))) : Left w path (.opened path d) left
  | fetched {d : Nat} {entries : List (Bytes × Node)} {left : List Bytes}
      (hd : w.tree.openDirectory w.here path = .ok d)
      (he : ∀ e ∈ entries, w.tree.node? ⟨d, e.1⟩ = some e.2)
      (h : left.Perm (filesAmong w path entries)) : Left w path (.fetched path entries) left
  | finished : Left w path .finished []

/-- A cursor in use goes on as if the entries had been fetched before. -/
theorem Left.cases_fetched (h : Left w path c left) (hw : Unchanged path w w') :
    c = .finished ∧ left = [] ∨
    ∃ d entries, w.tree.openDirectory w.here path = .ok d ∧
      (∀ e ∈ entries, w.tree.node? ⟨d, e.1⟩ = some e.2) ∧
      left.Perm (filesAmong w path entries) ∧
      c.next w' = (Cursor.fetched path entries).next w' := by
  cases h with
  | @opened d _ hd h =>
    -- what is fetched now may be in another order than what the start would have fetched
    have hperm := (hw.names_perm hd).symm
    refine .inr ⟨d, w'.tree.names d, hd, fun e he => ?_, ?_, rfl⟩
    · exact (mem_names_iff _ _ _).1 (hperm.mem_iff.2 he)
    · exact h.trans ((hperm.filter _).map Prod.fst)
  | fetched hd he h => exact .inr ⟨_, _, hd, he, h, rfl⟩
  | finished => exact .inl ⟨rfl, rfl⟩

/-- **The next name** is that of an entry that is left, and there is none only if no entry is. -/
theorem Left.next (h : Left w path c left) (hw : Unchanged path w w') :
    left = [] ∧ (∃ c', c.next w' = .ok (none, c') w' ∧ Left w path c' []) ∨
    ∃ b left' t c', left.Perm (b :: left') ∧ ShowsAs b t ∧
      c.next w' = .ok (some t, c') w' ∧ Left w path c' left' := by
  rcases h.cases_fetched hw with ⟨rfl, rfl⟩ | ⟨d, entries, hd, he, hp, hc⟩
  · exact .inl ⟨rfl, _, rfl, .finished⟩
  rw [hc]
  rcases next_fetched_cases w' path entries with ⟨hnone, hn⟩ | ⟨b, later, t, hb, hlater, ht, hn⟩
  · rw [hw.filesAmong_eq hd he] at hnone
    rw [hnone] at hp
    exact .inl ⟨hp.eq_nil, _, hn, .fetched hd (List.forall_mem_nil _) .rfl⟩
  · have he' : ∀ e ∈ later, w.tree.node? ⟨d, e.1⟩ = some e.2 := fun e h => he e (hlater e h)
    rw [hw.filesAmong_eq hd he, hw.filesAmong_eq hd he'] at hb
    rw [hb] at hp
    exact .inr ⟨b, _, t, _, hp, ht, hn, .fetched hd he' .rfl⟩

/-- Until there is none, the names are those of all the entries that are left. -/
theorem Left.drains {names : List Text} (h : Left w path c left) (hw : Unchanged path w w')
    (hd : Drains w' c names c') :
    ∃ taken, left.Perm taken ∧ List.Forall₂ ShowsAs taken names ∧ Left w path c' [] := by
  induction hd generalizing left with
  | none hn =>
    rcases h.next hw with ⟨rfl, _, hn', h'⟩ | ⟨_, _, _, _, -, -, hn', -⟩
    · cases hn.symm.trans hn'
      exact ⟨[], .rfl, .nil, h'⟩
    · cases hn.symm.trans hn'
  | some hn _ ih =>
    rcases h.next hw with ⟨-, _, hn', -⟩ | ⟨b, left', t, _, hp, ht, hn', h'⟩
    · cases hn.symm.trans hn'
    · cases hn.symm.trans hn'
      obtain ⟨taken, hp', hnames, hend⟩ := ih h'
      exact ⟨b :: taken, hp.trans (hp'.cons b), .cons ht hnames, hend⟩

/-- A cursor at the start has all the entries that show in front of it, each once. -/
theorem exists_start_eq {directory : Text} (h : directory.systemBytes = .ok path) (w : World) :
    ∃ c left, start directory w = .ok c w ∧ Left w path c left ∧ left.Nodup ∧
      ∀ b, b ∈ left ↔ Shows w path b := by
  rw [start_eq h]
  cases hd : w.tree.openDirectory w.here path with
  | ok d =>
    exact ⟨_, _, rfl, .opened hd .rfl, nodup_filesAmong_names w path d,
      fun b => mem_filesAmong_names hd⟩
  | error fault =>
    refine ⟨_, _, rfl, .finished, List.nodup_nil, fun b => iff_of_false List.not_mem_nil ?_⟩
    intro hb
    obtain ⟨d, _, hd', -⟩ := shows_iff.1 hb
    exact absurd (hd.symm.trans hd') (by simp)

end Cursor

open Cursor

/-! ### Dialogues -/

/-- A listing in use, with the iterations over it that have come to their end. -/
structure Enumeration where
  cursor : Cursor
  ended : List Nat

namespace Enumeration

/-- What can be asked of a listing. -/
inductive Call where
  /-- The next name, by some iteration or else by itself. -/
  | next (iteration : Option Nat)
  /-- All the names that a new iteration gives. -/
  | rest
  | finish

/-- A call and what it gave. -/
inductive Exchange where
  | next (iteration : Option Nat) (name : Option Text)
  | rest (names : List Text)
  | finish

namespace Exchange

def call : Exchange → Call
  | next iteration _ => .next iteration
  | rest _ => .rest
  | finish => .finish

/-- The names that were given. -/
def names : Exchange → List Text
  | next _ name => name.toList
  | rest names => names
  | finish => []

/-- There was no name any more. An iteration goes on for that long. -/
def IsEnd : Exchange → Prop
  | next _ name => name = none
  | rest _ => True
  | finish => False

end Exchange

/-- Does what is asked. -/
def perform (e : Enumeration) : Call → StoreM (Exchange × Enumeration)
  | .next iteration =>
    if iteration.any (· ∈ e.ended) then return (.next iteration none, e)
    else do
      let (name, c) ← e.cursor.next
      let ended := if name = none then iteration.toList ++ e.ended else e.ended
      return (.next iteration name, ⟨c, ended⟩)
  | .rest => do
    let (names, c) ← e.cursor.rest
    return (.rest names, ⟨c, e.ended⟩)
  | .finish => return (.finish, ⟨e.cursor.finish, e.ended⟩)

/-- Does what is asked call after call, each in a world of its own. -/
def run (e : Enumeration) : List (World × Call) → Except Failure (List Exchange × Enumeration)
  | [] => .ok ([], e)
  | (w, call) :: calls => do
    let (x, e') ← w.outcome (e.perform call)
    let (dialogue, last) ← e'.run calls
    return (x :: dialogue, last)

variable {w w' : World} {path : Bytes} {e e' : Enumeration} {left left' taken : List Bytes}
  {call : Call} {x : Exchange} {dialogue : List Exchange} {calls : List (World × Call)}

/-! ### One call -/

/-- An exchange when some entries are left: which of them it takes, and which are left after it. -/
inductive Gives (left : List Bytes) : Exchange → List Bytes → List Bytes → Prop
  | next {i : Option Nat} {b : Bytes} {t : Text} {left' : List Bytes}
      (hp : left.Perm (b :: left')) (ht : ShowsAs b t) : Gives left (.next i (some t)) [b] left'
  | nextEnd {i : Option Nat} (h : left = []) : Gives left (.next i none) [] []
  | rest {taken : List Bytes} {names : List Text} (hp : left.Perm taken)
      (hn : List.Forall₂ ShowsAs taken names) : Gives left (.rest names) taken []
  | finish : Gives left .finish [] []

namespace Gives

theorem forall₂_names (h : Gives left x taken left') : List.Forall₂ ShowsAs taken x.names := by
  cases h with
  | next _ ht => exact .cons ht .nil
  | nextEnd _ => exact .nil
  | rest _ hn => exact hn
  | finish => exact .nil

/-- Nothing is passed over unless the listing is given up. -/
theorem perm (h : Gives left x taken left') (hx : x ≠ .finish) : left.Perm (taken ++ left') := by
  cases h with
  | next hp _ => exact hp
  | nextEnd h => rw [h]; exact .rfl
  | rest hp _ => rwa [List.append_nil]
  | finish => contradiction

theorem subperm (h : Gives left x taken left') : (taken ++ left').Subperm left := by
  by_cases hx : x = .finish
  · subst hx
    cases h
    exact List.nil_subperm
  · exact (h.perm hx).symm.subperm

/-- Nothing is left at the end. -/
theorem eq_nil (h : Gives left x taken left') (hx : x.IsEnd ∨ x = .finish) : left' = [] := by
  cases h with
  | next _ _ => rcases hx with hx | hx <;> contradiction
  | nextEnd _ => rfl
  | rest _ _ => rfl
  | finish => rfl

end Gives

/-- These entries are left, and none is if some iteration has come to its end. -/
structure Awaits (w : World) (path : Bytes) (e : Enumeration) (left : List Bytes) : Prop where
  cursor : Left w path e.cursor left
  ended : e.ended = [] ∨ left = []

/-- **One call** ends well, and takes entries that are left. -/
theorem exists_gives (h : e.Awaits w path left) (hw : Unchanged path w w') (call : Call) :
    ∃ x taken e' left', w'.outcome (e.perform call) = .ok (x, e') ∧ x.call = call ∧
      Gives left x taken left' ∧ e'.Awaits w path left' := by
  obtain ⟨c, ended⟩ := e
  obtain ⟨hc, hended⟩ := h
  cases call with
  | next i =>
    rw [perform]
    split
    · next hi =>
      -- an iteration ends only when nothing is left, and nothing has come since
      have hleft : left = [] := by
        refine hended.resolve_left ?_
        rintro rfl
        simp at hi
      exact ⟨_, [], _, [], World.outcome_of_ok rfl, rfl, .nextEnd hleft, hleft ▸ hc, .inr rfl⟩
    · rcases hc.next hw with ⟨hleft, c', hn, hc'⟩ | ⟨b, left', t, c', hp, ht, hn, hc'⟩
      · exact ⟨_, [], _, [], World.outcome_of_ok (StoreM.bind_of_ok hn _), rfl, .nextEnd hleft,
          hc', .inr rfl⟩
      · refine ⟨_, [b], _, left', World.outcome_of_ok (StoreM.bind_of_ok hn _), rfl, .next hp ht,
          hc', .inl (hended.resolve_right ?_)⟩
        rintro rfl
        exact absurd hp.symm.eq_nil (by simp)
  | rest =>
    obtain ⟨names, c', hr, hd⟩ := exists_rest_eq c w'
    obtain ⟨taken, hp, hn, hc'⟩ := hc.drains hw hd
    exact ⟨_, taken, _, [], World.outcome_of_ok (StoreM.bind_of_ok hr _), rfl, .rest hp hn, hc',
      .inr rfl⟩
  | finish => exact ⟨_, [], _, [], World.outcome_of_ok rfl, rfl, .finish, .finished, .inr rfl⟩

/-- A listing that was given up stays given up. -/
theorem cursor_eq_finished (h : w.outcome (e.perform call) = .ok (x, e'))
    (hf : call = .finish ∨ e.cursor = .finished) : e'.cursor = .finished := by
  obtain ⟨c, ended⟩ := e
  rcases hf with rfl | rfl
  · cases h
    rfl
  · cases call with
    | next i =>
      rw [perform] at h
      split at h
      · cases h
        rfl
      · cases h
        rfl
    | rest =>
      cases h
      rfl
    | finish =>
      cases h
      rfl

/-! ### Any number of calls -/

/-- Exchanges, one after the other, when some entries are left, and which of them they take. -/
inductive Delivers : List Bytes → List Exchange → List Bytes → Prop
  | nil {left : List Bytes} : Delivers left [] []
  | cons {left left' taken taken' : List Bytes} {x : Exchange} {dialogue : List Exchange}
      (h : Gives left x taken left') (hr : Delivers left' dialogue taken') :
      Delivers left (x :: dialogue) (taken ++ taken')

namespace Delivers

theorem forall₂_names (h : Delivers left dialogue taken) :
    List.Forall₂ ShowsAs taken (dialogue.flatMap Exchange.names) := by
  induction h with
  | nil => exact .nil
  | cons h _ ih => exact List.rel_append h.forall₂_names ih

theorem subperm (h : Delivers left dialogue taken) : taken.Subperm left := by
  induction h with
  | nil => exact List.nil_subperm
  | cons h _ ih => exact ((List.subperm_append_left _).2 ih).trans h.subperm

/-- Where nothing is left, nothing is given. -/
theorem names_eq_nil (h : Delivers [] dialogue taken) : ∀ x ∈ dialogue, x.names = [] := by
  have hnames := h.forall₂_names
  rw [List.subperm_nil.1 h.subperm, List.forall₂_nil_left_iff] at hnames
  exact List.flatMap_eq_nil_iff.1 hnames

variable {before after : List Exchange}

/-- What was given until an end is all there was. -/
theorem mem_of_isEnd (h : Delivers left (before ++ x :: after) taken) (hx : x.IsEnd)
    (hb : .finish ∉ before) {b : Bytes} (hmem : b ∈ left) : b ∈ taken := by
  induction before generalizing left taken with
  | nil =>
    cases h with
    | cons h _ =>
      have hp := h.perm (by rintro rfl; exact hx)
      rw [h.eq_nil (.inl hx), List.append_nil] at hp
      exact List.mem_append_left _ (hp.mem_iff.1 hmem)
  | cons y before ih =>
    rw [List.mem_cons, not_or] at hb
    cases h with
    | cons h hr =>
      rcases List.mem_append.1 ((h.perm (Ne.symm hb.1)).mem_iff.1 hmem) with hmem | hmem
      · exact List.mem_append_left _ hmem
      · exact List.mem_append_right _ (ih hr hb.2 hmem)

/-- After an end, or after the listing was given up, nothing is given. -/
theorem names_after_eq_nil (h : Delivers left (before ++ x :: after) taken)
    (hx : x.IsEnd ∨ x = .finish) : ∀ y ∈ after, y.names = [] := by
  induction before generalizing left taken with
  | nil =>
    cases h with
    | cons h hr =>
      rw [h.eq_nil hx] at hr
      exact hr.names_eq_nil
  | cons y before ih =>
    cases h with
    | cons _ hr => exact ih hr

end Delivers

/-- **A dialogue** ends well if in each of its worlds the directory is unchanged. -/
theorem exists_delivers (h : e.Awaits w path left) (hw : ∀ c ∈ calls, Unchanged path w c.1) :
    ∃ dialogue last taken, e.run calls = .ok (dialogue, last) ∧
      dialogue.map Exchange.call = calls.map Prod.snd ∧ Delivers left dialogue taken ∧
      (.finish ∈ calls.map Prod.snd ∨ e.cursor = .finished → last.cursor = .finished) := by
  induction calls generalizing e left with
  | nil => exact ⟨[], e, [], rfl, rfl, .nil, fun hf => hf.resolve_left List.not_mem_nil⟩
  | cons c calls ih =>
    obtain ⟨w', call⟩ := c
    rw [List.forall_mem_cons] at hw
    obtain ⟨x, taken, e', left', hx, hcall, hg, he'⟩ := exists_gives h hw.1 call
    obtain ⟨dialogue, last, taken', hrun, hcalls, hd, hlast⟩ := ih he' hw.2
    refine ⟨x :: dialogue, last, taken ++ taken', ?_, ?_, .cons hg hd, fun hf => hlast ?_⟩
    · rw [run, hx]
      show (e'.run calls).bind _ = _
      rw [hrun]
      rfl
    · rw [List.map_cons, hcall, hcalls, List.map_cons]
    · rw [List.map_cons, List.mem_cons] at hf
      rcases hf with (hf | hf) | hf
      · exact .inr (cursor_eq_finished hx (.inl hf.symm))
      · exact .inl hf
      · exact .inr (cursor_eq_finished hx (.inr hf))

/-- What a dialogue with the listing of a directory gives. -/
structure IsFaithful (w : World) (path : Bytes) (dialogue : List Exchange) (taken : List Bytes) :
    Prop where
  /-- The names are those of some entries. -/
  names : List.Forall₂ ShowsAs taken (dialogue.flatMap Exchange.names)
  /-- No entry comes twice. -/
  nodup : taken.Nodup
  shows : ∀ b ∈ taken, Shows w path b
  /-- An end means that all entries were given, unless the listing had been given up. -/
  complete : ∀ before x after, dialogue = before ++ x :: after → x.IsEnd → .finish ∉ before →
    ∀ b, Shows w path b → b ∈ taken
  /-- After an end, or after the listing was given up, no name comes any more: there is no next one,
  and an iteration is empty. -/
  inert : ∀ before x after, dialogue = before ++ x :: after → x.IsEnd ∨ x = .finish →
    ∀ y ∈ after, y.names = []

/-- **Going through a directory**, in whatever way, gives the entries that show, each once, and
nothing after the end. A listing that was given up stays so, and without a directory there is
nothing to go through. -/
theorem exists_isFaithful_run {directory : Text} (hpath : directory.systemBytes = .ok path)
    (hw : ∀ c ∈ calls, Unchanged path w c.1) :
    ∃ cursor dialogue last taken, Cursor.start directory w = .ok cursor w ∧
      run ⟨cursor, []⟩ calls = .ok (dialogue, last) ∧
      dialogue.map Exchange.call = calls.map Prod.snd ∧ IsFaithful w path dialogue taken ∧
      (.finish ∈ calls.map Prod.snd → last.cursor = .finished) := by
  obtain ⟨cursor, left, hstart, hleft, hnodup, hmem⟩ := exists_start_eq hpath w
  obtain ⟨dialogue, last, taken, hrun, hcalls, hd, hlast⟩ :=
    exists_delivers (e := ⟨cursor, []⟩) ⟨hleft, .inl rfl⟩ hw
  refine ⟨cursor, dialogue, last, taken, hstart, hrun, hcalls, ?_, fun hf => hlast (.inl hf)⟩
  refine ⟨hd.forall₂_names, ?_, ?_, ?_, ?_⟩
  · obtain ⟨_, hp, hs⟩ := hd.subperm
    exact hp.nodup_iff.1 (hnodup.sublist hs)
  · exact fun b hb => (hmem b).1 (hd.subperm.subset hb)
  · rintro before x after rfl hx hb b hshows
    exact hd.mem_of_isEnd hx hb ((hmem b).2 hshows)
  · rintro before x after rfl hx
    exact hd.names_after_eq_nil hx

/-- Puts a link to a target at a path. -/
def putLink (path : FilePath) (target : Text) : StoreM Unit := do
  let target ← target.systemBytes
  Disk.change path fun t here b => (t.makeLink here b target).map ((), ·)

/-- The world with a directory in which there are a profile and a directory, and links to that
profile, to the directory, to nothing and to itself. -/
def crowdedWorld : World :=
  World.bare.after do
    Disk.makeDirectory (.ofText "d") Disk.privateDirectoryMode
    Disk.makeDirectory (.ofText "d/sub") Disk.privateDirectoryMode
    let _ ← Disk.openEmptied (.ofText "d/a%2Fb") Disk.sharedFileMode
    putLink (.ofText "d/same") "a%2Fb"
    putLink (.ofText "d/up") "."
    putLink (.ofText "d/gone") "nowhere"
    putLink (.ofText "d/loop") "loop"

/-- Calls of all kinds. Before the second one, the journal is lost. -/
def mixedCalls : List (World × Call) :=
  [(crowdedWorld, .next none), ({ crowdedWorld with journal := [] }, .next (some 0)),
    (crowdedWorld, .rest), (crowdedWorld, .next (some 0)), (crowdedWorld, .finish),
    (crowdedWorld, .finish), (crowdedWorld, .next none)]

/-- The directory can be gone through in this way, and the link to the profile is among what
shows. -/
theorem exists_isFaithful_run_mixedCalls :
    Text.systemBytes "d" = .ok [0x64] ∧
      (∀ c ∈ mixedCalls, Unchanged [0x64] crowdedWorld c.1) ∧
      Shows crowdedWorld [0x64] ((Utf8.encode? "same").getD []) ∧
      ∃ cursor dialogue last taken, Cursor.start "d" crowdedWorld = .ok cursor crowdedWorld ∧
        run ⟨cursor, []⟩ mixedCalls = .ok (dialogue, last) ∧
        dialogue.map Exchange.call = mixedCalls.map Prod.snd ∧
        IsFaithful crowdedWorld [0x64] dialogue taken ∧
        (.finish ∈ mixedCalls.map Prod.snd → last.cursor = .finished) := by
  have hw : ∀ c ∈ mixedCalls, Unchanged [0x64] crowdedWorld c.1 := by
    simp [mixedCalls, Unchanged.of_eq]
  have hd : crowdedWorld.tree.openDirectory crowdedWorld.here [0x64] = .ok 1 := by decide +kernel
  exact ⟨rfl, hw, shows_iff.2 ⟨1, .link ((Utf8.encode? "a%2Fb").getD []), hd, by decide +kernel,
    by decide +kernel⟩, exists_isFaithful_run rfl hw⟩

end Enumeration

end ClientStore
