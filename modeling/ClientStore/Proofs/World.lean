import ClientStore.World

/-!
# Operations on a world

An operation is a function from worlds to results, and the steps of an operation are followed by
saying of each step which result it has. What an operation does to the world matters also when it
fails, so the world that it leaves has a name of its own.

Most of what is done to directories has nothing to do with the journal. Such an operation is
*quiet*: with another journal it does the same. No operation ever looks at the journal, so that even
one that tells something gives the same with another journal.

## Main definitions

* `World.bare` — a world to begin with.
* `World.after`, `World.outcome` — the world that an operation leaves, and what it gives.
* `StoreM.IsQuiet` — operations that have nothing to do with the journal.
* `StoreM.IgnoresJournal` — operations for which it does not matter what was told before.
* `StoreM.Maintains` — what is still so after an operation.
* `StoreM.Preserves` — what is the same after an operation.
* `StoreM.LeavesFiles` — operations that do nothing to the file tree.
-/

namespace ClientStore

variable {α β : Type}

/-- The world in which there is nothing yet. -/
def World.bare : World := ⟨.empty, FileTree.root, []⟩

/-- The world that an operation leaves, whether it fails or not. -/
def World.after (w : World) (x : StoreM α) : World :=
  match x w with
  | .ok _ w' => w'
  | .error _ w' => w'

theorem World.after_of_ok {x : StoreM α} {w w' : World} {a : α} (h : x w = .ok a w') :
    w.after x = w' := by
  rw [World.after, h]

theorem World.after_of_error {x : StoreM α} {w w' : World} {f : Failure} (h : x w = .error f w') :
    w.after x = w' := by
  rw [World.after, h]

theorem World.after_congr {x y : StoreM α} {w v : World} (h : x w = y v) :
    w.after x = v.after y := by
  rw [World.after, h, World.after]

/-- What an operation gives, whatever it does to the world. -/
def World.outcome (w : World) (x : StoreM α) : Except Failure α :=
  match x w with
  | .ok a _ => .ok a
  | .error f _ => .error f

theorem World.outcome_of_ok {x : StoreM α} {w w' : World} {a : α} (h : x w = .ok a w') :
    w.outcome x = .ok a := by
  rw [World.outcome, h]

theorem World.outcome_of_error {x : StoreM α} {w w' : World} {f : Failure}
    (h : x w = .error f w') : w.outcome x = .error f := by
  rw [World.outcome, h]

theorem World.outcome_eq_ok_iff {x : StoreM α} {w : World} {a : α} :
    w.outcome x = .ok a ↔ ∃ w', x w = .ok a w' := by
  constructor
  · intro h
    cases hx : x w with
    | ok b w' =>
      rw [World.outcome_of_ok hx] at h
      exact ⟨w', by rw [Except.ok.inj h]⟩
    | error f w' =>
      rw [World.outcome_of_error hx] at h
      contradiction
  · rintro ⟨w', h⟩
    exact World.outcome_of_ok h

theorem World.outcome_congr {x y : StoreM α} {w v : World} (h : x w = y v) :
    w.outcome x = v.outcome y := by
  rw [World.outcome, h, World.outcome]

namespace StoreM

/-! ### Following an operation -/

section Steps

variable {x : StoreM α} {w w' : World} {f : Failure}

theorem bind_of_ok {a : α} (h : x w = .ok a w') (g : α → StoreM β) : (x >>= g) w = g a w' := by
  show EStateM.bind x g w = _
  rw [EStateM.bind, h]

theorem bind_of_error (h : x w = .error f w') (g : α → StoreM β) : (x >>= g) w = .error f w' := by
  show EStateM.bind x g w = _
  rw [EStateM.bind, h]

/-- Two operations that end well together do so one after the other. -/
theorem exists_of_bind_ok {g : α → StoreM β} {b : β} (h : (x >>= g) w = .ok b w') :
    ∃ a u, x w = .ok a u ∧ g a u = .ok b w' := by
  cases hx : x w with
  | ok a u => exact ⟨a, u, rfl, (bind_of_ok hx g).symm.trans h⟩
  | error f u => exact absurd ((bind_of_error hx g).symm.trans h) (by simp)

theorem lift_of_ok {e : Except Failure α} {a : α} (h : e = .ok a) (w : World) :
    (liftM e : StoreM α) w = .ok a w := by
  rw [h]
  rfl

theorem bind_lift_of_ok {e : Except Failure α} {a : α} (h : e = .ok a) (g : α → StoreM β)
    (w : World) : ((liftM e : StoreM α) >>= g) w = g a w :=
  bind_of_ok (lift_of_ok h w) g

theorem lift_of_error {e : Except Failure α} (h : e = .error f) (w : World) :
    (liftM e : StoreM α) w = .error f w := by
  rw [h]
  rfl

/-- A computation that does not look at the world does nothing to it, either. -/
theorem of_lift_ok {e : Except Failure α} {a : α} (h : (liftM e : StoreM α) w = .ok a w') :
    e = .ok a ∧ w = w' := by
  cases e with
  | ok b =>
    injection h with hb hw
    exact ⟨congrArg Except.ok hb, hw⟩
  | error f => contradiction

/-- Two operations fail if the first one does, or the second one does after it. -/
theorem bind_error_cases {g : α → StoreM β} (h : (x >>= g) w = .error f w') :
    x w = .error f w' ∨ ∃ a u, x w = .ok a u ∧ g a u = .error f w' := by
  cases hx : x w with
  | ok a u => exact .inr ⟨a, u, rfl, (bind_of_ok hx g).symm.trans h⟩
  | error e u =>
    injection (bind_of_error hx g).symm.trans h with he hu
    exact .inl (by rw [he, hu])

/-- An operation that needs a value fails if there is none, or with the value. -/
theorem lift_bind_error_cases {e : Except Failure α} {g : α → StoreM β}
    (h : ((liftM e : StoreM α) >>= g) w = .error f w') :
    e = .error f ∧ w = w' ∨ ∃ a, e = .ok a ∧ g a w = .error f w' := by
  cases e with
  | ok a => exact .inr ⟨a, rfl, h⟩
  | error e' =>
    injection h with he hw
    exact .inl ⟨congrArg Except.error he, hw⟩

theorem onRefusal_of_ok {a : α} (h : x w = .ok a w') (handler : Refusal → StoreM α) :
    x.onRefusal handler w = .ok a w' := by
  rw [onRefusal, h]

theorem onRefusal_of_refused {r : Refusal} (h : x w = .error (.refused r) w')
    (handler : Refusal → StoreM α) : x.onRefusal handler w = handler r w' := by
  rw [onRefusal, h]

theorem onRefusal_of_error (h : x w = .error f w') (hf : ∀ r, f ≠ .refused r)
    (handler : Refusal → StoreM α) : x.onRefusal handler w = .error f w' := by
  rw [onRefusal, h]
  cases f with
  | refused r => exact absurd rfl (hf r)
  | _ => rfl

/-- What ends well with a handler has done so itself, or the handler has. -/
theorem onRefusal_ok_cases {handler : Refusal → StoreM α} {a : α}
    (h : x.onRefusal handler w = .ok a w') :
    x w = .ok a w' ∨ ∃ r u, x w = .error (.refused r) u ∧ handler r u = .ok a w' := by
  cases hx : x w with
  | ok b u => exact .inl ((onRefusal_of_ok hx handler).symm.trans h)
  | error e u =>
    by_cases he : ∃ r, e = .refused r
    · obtain ⟨r, rfl⟩ := he
      exact .inr ⟨r, u, rfl, (onRefusal_of_refused hx handler).symm.trans h⟩
    · have hf := onRefusal_of_error hx (fun r hr => he ⟨r, hr⟩) handler
      exact absurd (hf.symm.trans h) (by simp)

/-- What fails in spite of a handler was no refusal, or the handler has failed. -/
theorem onRefusal_error_cases {handler : Refusal → StoreM α}
    (h : x.onRefusal handler w = .error f w') :
    x w = .error f w' ∧ (∀ r, f ≠ .refused r) ∨
      ∃ r u, x w = .error (.refused r) u ∧ handler r u = .error f w' := by
  cases hx : x w with
  | ok a u => exact absurd ((onRefusal_of_ok hx handler).symm.trans h) (by simp)
  | error e u =>
    by_cases he : ∃ r, e = .refused r
    · obtain ⟨r, rfl⟩ := he
      exact .inr ⟨r, u, rfl, (onRefusal_of_refused hx handler).symm.trans h⟩
    · have hne : ∀ r, e ≠ .refused r := fun r hr => he ⟨r, hr⟩
      injection (onRefusal_of_error hx hne handler).symm.trans h with hf hu
      exact .inl ⟨by rw [hf, hu], hf ▸ hne⟩

theorem attempt_of_ok {a : α} (h : x w = .ok a w') : x.attempt w = .ok (.ok a) w' := by
  rw [attempt, h]

/-- An operation ends well or it fails. -/
theorem ok_or_error (x : StoreM α) (w : World) :
    (∃ a, x w = .ok a (w.after x)) ∨ ∃ f, x w = .error f (w.after x) := by
  rw [World.after]
  cases x w with
  | ok a w' => exact .inl ⟨a, rfl⟩
  | error f w' => exact .inr ⟨f, rfl⟩

theorem outcome_lift (e : Except Failure α) (w : World) : w.outcome (liftM e : StoreM α) = e := by
  cases e <;> rfl

/-- What is given by one operation and then another. -/
theorem outcome_bind (x : StoreM α) (g : α → StoreM β) (w : World) :
    w.outcome (x >>= g) = (w.outcome x).bind fun a => (w.after x).outcome (g a) := by
  rcases ok_or_error x w with ⟨a, h⟩ | ⟨f, h⟩
  · rw [World.outcome_of_ok h, World.outcome_congr (bind_of_ok h g)]
    rfl
  · rw [World.outcome_of_error h, World.outcome_of_error (bind_of_error h g)]
    rfl

end Steps

/-! ### Quiet operations -/

/-- The result with another journal in the world. -/
def withJournal (j : List Event) : EStateM.Result Failure World α → EStateM.Result Failure World α
  | .ok a w => .ok a { w with journal := j }
  | .error f w => .error f { w with journal := j }

/-- The operation has nothing to do with the journal. -/
def IsQuiet (x : StoreM α) : Prop :=
  ∀ (w : World) (j : List Event), x { w with journal := j } = withJournal j (x w)

namespace IsQuiet

theorem pure (a : α) : IsQuiet (Pure.pure a : StoreM α) := fun _ _ => rfl

theorem throw (e : Failure) : IsQuiet (MonadExcept.throw e : StoreM α) := fun _ _ => rfl

theorem lift (e : Except Failure α) : IsQuiet (liftM e : StoreM α) := by
  cases e with
  | ok a => exact pure a
  | error f => exact throw f

theorem bind {x : StoreM α} {g : α → StoreM β} (hx : x.IsQuiet) (hg : ∀ a, (g a).IsQuiet) :
    (x >>= g).IsQuiet := by
  intro w j
  have hj := hx w j
  cases h : x w with
  | ok a u =>
    rw [h] at hj
    rw [bind_of_ok h, bind_of_ok hj]
    exact hg a u j
  | error f u =>
    rw [h] at hj
    rw [bind_of_error h, bind_of_error hj]
    rfl

theorem onRefusal {x : StoreM α} {handler : Refusal → StoreM α} (hx : x.IsQuiet)
    (hh : ∀ r, (handler r).IsQuiet) : (x.onRefusal handler).IsQuiet := by
  intro w j
  have hj := hx w j
  cases h : x w with
  | ok a u =>
    rw [h] at hj
    rw [onRefusal_of_ok h, onRefusal_of_ok hj]
    rfl
  | error f u =>
    rw [h] at hj
    by_cases hf : ∃ r, f = .refused r
    · obtain ⟨r, rfl⟩ := hf
      rw [onRefusal_of_refused h, onRefusal_of_refused hj]
      exact hh r u j
    · have hne : ∀ r, f ≠ .refused r := fun r he => hf ⟨r, he⟩
      rw [onRefusal_of_error h hne, onRefusal_of_error hj hne]
      rfl

theorem attempt {x : StoreM α} (hx : x.IsQuiet) : x.attempt.IsQuiet := by
  intro w j
  rw [StoreM.attempt, StoreM.attempt, hx w j]
  cases x w <;> rfl

/-- A quiet operation depends on the file tree and the working directory only. -/
theorem congr {x : StoreM α} (hx : x.IsQuiet) {w v : World} (ht : w.tree = v.tree)
    (hh : w.here = v.here) : x v = withJournal v.journal (x w) := by
  rw [← hx w v.journal, ht, hh]

theorem tree_after {x : StoreM α} (hx : x.IsQuiet) {w v : World} (ht : w.tree = v.tree)
    (hh : w.here = v.here) : (w.after x).tree = (v.after x).tree := by
  rw [World.after, World.after, hx.congr ht hh]
  cases x w <;> rfl

theorem here_after {x : StoreM α} (hx : x.IsQuiet) {w v : World} (ht : w.tree = v.tree)
    (hh : w.here = v.here) : (w.after x).here = (v.after x).here := by
  rw [World.after, World.after, hx.congr ht hh]
  cases x w <;> rfl

/-- A quiet operation that ends well does so whatever the journal is. -/
theorem ok_congr {x : StoreM α} (hx : x.IsQuiet) {w w' v : World} {a : α} (ht : w.tree = v.tree)
    (hh : w.here = v.here) (h : x w = .ok a w') :
    x v = .ok a { w' with journal := v.journal } := by
  rw [hx.congr ht hh, h]
  rfl

end IsQuiet

/-! ### Operations that do not look at the journal -/

/-- Whatever was told before, the operation gives the same and does the same to the files. -/
def IgnoresJournal (x : StoreM α) : Prop :=
  ∀ (w : World) (j : List Event), ∃ j', x { w with journal := j } = withJournal j' (x w)

theorem IsQuiet.ignoresJournal {x : StoreM α} (hx : x.IsQuiet) : x.IgnoresJournal :=
  fun w j => ⟨j, hx w j⟩

namespace IgnoresJournal

theorem pure (a : α) : IgnoresJournal (Pure.pure a : StoreM α) := (IsQuiet.pure a).ignoresJournal

theorem lift (e : Except Failure α) : IgnoresJournal (liftM e : StoreM α) :=
  (IsQuiet.lift e).ignoresJournal

theorem tell (e : Event) : IgnoresJournal (StoreM.tell e) := fun _ j => ⟨j ++ [e], rfl⟩

theorem bind {x : StoreM α} {g : α → StoreM β} (hx : x.IgnoresJournal)
    (hg : ∀ a, (g a).IgnoresJournal) : (x >>= g).IgnoresJournal := by
  intro w j
  obtain ⟨j', hj⟩ := hx w j
  cases h : x w with
  | ok a u =>
    rw [h] at hj
    rw [bind_of_ok h, bind_of_ok hj]
    exact hg a u j'
  | error f u =>
    rw [h] at hj
    rw [bind_of_error h, bind_of_error hj]
    exact ⟨j', rfl⟩

theorem onRefusal {x : StoreM α} {handler : Refusal → StoreM α} (hx : x.IgnoresJournal)
    (hh : ∀ r, (handler r).IgnoresJournal) : (x.onRefusal handler).IgnoresJournal := by
  intro w j
  obtain ⟨j', hj⟩ := hx w j
  cases h : x w with
  | ok a u =>
    rw [h] at hj
    rw [onRefusal_of_ok h, onRefusal_of_ok hj]
    exact ⟨j', rfl⟩
  | error f u =>
    rw [h] at hj
    by_cases hf : ∃ r, f = .refused r
    · obtain ⟨r, rfl⟩ := hf
      rw [onRefusal_of_refused h, onRefusal_of_refused hj]
      exact hh r u j'
    · have hne : ∀ r, f ≠ .refused r := fun r he => hf ⟨r, he⟩
      rw [onRefusal_of_error h hne, onRefusal_of_error hj hne]
      exact ⟨j', rfl⟩

/-- What the operation gives depends on the files only. -/
theorem outcome_eq {x : StoreM α} (hx : x.IgnoresJournal) {w v : World} (ht : w.tree = v.tree)
    (hh : w.here = v.here) : w.outcome x = v.outcome x := by
  obtain ⟨j', hj⟩ := hx w v.journal
  have hv : x v = withJournal j' (x w) := by rw [← hj, ht, hh]
  rw [World.outcome, World.outcome, hv]
  cases x w <;> rfl

end IgnoresJournal

/-! ### What an operation maintains -/

/-- What holds of a world holds also after the operation, whether it fails or not. -/
def Maintains (P : World → Prop) (x : StoreM α) : Prop := ∀ w, P w → P (w.after x)

namespace Maintains

variable {P : World → Prop}

theorem pure (a : α) : Maintains P (Pure.pure a : StoreM α) := fun _ h => h

theorem throw (e : Failure) : Maintains P (MonadExcept.throw e : StoreM α) := fun _ h => h

theorem lift (e : Except Failure α) : Maintains P (liftM e : StoreM α) := by
  cases e with
  | ok a => exact pure a
  | error f => exact throw f

theorem bind {x : StoreM α} {g : α → StoreM β} (hx : x.Maintains P)
    (hg : ∀ a, (g a).Maintains P) : (x >>= g).Maintains P := by
  intro w hw
  rcases ok_or_error x w with ⟨a, h⟩ | ⟨e, h⟩
  · rw [World.after_congr (bind_of_ok h g)]
    exact hg a _ (hx w hw)
  · rw [World.after_of_error (bind_of_error h g)]
    exact hx w hw

/-- An operation that needs a value does so only with that value. -/
theorem lift_bind {e : Except Failure α} {g : α → StoreM β}
    (h : ∀ a, e = .ok a → (g a).Maintains P) : (liftM e >>= g).Maintains P := by
  cases e with
  | ok a => exact h a rfl
  | error e => exact fun _ h => h

theorem onRefusal {x : StoreM α} {handler : Refusal → StoreM α} (hx : x.Maintains P)
    (hh : ∀ r, (handler r).Maintains P) : (x.onRefusal handler).Maintains P := by
  intro w hw
  rcases ok_or_error x w with ⟨a, h⟩ | ⟨e, h⟩
  · rw [World.after_of_ok (onRefusal_of_ok h handler)]
    exact hx w hw
  · by_cases he : ∃ r, e = .refused r
    · obtain ⟨r, rfl⟩ := he
      rw [World.after_congr (onRefusal_of_refused h handler)]
      exact hh r _ (hx w hw)
    · rw [World.after_of_error (onRefusal_of_error h (fun r hr => he ⟨r, hr⟩) handler)]
      exact hx w hw

theorem attempt {x : StoreM α} (hx : x.Maintains P) : x.attempt.Maintains P := by
  intro w hw
  have ha : w.after x.attempt = w.after x := by
    rw [World.after, World.after, StoreM.attempt]
    cases x w <;> rfl
  exact ha ▸ hx w hw

theorem forM {ι : Type} {g : ι → StoreM Unit} {as : List ι} (h : ∀ a ∈ as, (g a).Maintains P) :
    (as.forM g).Maintains P := by
  induction as with
  | nil => exact .pure ()
  | cons a as ih =>
    rw [List.forall_mem_cons] at h
    exact .bind h.1 fun _ => ih h.2

end Maintains

/-! ### What an operation preserves -/

/-- What `f` sees of a world is the same after the operation, whether it fails or not. -/
def Preserves {γ : Type} (f : World → γ) (x : StoreM α) : Prop := ∀ w, f (w.after x) = f w

/-- To preserve what is seen is to maintain it, whatever it is. -/
theorem preserves_iff {γ : Type} {f : World → γ} {x : StoreM α} :
    x.Preserves f ↔ ∀ c, x.Maintains fun w => f w = c :=
  ⟨fun h _ w hw => (h w).trans hw, fun h w => h _ w rfl⟩

namespace Preserves

variable {γ δ : Type} {f : World → γ}

theorem pure (a : α) : Preserves f (Pure.pure a : StoreM α) := fun _ => rfl

theorem throw (e : Failure) : Preserves f (MonadExcept.throw e : StoreM α) := fun _ => rfl

theorem lift (e : Except Failure α) : Preserves f (liftM e : StoreM α) :=
  preserves_iff.2 fun _ => .lift e

theorem bind {x : StoreM α} {g : α → StoreM β} (hx : x.Preserves f)
    (hg : ∀ a, (g a).Preserves f) : (x >>= g).Preserves f :=
  preserves_iff.2 fun c => .bind (preserves_iff.1 hx c) fun a => preserves_iff.1 (hg a) c

/-- An operation that needs a value does so only with that value. -/
theorem lift_bind {e : Except Failure α} {g : α → StoreM β}
    (h : ∀ a, e = .ok a → (g a).Preserves f) : (liftM e >>= g).Preserves f :=
  preserves_iff.2 fun c => .lift_bind fun a ha => preserves_iff.1 (h a ha) c

theorem onRefusal {x : StoreM α} {handler : Refusal → StoreM α} (hx : x.Preserves f)
    (hh : ∀ r, (handler r).Preserves f) : (x.onRefusal handler).Preserves f :=
  preserves_iff.2 fun c => .onRefusal (preserves_iff.1 hx c) fun r => preserves_iff.1 (hh r) c

theorem attempt {x : StoreM α} (hx : x.Preserves f) : x.attempt.Preserves f :=
  preserves_iff.2 fun c => .attempt (preserves_iff.1 hx c)

theorem forM {ι : Type} {g : ι → StoreM Unit} {as : List ι} (h : ∀ a ∈ as, (g a).Preserves f) :
    (as.forM g).Preserves f :=
  preserves_iff.2 fun c => .forM fun a ha => preserves_iff.1 (h a ha) c

theorem comp {x : StoreM α} (hx : x.Preserves f) (g : γ → δ) : x.Preserves fun w => g (f w) :=
  fun w => congrArg g (hx w)

end Preserves

/-- A quiet operation tells nothing. -/
theorem IsQuiet.preserves_journal {x : StoreM α} (hx : x.IsQuiet) : x.Preserves World.journal := by
  intro w
  have hj : x w = withJournal w.journal (x w) := hx w w.journal
  rw [World.after, hj]
  cases x w with
  | ok a w' => rfl
  | error e w' => rfl

/-! ### Operations that leave the files alone -/

/-- The operation does nothing to the file tree, nor does it move the working directory. -/
def LeavesFiles (x : StoreM α) : Prop :=
  ∀ w : World, (w.after x).tree = w.tree ∧ (w.after x).here = w.here

theorem leavesFiles_iff {x : StoreM α} :
    x.LeavesFiles ↔ x.Preserves fun w => (w.tree, w.here) := by
  simp [LeavesFiles, Preserves]

namespace LeavesFiles

theorem pure (a : α) : LeavesFiles (Pure.pure a : StoreM α) := fun _ => ⟨rfl, rfl⟩

theorem lift (e : Except Failure α) : LeavesFiles (liftM e : StoreM α) :=
  leavesFiles_iff.2 (.lift e)

theorem throw (e : Failure) : LeavesFiles (MonadExcept.throw e : StoreM α) := fun _ => ⟨rfl, rfl⟩

theorem tell (e : Event) : LeavesFiles (StoreM.tell e) := fun _ => ⟨rfl, rfl⟩

theorem log (severity : Severity) (message : Text) : LeavesFiles (StoreM.log severity message) :=
  tell _

theorem bind {x : StoreM α} {g : α → StoreM β} (hx : x.LeavesFiles)
    (hg : ∀ a, (g a).LeavesFiles) : (x >>= g).LeavesFiles :=
  leavesFiles_iff.2 (.bind (leavesFiles_iff.1 hx) fun a => leavesFiles_iff.1 (hg a))

theorem onRefusal {x : StoreM α} {handler : Refusal → StoreM α} (hx : x.LeavesFiles)
    (hh : ∀ r, (handler r).LeavesFiles) : (x.onRefusal handler).LeavesFiles :=
  leavesFiles_iff.2 (.onRefusal (leavesFiles_iff.1 hx) fun r => leavesFiles_iff.1 (hh r))

theorem forM {ι : Type} {g : ι → StoreM Unit} {as : List ι} (h : ∀ a ∈ as, (g a).LeavesFiles) :
    (as.forM g).LeavesFiles :=
  leavesFiles_iff.2 (.forM fun a ha => leavesFiles_iff.1 (h a ha))

end LeavesFiles

end StoreM

end ClientStore
