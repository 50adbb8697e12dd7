import ClientStore.Proofs.Command.Output

/-!
# From a command to a run of the program

A run of the program finds the layout and looks at the resource strings before it comes to its
command. Neither touches the files, and either may fail. What then becomes of the command is the end
of the run: its exit status, a complaint about a file that was needed, or a failure that goes
through.

## Main definitions

* `Invocation.start`, `Invocation.store` — the world and the store that the command begins with.
* `Invocation.conclude` — what the result of the command makes of the run.

## Main results

* `Invocation.execute_eq_conclude` — a run that comes to its command.
* `Invocation.execute_cases` — any run.
-/

namespace ClientStore

deriving instance DecidableEq for Ending

theorem Resource.complain_eq (rejected : List Text) (w : World) :
    complain rejected w = .ok ()
      { w with journal := w.journal ++ rejected.map fun s => .logged .warning (complaint s) } := by
  induction rejected generalizing w with
  | nil => simp [complain, pure, EStateM.pure]
  | cons s rejected ih =>
    refine (StoreM.bind_of_ok (x := StoreM.log .warning (complaint s)) rfl _).trans ?_
    refine (ih _).trans ?_
    simp

namespace Invocation

variable {env : Environment} {i : Invocation} {l : Layout} {w : World}

/-! ### Before the command -/

/-- The resource strings that are looked at. -/
def strings (i : Invocation) : List Text := (i.resources.takeWhile Option.isSome).filterMap id

/-- The store that the command acts on. -/
def store (i : Invocation) (l : Layout) : SessionStore :=
  ⟨l, (ResourceTable.ofStrings i.strings none).1⟩

/-- The messages about the strings that are no resources. -/
def warnings (i : Invocation) : List Event :=
  (ResourceTable.ofStrings i.strings none).2.map fun s => .logged .warning (Resource.complaint s)

/-- The world in which the command begins. -/
def start (i : Invocation) (w : World) : World := { w with journal := i.warnings }

theorem output_start (i : Invocation) (w : World) : (i.start w).output = [] := by
  rw [World.output, start, warnings, List.filterMap_map]
  exact List.filterMap_eq_nil_iff.2 fun _ _ => rfl

theorem resourceTable_of_not_mem (h : none ∉ i.resources) (w : World) :
    i.resourceTable { w with journal := [] } = .ok (i.store l).resources (i.start w) := by
  have hall : i.resources.all Option.isSome = true := by
    refine List.all_eq_true.2 fun place hp => Option.isSome_iff_ne_none.2 ?_
    rintro rfl
    exact h hp
  rw [resourceTable]
  refine (StoreM.bind_of_ok (Resource.complain_eq _ _) _).trans ?_
  rw [hall, List.nil_append]
  rfl

theorem resourceTable_of_mem (h : none ∈ i.resources) (w : World) :
    i.resourceTable { w with journal := [] } =
      .error (.emptyArgument .resource) (i.start w) := by
  have hall : i.resources.all Option.isSome = false := List.all_eq_false.2 ⟨none, h, by decide⟩
  rw [resourceTable]
  refine (StoreM.bind_of_ok (Resource.complain_eq _ _) _).trans ?_
  rw [hall, List.nil_append]
  rfl

/-! ### After the command -/

/-- What the result of the command makes of the run that began in a world. -/
def conclude (i : Invocation) (w : World) : EStateM.Result Failure World Nat → Report × World
  | .ok status u =>
    (.ofEvents i.threshold (.exit status) u.journal, { u with journal := w.journal ++ u.journal })
  | .error (.store purpose path r) u =>
    let told := u.journal ++
      [.complained (complaintFront ++ (Failure.store purpose path r).message)]
    (.ofEvents i.threshold (.exit 1) told, { u with journal := w.journal ++ told })
  | .error f u =>
    (.ofEvents i.threshold (.failed f) u.journal, { u with journal := w.journal ++ u.journal })

/-- A failure that is no complaint about a file goes through. -/
theorem conclude_of_forall_ne {f : Failure} (hf : ∀ purpose path r, f ≠ .store purpose path r)
    (i : Invocation) (w u : World) :
    i.conclude w (.error f u) = (.ofEvents i.threshold (.failed f) u.journal,
      { u with journal := w.journal ++ u.journal }) := by
  cases f with
  | store purpose path r => exact absurd rfl (hf purpose path r)
  | _ => rfl

/-- **Only a command that ends with a status ends the run with it**, apart from the complaint about
a file that was needed. -/
theorem ending_conclude_eq_exit_iff {result : EStateM.Result Failure World Nat} {status : Nat} :
    (i.conclude w result).1.ending = .exit status ↔
      (∃ u, result = .ok status u) ∨
        status = 1 ∧ ∃ purpose path r u, result = .error (.store purpose path r) u := by
  cases result with
  | ok n u =>
    refine ⟨fun h => ?_, ?_⟩
    · injection h with h
      exact .inl ⟨u, by rw [h]⟩
    · rintro (⟨v, h⟩ | ⟨-, _, _, _, v, h⟩)
      · injection h with h
        rw [h]
        rfl
      · contradiction
  | error f u =>
    by_cases hf : ∃ purpose path r, f = .store purpose path r
    · obtain ⟨purpose, path, r, rfl⟩ := hf
      refine ⟨fun h => ?_, ?_⟩
      · injection h with h
        exact .inr ⟨h.symm, purpose, path, r, u, rfl⟩
      · rintro (⟨v, h⟩ | ⟨rfl, -⟩)
        · contradiction
        · rfl
    · have hne : ∀ purpose path r, f ≠ .store purpose path r := fun purpose path r he =>
        hf ⟨purpose, path, r, he⟩
      rw [conclude_of_forall_ne hne]
      refine iff_of_false nofun ?_
      rintro (⟨v, h⟩ | ⟨-, purpose, path, r, v, h⟩)
      · contradiction
      · injection h with h
        exact hne _ _ _ h

/-- **A run that comes to its command** is what becomes of the command. -/
theorem execute_eq_conclude (hl : i.layout env = .ok l) (hr : none ∉ i.resources) (w : World) :
    i.execute env w = i.conclude w (i.command.run (i.store l) (i.start w)) := by
  have hrun {result : Except Failure Nat} {u : World}
      (ha : (i.command.run (i.store l)).attempt (i.start w) = .ok result u) :
      i.run env { w with journal := [] } = _ :=
    ((StoreM.bind_lift_of_ok hl _ _).trans
      (StoreM.bind_of_ok (resourceTable_of_not_mem (l := l) hr w) _)).trans
      (StoreM.bind_of_ok ha _)
  cases hc : i.command.run (i.store l) (i.start w) with
  | ok status u =>
    rw [execute, hrun (StoreM.attempt_of_ok hc)]
    rfl
  | error f u =>
    have ha : (i.command.run (i.store l)).attempt (i.start w) = .ok (.error f) u := by
      rw [StoreM.attempt, hc]
    rw [execute, hrun ha]
    cases f <;> rfl

/-- **Any run of the program** fails before its command, or it is what becomes of the command. -/
theorem execute_cases (env : Environment) (i : Invocation) (w : World) :
    (∃ f, i.layout env = .error f ∧ i.execute env w = (⟨.failed f, [], []⟩, w)) ∨
    (∃ l, i.layout env = .ok l ∧ none ∈ i.resources ∧
      i.execute env w = i.conclude w (.error (.emptyArgument .resource) (i.start w))) ∨
    ∃ l, i.layout env = .ok l ∧ none ∉ i.resources ∧
      i.execute env w = i.conclude w (i.command.run (i.store l) (i.start w)) := by
  cases hl : i.layout env with
  | error f =>
    have hrun : i.run env { w with journal := [] } = .error f { w with journal := [] } :=
      StoreM.bind_of_error (StoreM.lift_of_error hl _) _
    refine .inl ⟨f, rfl, ?_⟩
    rw [execute, hrun]
    simp [Report.ofEvents]
  | ok l =>
    by_cases hr : none ∈ i.resources
    · have hrun : i.run env { w with journal := [] } =
          .error (.emptyArgument .resource) (i.start w) :=
        (StoreM.bind_lift_of_ok hl _ _).trans (StoreM.bind_of_error (resourceTable_of_mem hr w) _)
      refine .inr (.inl ⟨l, rfl, hr, ?_⟩)
      rw [execute, hrun]
      rfl
    · exact .inr (.inr ⟨l, rfl, hr, execute_eq_conclude hl hr w⟩)

/-- A run that ends with an exit status has come to its command. -/
theorem exists_of_ending_eq_exit {status : Nat}
    (h : (i.execute env w).1.ending = .exit status) :
    ∃ l, i.layout env = .ok l ∧ none ∉ i.resources ∧
      i.execute env w = i.conclude w (i.command.run (i.store l) (i.start w)) := by
  rcases execute_cases env i w with ⟨f, -, he⟩ | ⟨l, -, -, he⟩ | hrun
  · rw [he] at h
    contradiction
  · rw [he] at h
    contradiction
  · exact hrun

end Invocation

theorem execute_of_parse {args : List Text} {i : Invocation} (h : Invocation.parse args = .ok i)
    (env : Environment) (w : World) : execute env args w = i.execute env w := by
  rw [execute, h]

end ClientStore
