import ClientStore.Command.Run
import ClientStore.Proofs.Journal

/-!
# What a run writes to standard output

Only commands write to standard output, since the stores only log. What is on standard output after
a command is therefore what the command itself has printed, line by line.

## Main definitions

* `World.output`, `StoreM.IsSilent` — standard output, and the operations that do not write to it.
* `World.print` — the world after some lines were printed.
* `StoreM.printFound`, `StoreM.CanPrint` — to print what was found, and when that ends well.

## Main results

* `StoreM.OnlyLogs.isSilent` — operations that only log are silent.
* `StoreM.forM_of_print` — a loop that prints a line each time.
* `StoreM.forM_printFound`, `StoreM.canPrint_of_forM_ok` — a loop that prints what is found.
-/

namespace ClientStore

variable {α β : Type}

/-- What was written to standard output. -/
def World.output (w : World) : List Text := w.journal.filterMap Event.output?

/-! ### Silent operations -/

namespace StoreM

/-- The operation writes nothing to standard output. -/
abbrev IsSilent (x : StoreM α) : Prop := x.Preserves World.output

/-- Operations that only log write nothing to standard output. -/
theorem OnlyLogs.isSilent {x : StoreM α} (hx : x.OnlyLogs) : x.IsSilent :=
  hx.filterMap_journal fun _ _ => rfl

theorem isSilent_tell {e : Event} (h : e.output? = none) : (tell e).IsSilent := by
  intro w
  show (w.journal ++ [e]).filterMap Event.output? = _
  rw [List.filterMap_append, List.filterMap_cons_none h, List.filterMap_nil, List.append_nil]
  rfl

end StoreM

/-- Standard output takes the word for a verdict. -/
theorem HostKey.Verdict.hasSurrogate_word (v : HostKey.Verdict) : v.word.hasSurrogate = false := by
  cases v <;> decide

/-! ### Printing -/

/-- The world after some lines were printed. -/
def World.print (w : World) (lines : List Text) : World :=
  { w with journal := w.journal ++ lines.map .printed }

@[simp] theorem World.print_nil (w : World) : w.print [] = w := by
  simp [World.print]

@[simp] theorem World.print_print (w : World) (lines more : List Text) :
    (w.print lines).print more = w.print (lines ++ more) := by
  simp [World.print]

@[simp] theorem World.output_print (w : World) (lines : List Text) :
    (w.print lines).output = w.output ++ lines := by
  have hprinted : (lines.map Event.printed).filterMap Event.output? = lines := by
    rw [List.filterMap_map]
    exact List.filterMap_some
  rw [World.print, World.output, List.filterMap_append, hprinted, ← World.output]

namespace StoreM

theorem print_eq {line : Text} (h : line.hasSurrogate = false) (w : World) :
    print line w = .ok () (w.print [line]) := by
  rw [print, h]
  rfl

theorem print_of_hasSurrogate {line : Text} (h : line.hasSurrogate = true) (w : World) :
    print line w = .error .unencodable w := by
  rw [print, h]
  rfl

/-- A loop that prints a line each time prints them all. -/
theorem forM_of_print {f : α → StoreM Unit} {line : α → Text} {as : List α}
    (h : ∀ a ∈ as, ∀ w, f a w = .ok () (w.print [line a])) (w : World) :
    as.forM f w = .ok () (w.print (as.map line)) := by
  induction as generalizing w with
  | nil => exact congrArg (EStateM.Result.ok ()) w.print_nil.symm
  | cons a as ih =>
    have hrest := ih (fun b hb => h b (List.mem_cons_of_mem _ hb)) (w.print [line a])
    rw [World.print_print] at hrest
    exact (bind_of_ok (h a List.mem_cons_self w) _).trans hrest

/-! ### Printing what is found -/

/-- Prints the line that was found, if one was. -/
def printFound (found : Except Failure (Option Text)) : StoreM Unit := do
  match ← found with
  | some line => print line
  | none => return

/-- The search has not failed, and standard output takes what was found. -/
def CanPrint (found : Except Failure (Option Text)) : Prop :=
  ∃ line?, found = .ok line? ∧ ∀ line ∈ line?, line.hasSurrogate = false

@[simp] theorem canPrint_none : CanPrint (.ok none) := ⟨none, rfl, nofun⟩

@[simp] theorem canPrint_some {line : Text} :
    CanPrint (.ok (some line)) ↔ line.hasSurrogate = false := by
  constructor
  · rintro ⟨_, ⟨⟩, h⟩
    exact h line rfl
  · intro h
    exact ⟨_, rfl, fun _ hl => Option.some.inj hl ▸ h⟩

theorem not_canPrint_error {f : Failure} : ¬ CanPrint (.error f) := nofun

theorem printFound_eq {found : Except Failure (Option Text)} (h : CanPrint found) (w : World) :
    printFound found w = .ok () (w.print found.toOption.join.toList) := by
  obtain ⟨line?, rfl, hs⟩ := h
  cases line? with
  | none => exact congrArg (EStateM.Result.ok ()) w.print_nil.symm
  | some line => exact print_eq (hs line rfl) w

theorem exists_printFound_error {found : Except Failure (Option Text)} (h : ¬ CanPrint found)
    (w : World) : ∃ f, printFound found w = .error f w := by
  match found with
  | .error f => exact ⟨f, rfl⟩
  | .ok none => exact absurd canPrint_none h
  | .ok (some line) =>
    rw [canPrint_some, Bool.not_eq_false] at h
    exact ⟨_, print_of_hasSurrogate h w⟩

section Loop

variable {found : α → Except Failure (Option Text)} {as : List α}

/-- A loop prints everything that is found on the way, in order. -/
theorem forM_printFound (h : ∀ a ∈ as, CanPrint (found a)) (w : World) :
    as.forM (fun a => printFound (found a)) w =
      .ok () (w.print (as.filterMap fun a => (found a).toOption.join)) := by
  induction as generalizing w with
  | nil => exact congrArg (EStateM.Result.ok ()) w.print_nil.symm
  | cons a as ih =>
    rw [List.forall_mem_cons] at h
    have hrest := ih h.2 (w.print (found a).toOption.join.toList)
    rw [World.print_print] at hrest
    refine (bind_of_ok (printFound_eq h.1 w) _).trans (hrest.trans ?_)
    rw [List.filterMap_cons]
    cases (found a).toOption.join <;> rfl

/-- Nothing on the way may keep a loop from printing. -/
theorem canPrint_of_forM_ok {w w' : World}
    (h : as.forM (fun a => printFound (found a)) w = .ok () w') : ∀ a ∈ as, CanPrint (found a) := by
  induction as generalizing w with
  | nil => exact List.forall_mem_nil _
  | cons a as ih =>
    obtain ⟨_, u, ha, hrest⟩ := exists_of_bind_ok (x := printFound (found a)) h
    refine List.forall_mem_cons.2 ⟨?_, ih hrest⟩
    refine Classical.byContradiction fun hn => ?_
    obtain ⟨f, hf⟩ := exists_printFound_error hn w
    exact absurd (ha.symm.trans hf) (by simp)

end Loop

end StoreM

end ClientStore
