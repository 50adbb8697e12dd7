import ClientStore.Proofs.Command.Requests
import ClientStore.Proofs.Session.Runs

/-!
# Requests, one run of the program after the other

Every request is a run of the program of its own, and between the runs there are only the files.
What a run reports is nevertheless what the contents say, which all the runs before it have made of
an empty store. The arguments of a run are words, so they are read as the request they were written
for; the command then serves the request; and the report is what the command printed.

That the files keep the contents is an induction on the history, one run at a time.

## Main definitions

* `Request.arguments`, `Request.report` — the run of the program that a request is.
* `Request.worldAfter` — the world after a history of requests.

## Main results

* `Contents.IsKept.execute` — one run.
* `Request.isKept_worldAfter` — all runs.
* `Request.refines_contents` — what any run after any history reports.
-/

namespace ClientStore

open Invocation Grammar

/-! ### Requests as arguments -/

namespace Request

/-- The arguments that a request is written with, behind the option that names a root. -/
def arguments : Request → List Text
  | set name pairs => "set" :: name :: pairs
  | «show» name => ["show", name]
  | delete name => ["delete", name]
  | list => ["list"]
  | addHostKey hostname port keytype keydata => ["hostkey-add", hostname, port, keytype, keydata]
  | checkHostKey hostname port keytype keydata =>
    ["hostkey-check", hostname, port, keytype, keydata]

/-- What the program reports on a request. -/
def report (env : Environment) (root : Option Text) (r : Request) (w : World) : Report :=
  (execute env (rootArguments root ++ r.arguments) w).1

/-- The world after some requests, one run of the program each. -/
def worldAfter (env : Environment) (root : Option Text) (history : List Request) (w : World) :
    World :=
  history.foldl (fun w r => (execute env (rootArguments root ++ r.arguments) w).2) w

variable {env : Environment} {root : Option Text} {l : Layout} {w : World} {r q : Request}
  {history : List Request}

theorem fill_keyArguments {hostname port keytype keydata : Text}
    (h : ∀ t ∈ [hostname, port, keytype, keydata], IsArgument t)
    (hp : (Decimal.integer? port).isSome) :
    fill [word, integer, word, word] (asWords SwitchKey [hostname, port, keytype, keydata]) =
      .ok ([[hostname], [port], [keytype], [keydata]], 4, []) :=
  fill_cons rfl rfl (h hostname (by simp)).isWord
    (fill_cons rfl hp (h port (by simp)).isWord
      (fill_cons rfl rfl (h keytype (by simp)).isWord
        (fill_cons rfl rfl (h keydata (by simp)).isWord rfl)))

/-- **The arguments of a request are read as its command.** -/
theorem parse_arguments (hroot : ∀ t ∈ root, IsWord t) (ha : r.IsAdmissible l) :
    parse (rootArguments root ++ r.arguments) = .ok ⟨root.map some, [], 0, r.command⟩ := by
  cases r with
  | set name pairs =>
    obtain ⟨⟨hname, -⟩, hne, hpairs⟩ := ha
    have hw : ∀ t ∈ pairs, IsWord t := fun t ht => (hpairs t ht).1.isWord
    exact parse_of_words hroot (rfl : forms.lookup ("set" : Text) = some _)
      (List.forall_mem_cons.2 ⟨hname.isWord, hw⟩)
      (fill_cons rfl rfl hname.isWord (fill_last (by decide) hne (fun _ _ => rfl) hw))
  | «show» name =>
    exact parse_of_words hroot (rfl : forms.lookup ("show" : Text) = some _)
      (List.forall_mem_singleton.2 ha.1.isWord) (fill_cons rfl rfl ha.1.isWord rfl)
  | delete name =>
    exact parse_of_words hroot (rfl : forms.lookup ("delete" : Text) = some _)
      (List.forall_mem_singleton.2 ha.1.isWord) (fill_cons rfl rfl ha.1.isWord rfl)
  | list =>
    exact parse_of_words hroot (rfl : forms.lookup ("list" : Text) = some _) (List.forall_mem_nil _) rfl
  | addHostKey =>
    exact parse_of_words hroot (rfl : forms.lookup ("hostkey-add" : Text) = some _)
      (fun t ht => (ha.1 t ht).isWord) (fill_keyArguments ha.1 ha.2.2.2)
  | checkHostKey =>
    exact parse_of_words hroot (rfl : forms.lookup ("hostkey-check" : Text) = some _)
      (fun t ht => (ha.1 t ht).isWord) (fill_keyArguments ha.1 ha.2.2.2)

end Request

/-! ### One run -/

/-- A command without resources that ends well is all that a run amounts to. -/
theorem Invocation.run_of_command {env : Environment} {root : Option Text} {l : Layout}
    {command : Command} {w w' : World} {status : Nat} (hl : Layout.ofRoot env root = .ok l)
    (h : command.run ⟨l, .empty⟩ w = .ok status w') :
    (Invocation.mk (root.map some) [] 0 command).run env w = .ok status w' := by
  have hlayout : (Invocation.mk (root.map some) [] 0 command).layout env = .ok l := by
    rw [← hl]
    cases root <;> rfl
  have hattempt : (command.run ⟨l, .empty⟩).attempt w = .ok (.ok status) w' :=
    StoreM.attempt_of_ok h
  refine (StoreM.bind_lift_of_ok hlayout _ w).trans ?_
  exact StoreM.bind_of_ok hattempt _

/-- The report tells the exit status and the lines that a request is answered with. -/
def Report.Answers (report : Report) (c : Contents) (r : Request) : Prop :=
  ∃ status, report.ending = .exit status ∧ c.Says r status report.output

namespace Request

variable {env : Environment} {root : Option Text} {l : Layout} {c : Contents} {w : World}
  {r q : Request} {history : List Request}

/-- **One run of the program** answers the request and keeps what is stored after it. -/
theorem answers_of_isKept (hroot : ∀ t ∈ root, IsWord t) (hl : Layout.ofRoot env root = .ok l)
    (h : c.IsKept l w) (ha : r.IsAdmissible l) :
    (r.report env root w).Answers c r ∧ (c.apply r).IsKept l (worldAfter env root [r] w) := by
  have hstart : c.IsKept l { w with journal := [] } := h.congr rfl rfl
  obtain ⟨status, lines, w', hw', hout, hsays, hkept⟩ := hstart.serve (s := ⟨l, .empty⟩) ha
  have hrun := Invocation.run_of_command hl hw'
  have hexec : execute env (rootArguments root ++ r.arguments) w =
      (.ofEvents (Invocation.mk (root.map some) [] 0 r.command).threshold (.exit status) w'.journal,
        { w' with journal := w.journal ++ w'.journal }) := by
    rw [execute, parse_arguments hroot ha]
    show Invocation.execute env _ w = _
    rw [Invocation.execute, hrun]
  constructor
  · rw [report, hexec]
    refine ⟨status, rfl, ?_⟩
    show c.Says r status w'.output
    rwa [hout]
  · rw [worldAfter, List.foldl_cons, List.foldl_nil, hexec]
    exact hkept.congr rfl rfl

/-! ### All runs -/

theorem worldAfter_concat (env : Environment) (root : Option Text) (history : List Request)
    (r : Request) (w : World) :
    worldAfter env root (history ++ [r]) w =
      worldAfter env root [r] (worldAfter env root history w) :=
  List.foldl_append

/-- **Between the runs the files keep the contents.** -/
theorem isKept_worldAfter (hroot : ∀ t ∈ root, IsWord t) (hl : Layout.ofRoot env root = .ok l)
    (hp : l.IsPristine w) (hh : ∀ r ∈ history, r.IsAdmissible l) :
    (Contents.after history).IsKept l (worldAfter env root history w) := by
  induction history using List.reverseRecOn with
  | nil => exact Contents.isKept_empty hp
  | append_singleton history r ih =>
    have hkept := ih fun r' hr' => hh r' (List.mem_append_left _ hr')
    rw [Contents.after_concat, worldAfter_concat]
    exact (answers_of_isKept hroot hl hkept (hh r (by simp))).2

/-- **The program refines an abstract store.** After any history of requests that began without a
root, every request is answered from what is stored: of each profile the settings that it was set to
last, and the host keys in the order in which they were added. A request that does not concern
another one changes nothing in the answer to it. -/
theorem refines_contents (hroot : ∀ t ∈ root, IsWord t) (hl : Layout.ofRoot env root = .ok l)
    (hp : l.IsPristine w) (hh : ∀ r ∈ history, r.IsAdmissible l) (hq : q.IsAdmissible l) :
    (q.report env root (worldAfter env root history w)).Answers (Contents.after history) q ∧
      (∀ name es, (Contents.after history).profiles name = some es ↔
        ∃ before pairs later, history = before ++ .set name pairs :: later ∧
          pairs.filterMap Command.pair? = es ∧ ∀ r ∈ later, r.profile? ≠ some name) ∧
      (Contents.after history).hostKeys = history.filterMap hostKey? ∧
      ∀ r : Request, r.IsAdmissible l → ¬ r.Concerns q →
        (q.report env root (worldAfter env root (history ++ [r]) w)).ending =
          (q.report env root (worldAfter env root history w)).ending ∧
        r.SameLines q (q.report env root (worldAfter env root history w)).output
          (q.report env root (worldAfter env root (history ++ [r]) w)).output := by
  have hkept := isKept_worldAfter hroot hl hp hh
  obtain ⟨hanswers, -⟩ := answers_of_isKept hroot hl hkept hq
  refine ⟨hanswers, fun name es => Contents.profiles_after_eq_some_iff,
    Contents.hostKeys_after history, fun r hr hn => ?_⟩
  have hkept' := (answers_of_isKept hroot hl hkept hr).2
  rw [← worldAfter_concat] at hkept'
  obtain ⟨status', hending', hsays'⟩ := (answers_of_isKept hroot hl hkept' hq).1
  obtain ⟨status, hending, hsays⟩ := hanswers
  obtain ⟨rfl, hlines⟩ := hsays.same hn hsays'
  exact ⟨hending'.trans hending.symm, hlines⟩

/-- A profile is set in which a key comes twice, and a host key is added. -/
def sampleHistory : List Request :=
  [.set "a" ["k=1", "k=2"], .addHostKey "host" "22" "ssh-rsa" "AAAA"]

theorem isAdmissible_sampleHistory : ∀ r ∈ sampleHistory, r.IsAdmissible .sample := by
  rw [sampleHistory, List.forall_mem_cons, List.forall_mem_singleton]
  constructor
  · exact ⟨⟨by decide, _, SessionStore.isUsable_text⟩, by decide, by decide⟩
  · exact ⟨by decide, by decide, by decide, by decide⟩

/-- The last value of the key is shown. -/
theorem refines_contents_sampleHistory :
    ((Request.show "a").report ⟨"/home", none⟩ (some "store")
      (worldAfter ⟨"/home", none⟩ (some "store") sampleHistory .bare)).output =
        [("k=2" : Text)] := by
  have hl : Layout.ofRoot ⟨"/home", none⟩ (some "store") = .ok .sample := rfl
  have hname : (Request.show "a").IsAdmissible .sample :=
    (isAdmissible_sampleHistory _ List.mem_cons_self).1
  obtain ⟨⟨status, -, hsays⟩, -⟩ :=
    refines_contents (by decide) hl Layout.isPristine_sample isAdmissible_sampleHistory hname
  have hprofile : (Contents.after sampleHistory).profiles "a" =
      some [(("k" : Text), ("1" : Text)), ("k", "2")] := by decide
  generalize (report _ _ _ _).output = lines at hsays ⊢
  cases hsays with
  | unknown h =>
    rw [hprofile] at h
    contradiction
  | known h hkeys _ =>
    rw [hprofile] at h
    obtain rfl := Option.some.inj h
    have hone : OrderedMap.firstKeys [(("k" : Text), ("1" : Text)), ("k", "2")] = ["k"] := by decide
    rw [hone] at hkeys
    obtain rfl := List.perm_singleton.1 hkeys
    decide

end Request

end ClientStore
