import ClientStore.Text.Digit

/-!
# The grammar of arguments

Arguments are options, words and at most one separator `--`, after which everything is a word.
Options and words may be mixed. An option is named in full, by any beginning of a long name that
fits no other one, or, if its name is a single letter, in front of its value or of further letters.
The value of an option is the next argument, or it stands in the same one, behind an equals sign or
the single letter. Letters that stand behind an equals sign are letters all the same.

An argument that begins with a dash is a word all the same if it looks like a negative number or
holds a space and is no option. What looks like an option and is none is left over, and left over
arguments are refused in the end.

The words fill the places that a grammar has. The first separator among the arguments of a place or
of an option is dropped, also if it comes after the real one and is a word or if it is a value; what
has no other argument is then filled with nothing.

## Main definitions

* `Grammar`, `Switch`, `Extent`, `Slot` — what is expected.
* `Grammar.classify` — what an argument is.
* `Grammar.interpret` — what the arguments say.
-/

namespace ClientStore

/-- An option. -/
structure Switch (κ : Type) where
  key : κ
  /-- The names, with their dashes. -/
  names : List Text
  /-- Whether an argument belongs to it. -/
  takesValue : Bool

/-- How many arguments a place takes. -/
inductive Extent where
  /-- One word. -/
  | one
  /-- At least one word, and all words that follow. -/
  | many
  /-- A word and everything that follows, options included. -/
  | remainder
  deriving DecidableEq, Repr

/-- A place for words. -/
structure Slot where
  extent : Extent
  /-- The words that may stand there. -/
  accepts : Text → Bool

/-- What is expected of some arguments. -/
structure Grammar (κ : Type) where
  switches : List (Switch κ)
  slots : List Slot
  /-- The switch that asks for help. -/
  isHelp : κ → Bool

/-- What ends the reading of arguments early. -/
inductive Interruption where
  /-- Help was asked for. -/
  | help
  /-- The arguments are refused. -/
  | refused
  deriving DecidableEq, Repr

/-- An option as it was given. -/
structure Use (κ : Type) where
  switch : Switch κ
  /-- Whether its name is a single letter. -/
  short : Bool
  /-- What stands in the same argument, if anything does. -/
  attached : Option Text

/-- What an argument is. -/
inductive Mark (κ : Type) where
  | word
  | separator
  | use (u : Use κ)
  /-- It looks like an option. -/
  | unknown

/-- What some arguments say. -/
structure Matched (κ : Type) where
  /-- The options in order, with the arguments that are left to them. -/
  options : List (κ × List Text)
  /-- The words in the places that are filled. -/
  filled : List (List Text)
  /-- Whether something is left over. -/
  leftOver : Bool

namespace Grammar

variable {κ : Type}

/-! ## What an argument is -/

/-- The separator as it is given. -/
def separator : Text := "--"

/-- The switch with a name. -/
def switch? (g : Grammar κ) (name : Text) : Option (Switch κ) :=
  g.switches.find? (·.names.contains name)

/-- All names with their switches. -/
def named (g : Grammar κ) : List (Text × Switch κ) :=
  g.switches.flatMap fun s => s.names.map (·, s)

/-- The digits at the front of a text, of any script, and what follows them. -/
def digits (t : Text) : Text × Text := t.span fun c => c.digitValue?.isSome

/-- Whether a text is empty but for one line feed at most. -/
def isEnd (t : Text) : Bool := t = [] || t = [.ofChar '\n']

/-- Whether what follows a dash makes a number of the whole. -/
def isNumber (t : Text) : Bool :=
  let (whole, rest) := digits t
  (!whole.isEmpty && isEnd rest) ||
    match rest with
    | [] => false
    | point :: rest =>
      let (fraction, rest) := digits rest
      point = '.' && !fraction.isEmpty && isEnd rest

/-- Whether a name begins with one dash only. -/
def isShort (name : Text) : Bool := name[1]? != some (.ofChar '-')

/-- What an argument is that begins with a dash and is neither a name nor a name with a value. -/
def classifyOther (g : Grammar κ) (arg : Text) : Except Interruption (Mark κ) :=
  let candidates :=
    if isShort arg then
      (g.named.filter (·.1 = arg.take 2)).map fun (_, s) => Use.mk s true (some (arg.drop 2))
    else
      let (start, value) := match arg.cut? '=' with
        | some (start, value) => (start, some value)
        | none => (arg, none)
      (g.named.filter fun e => (Text.dropPrefix? start e.1).isSome).map fun (_, s) =>
        Use.mk s false value
  match candidates with
  | [] =>
    .ok (if isNumber arg.tail || arg.contains (.ofChar ' ') then .word else .unknown)
  | [u] => .ok (.use u)
  | _ :: _ :: _ => .error .refused

/-- What an argument is. -/
def classify (g : Grammar κ) (arg : Text) : Except Interruption (Mark κ) :=
  if arg.head? ≠ some (.ofChar '-') then .ok .word
  else
    match g.switch? arg with
    | some s => .ok (.use ⟨s, isShort arg, none⟩)
    | none =>
      if arg.length = 1 then .ok .word
      else
        match arg.cut? '=' with
        | none => g.classifyOther arg
        | some (name, value) =>
          match g.switch? name with
          | some s => .ok (.use ⟨s, isShort name, some value⟩)
          | none => g.classifyOther arg

/-- The arguments with what they are. -/
def marks (g : Grammar κ) : List Text → Except Interruption (List (Text × Mark κ))
  | [] => .ok []
  | arg :: rest =>
    if arg = separator then .ok ((arg, .separator) :: rest.map (·, .word))
    else do
      let mark ← g.classify arg
      return (arg, mark) :: (← g.marks rest)

/-! ## Options -/

/-- The arguments that are left of some: the first separator is dropped. -/
def withoutSeparator (args : List Text) : List Text := args.erase separator

/-- What the options in one argument say. -/
structure Letters (κ : Type) where
  /-- The options that are complete. -/
  complete : List (κ × List Text)
  /-- The option whose value is the next argument. -/
  open? : Option κ

/-- What an option says that stands alone or at the end of an argument. -/
def Letters.alone (s : Switch κ) : Letters κ :=
  if s.takesValue then ⟨[], some s.key⟩ else ⟨[(s.key, [])], none⟩

/-- What an option says that has its value in the same argument. -/
def Letters.valued (s : Switch κ) (value : Text) : Letters κ :=
  ⟨[(s.key, withoutSeparator [value])], none⟩

/-- What an option says that has `attached` behind its single letter: its value, or else further
letters, all of them names. -/
def letters (g : Grammar κ) (s : Switch κ) : (attached : Text) → Except Interruption (Letters κ)
  | [] => .ok (.alone s)
  | c :: rest =>
    if s.takesValue then .ok (.valued s (c :: rest))
    else
      match g.switch? [.ofChar '-', c] with
      | none => .error .refused
      | some next =>
        (g.letters next rest).map fun l => { l with complete := (s.key, []) :: l.complete }

/-- What the argument of an option says. -/
def read (g : Grammar κ) (u : Use κ) : Except Interruption (Letters κ) :=
  match u.attached with
  | none => .ok (.alone u.switch)
  | some value =>
    if u.switch.takesValue then .ok (.valued u.switch value)
    else if u.short && !value.isEmpty then g.letters u.switch value
    else .error .refused

/-! ## Places -/

/-- Whether an argument can stand in a place. -/
def Mark.isPlain : Mark κ → Bool
  | .word | .separator => true
  | _ => false

/-- Whether an argument is the separator. -/
def Mark.isSeparator : Mark κ → Bool
  | .separator => true
  | _ => false

/-- The number of arguments that a place takes from the front, if it can be filled. -/
def width? (extent : Extent) (args : List (Text × Mark κ)) : Option Nat :=
  let before := (args.takeWhile (Mark.isSeparator ·.2)).length
  match args.drop before with
  | (_, .word) :: rest =>
    some <| before + 1 + match extent with
      | .one => (rest.takeWhile (Mark.isSeparator ·.2)).length
      | .many => (rest.takeWhile (Mark.isPlain ·.2)).length
      | .remainder => rest.length
  | _ => none

/-- The words that fill a place. -/
def contents (slot : Slot) (args : List Text) : Except Interruption (List Text) :=
  if slot.extent = .remainder then .ok args
  else
    let words := withoutSeparator args
    if words.all slot.accepts then .ok words else .error .refused

/-- Fills as many places as possible from the front. Gives the words in them, the number of
arguments that were taken, and the places that are left. -/
def fill : List Slot → List (Text × Mark κ) →
    Except Interruption (List (List Text) × Nat × List Slot)
  | [], _ => .ok ([], 0, [])
  | slot :: slots, args =>
    match width? slot.extent args with
    | none => .ok ([], 0, slot :: slots)
    | some n => do
      let words ← contents slot ((args.take n).map (·.1))
      let (filled, taken, left) ← fill slots (args.drop n)
      return (words :: filled, n + taken, left)

/-! ## All arguments -/

/-- What is known after some of the arguments. -/
structure Progress (κ : Type) where
  slots : List Slot
  matched : Matched κ

/-- Takes some options, in order, up to the first that asks for help. -/
def takeOptions (g : Grammar κ) (p : Progress κ) (options : List (κ × List Text)) :
    Except Interruption (Progress κ) :=
  if options.any (g.isHelp ·.1) then .error .help
  else .ok { p with matched := { p.matched with options := p.matched.options ++ options } }

/-- Notes that something is left over. -/
def Progress.leave (p : Progress κ) (leftOver : Bool) : Progress κ :=
  { p with matched := { p.matched with leftOver := p.matched.leftOver || leftOver } }

/-- Fills places from the front of some arguments, and gives the number that was taken. -/
def fillSlots (p : Progress κ) (args : List (Text × Mark κ)) :
    Except Interruption (Nat × Progress κ) := do
  let (filled, taken, slots) ← fill p.slots args
  return (taken, { slots, matched := { p.matched with filled := p.matched.filled ++ filled } })

/-- Goes through the arguments. The fuel is the number of steps that are allowed; every step but the
last one takes an argument. -/
def run (g : Grammar κ) : (fuel : Nat) → Progress κ → List (Text × Mark κ) →
    Except Interruption (Progress κ)
  | 0, p, _ => .ok p
  | fuel + 1, p, args =>
    match args with
    | (_, .unknown) :: rest => g.run fuel (p.leave true) rest
    | (_, .use u) :: rest => do
      let l ← g.read u
      match l.open?, rest with
      | none, _ => g.run fuel (← g.takeOptions p l.complete) rest
      | some key, (value, .word) :: rest =>
        g.run fuel (← g.takeOptions p (l.complete ++ [(key, withoutSeparator [value])])) rest
      | some _, _ => .error .refused
    | _ => do
      let (taken, p) ← fillSlots p args
      let rest := args.drop taken
      if args.all (Mark.isPlain ·.2) then .ok (p.leave !rest.isEmpty)
      else if taken = 0 then
        g.run fuel (p.leave true) (args.dropWhile (Mark.isPlain ·.2))
      else g.run fuel p rest

/-- What some arguments say. All places have to be filled. -/
def interpret (g : Grammar κ) (args : List Text) : Except Interruption (Matched κ) := do
  let marked ← g.marks args
  let p ← g.run (args.length + 1) ⟨g.slots, ⟨[], [], false⟩⟩ marked
  if p.slots.isEmpty then .ok p.matched else .error .refused

end Grammar

end ClientStore
