import ClientStore.Text.Basic

/-!
# Paths

A path is a text taken apart: whether and how it is rooted, and its components. Repeated slashes
and the component `.` say nothing and are dropped when a path is read; `..` is kept, since what it
denotes depends on the file tree. Exactly two slashes at the front are a root of their own.

## Main definitions

* `Component`, `FilePath`, `FilePath.ofText`, `FilePath.toText`.
* `FilePath.append`, `FilePath.child` — a path seen from another one.
* `FilePath.parent` — a path without its last component.
* `FilePath.collapse` — a path without the detours that `..` makes.
-/

namespace ClientStore

/-- Where a path starts. -/
inductive Anchor where
  /-- At the working directory. -/
  | here
  /-- At the root. -/
  | root
  /-- At the root that is written with two slashes. -/
  | doubleRoot
  deriving DecidableEq, Repr

/-- The texts that are a component of a path by themselves. -/
def isComponent (t : Text) : Bool :=
  !t.isEmpty && t != [.ofChar '.'] && !t.contains (.ofChar '/')

/-- A component of a path. -/
structure Component where
  text : Text
  valid : isComponent text
  deriving DecidableEq

/-- The component that a text is, if it is one. -/
def Component.ofText? (t : Text) : Option Component :=
  if h : isComponent t then some ⟨t, h⟩ else none

/-- A path. -/
structure FilePath where
  anchor : Anchor
  components : List Component
  deriving DecidableEq

namespace FilePath

/-- The start of a path with so many slashes at the front. -/
def anchorOf (slashes : Nat) : Anchor :=
  if slashes = 0 then .here else if slashes = 2 then .doubleRoot else .root

/-- The path that a text denotes. -/
def ofText (t : Text) : FilePath where
  anchor := anchorOf (t.takeWhile (· = .ofChar '/')).length
  components := (t.pieces '/').filterMap Component.ofText?

/-- The components with a slash between any two. -/
def joined : List Component → Text
  | [] => []
  | [c] => c.text
  | c :: rest => c.text ++ (.ofChar '/' :: joined rest)

/-- The text of a path. -/
def toText (p : FilePath) : Text :=
  match p.anchor with
  | .here => if p.components.isEmpty then ['.'] else joined p.components
  | .root => '/' :: joined p.components
  | .doubleRoot => '/' :: '/' :: joined p.components

/-- The path `q` seen from `p`. -/
def append (p q : FilePath) : FilePath :=
  match q.anchor with
  | .here => { p with components := p.components ++ q.components }
  | _ => q

/-- The path that `t` denotes seen from `p`. -/
def child (p : FilePath) (t : Text) : FilePath := p.append (ofText t)

/-- The path without its last component. -/
def parent (p : FilePath) : FilePath := { p with components := p.components.dropLast }

/-- The component that leads back. -/
def isBack (c : Component) : Bool := c.text = Text.ofString ".."

/-- Some components, the last one first, with another one at their end. One that leads back takes
away the one before it; at the root there is nothing to lead back from. -/
def collapseStep (anchor : Anchor) (components : List Component) (c : Component) :
    List Component :=
  if !isBack c then c :: components
  else
    match components with
    | [] => if anchor = .here then [c] else []
    | d :: before => if isBack d then c :: d :: before else before

/-- The path in which every `..` takes away the component before it, whatever that denotes. -/
def collapse (p : FilePath) : FilePath :=
  { p with components := (p.components.foldl (collapseStep p.anchor) []).reverse }

end FilePath

end ClientStore
