import SiteBundle.Tree.Basic

/-!
# Trees whose folders keep lists

A `Tree` finds the children of a folder by the parents of the nodes.  An `Arena` keeps both: every node
has its parent, and every folder has the list of its children, which grows at its end when a node is
added to the folder.  The walks through an arena are loops; each is given by one round, which tells the
next state, or that there is none (`Halts` is the whole loop).

* `Arena.add`         a node added and put on the list of its parent;
* `Arena.visit`       a round of the walk down, with the nodes still to visit on a stack;
* `Arena.climb`       a round of the walk up that collects numbers;
* `Arena.climbNames`  a round of the walk up that collects names;
* `Arena.toTree`      the same tree without the lists.
-/

namespace SiteBundle

/-- what a node of an arena is -/
inductive Content where
  | folder (children : List NodeId)
  | file (state : FileState)
deriving DecidableEq

/-- one file or folder of an arena -/
structure Cell where
  name : Text
  parent : Option NodeId
  content : Content
deriving DecidableEq

structure Arena where
  top : Place
  cells : Array Cell

namespace Cell

/-- a number put at the end of the list of a folder; a file has no list -/
def attach (child : NodeId) (c : Cell) : Cell :=
  match c.content with
  | .folder children => { c with content := .folder (children ++ [child]) }
  | .file _ => c

/-- the bookkeeping of a file changed; a folder has none -/
def note (f : FileState → FileState) (c : Cell) : Cell :=
  match c.content with
  | .folder _ => c
  | .file state => { c with content := .file (f state) }

/-- the node without its list -/
def toNode (c : Cell) : Node :=
  ⟨c.name, c.parent, match c.content with
    | .folder _ => .folder
    | .file state => .file state⟩

end Cell

namespace Arena

def empty (top : Place) : Arena := ⟨top, #[⟨[], none, .folder []⟩]⟩

def parent? (a : Arena) (id : NodeId) : Option NodeId := (a.cells[id]?).bind (·.parent)

/-- the list of a folder; nothing for a file -/
def children (a : Arena) (id : NodeId) : List NodeId :=
  match a.cells[id]? with
  | some ⟨_, _, .folder children⟩ => children
  | _ => []

def isFolder (a : Arena) (id : NodeId) : Bool :=
  match a.cells[id]? with
  | some ⟨_, _, .folder _⟩ => true
  | _ => false

def isFile (a : Arena) (id : NodeId) : Bool :=
  match a.cells[id]? with
  | some ⟨_, _, .file _⟩ => true
  | _ => false

/-! ## Adding nodes -/

/-- the arena with one more node, which its parent lists, and its number -/
def add (a : Arena) (parent : NodeId) (name : Text) (content : Content) : Arena × NodeId :=
  ({ a with
      cells := (a.cells.push ⟨name, some parent, content⟩).modify parent (Cell.attach a.cells.size) },
    a.cells.size)

def addFolder (a : Arena) (parent : NodeId) (name : Text) : Arena × NodeId :=
  a.add parent name (.folder [])

/-- a file found on the disk -/
def addSource (a : Arena) (parent : NodeId) (name : Text) : Arena × NodeId :=
  a.add parent name (.file ⟨none, false, [], false⟩)

/-- a file made by the bundler -/
def addFile (a : Arena) (parent : NodeId) (name content : Text) : Arena × NodeId :=
  a.add parent name (.file ⟨some content, false, [], true⟩)

/-- the arena with the bookkeeping of a file changed -/
def note (a : Arena) (id : NodeId) (f : FileState → FileState) : Arena :=
  { a with cells := a.cells.modify id (Cell.note f) }

/-! ## Walks -/

/-- the nodes still to visit, the next one first, and those visited so far -/
structure Visit where
  todo : List NodeId
  done : List NodeId

/-- the next node is visited, and its children come before what else is to visit -/
def visit (a : Arena) : Visit → Option Visit
  | ⟨[], _⟩ => none
  | ⟨next :: rest, done⟩ => some ⟨a.children next ++ rest, done ++ [next]⟩

/-- where a walk up is, and what it has collected, the last first -/
structure Climb (α : Type) where
  here : Option NodeId
  path : List α

/-- up to the parent, with the number collected -/
def climb (a : Arena) : Climb NodeId → Option (Climb NodeId)
  | ⟨none, _⟩ => none
  | ⟨some id, path⟩ => some ⟨a.parent? id, id :: path⟩

/-- up to the parent, with the name collected; the source directory has none to collect -/
def climbNames (a : Arena) (s : Climb Text) : Option (Climb Text) :=
  (s.here.bind fun id => a.cells[id]?).map fun c =>
    ⟨c.parent, if c.parent.isSome then c.name :: s.path else s.path⟩

/-! ## Without the lists -/

def toTree (a : Arena) : Tree := ⟨a.top, a.cells.map Cell.toNode⟩

end Arena

/-- the loop with this round, begun in the first state, ends in the second -/
inductive Halts {σ : Type} (round : σ → Option σ) : σ → σ → Prop where
  | stop {s : σ} (h : round s = none) : Halts round s s
  | next {s s' s'' : σ} (h : round s = some s') (rest : Halts round s' s'') : Halts round s s''

end SiteBundle
