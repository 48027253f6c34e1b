import SiteBundle.Bundle.Handled
import SiteBundle.Output.Entry

/-!
# What reaches the output

Every node of the tree is either pruned or part of the output.

* What matches an ignore pattern is pruned, with everything below it; what matches a keep pattern is
  kept otherwise.
* Of the other files, scripts and stylesheets survive as the options say; files that the bundler made
  or handled on their own survive always, and so do all other files.
* A folder without anything in it is pruned if the options say so.

`Site.plan` lists what is left, every folder before what is in it.
-/

namespace SiteBundle

open Text

/-- whether an action keeps a file -/
def FileAction.keeps (state : FileState) : FileAction → Bool
  | .removeAll => false
  | .removeBundled => state.bundles.isEmpty
  | .keepAll => true
  | .keepNecessary => state.necessary

namespace Site

/-- what the options do with a source file; nothing for files that are neither scripts nor
stylesheets -/
def fileAction? (s : Site) (extension : Text) : Option FileAction :=
  if Tree.isScript extension then some (s.options.get .scriptFileAction)
  else if Tree.isStyle extension then some (s.options.get .cssFileAction)
  else none

def isHandled (s : Site) (id : NodeId) : Bool :=
  s.bundles.any fun b => b.provenance == .individual && b.node == some id

/-- whether a file survives without a pattern that says so -/
def survives (s : Site) (id : NodeId) (state : FileState) : Bool :=
  state.generated || s.isHandled id ||
    match s.fileAction? (s.tree.extension id) with
    | none => true
    | some action => action.keeps state

/-- whether a node is left out for its own sake -/
def isDropped (s : Site) (ignore keep : PathFilter) (id : NodeId) : Bool :=
  let path := s.tree.relativePath id
  if ignore.accepts path then true
  else if keep.accepts path then false
  else
    match s.tree.file id with
    | .ok state => !s.survives id state
    | .error _ => false

/-- whether a node is left out, be it because it is a folder in which nothing is left -/
def isPruned (s : Site) (ignore keep : PathFilter) (id : NodeId) : Bool :=
  s.isDropped ignore keep id ||
    (s.options.get .removeEmptyDirectories && s.tree.isFolder id &&
      (s.tree.children id).attach.all fun k => s.isPruned ignore keep k.1)
termination_by s.tree.nodes.size - id
decreasing_by
  have h : id < k.1 ∧ k.1 < s.tree.nodes.size := Tree.lt_of_mem_children k.2
  exact Nat.sub_lt_sub_left (Nat.lt_trans h.1 h.2) h.1

def outputEntry (s : Site) (id : NodeId) : OutputEntry :=
  let path := s.tree.relativePath id
  match s.tree.file id with
  | .error _ => .folder path
  | .ok state =>
    match state.override with
    | some content => .write path content
    | none => .copy path (Place.text (s.tree.place id))

/-- the entries below a folder, every folder before what is in it -/
def planBelow (s : Site) (ignore keep : PathFilter) (id : NodeId) : List OutputEntry :=
  (s.tree.children id).attach.flatMap fun k =>
    if s.isPruned ignore keep k.1 then []
    else s.outputEntry k.1 :: s.planBelow ignore keep k.1
termination_by s.tree.nodes.size - id
decreasing_by
  have h : id < k.1 ∧ k.1 < s.tree.nodes.size := Tree.lt_of_mem_children k.2
  exact Nat.sub_lt_sub_left (Nat.lt_trans h.1 h.2) h.1

/-- everything that reaches the output -/
def plan (s : Site) (ignore keep : PathFilter) : List OutputEntry :=
  s.planBelow ignore keep Tree.root

end Site
end SiteBundle
