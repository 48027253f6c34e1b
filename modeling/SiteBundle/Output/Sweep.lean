import SiteBundle.Output.Plan
import SiteBundle.Tree.Arena

/-!
# Flags and a stack

What is pruned and what is planned, in passes over the tree.  Every node has a flag, which says that it
is left out.

* `Site.flagDropped`   a round of the pass down: the flags of what is left out for its own sake;
* `Site.flagEmptied`   a round of the pass back, in which a folder comes after all that is in it: the
  flags of folders in which nothing is left;
* `Site.flags`         the flags when both passes are over;
* `Site.emit`          a round of the loop that lists the entries, with the nodes that wait on a stack.

`Site.isPruned` and `Site.plan` say the same of one node and of the whole tree.
-/

namespace SiteBundle

/-- whether each node is left out -/
abbrev Flags := NodeId → Bool

def Flags.none : Flags := fun _ => false

def Flags.raise (flags : Flags) (id : NodeId) : Flags := fun k => k == id || flags k

/-- the nodes that wait, the next one first, and the entries so far -/
structure Emission where
  pending : List NodeId
  entries : List OutputEntry

namespace Site

def flagDropped (s : Site) (ignore keep : PathFilter) (flags : Flags) (id : NodeId) : Flags :=
  if s.isDropped ignore keep id then flags.raise id else flags

/-- files keep the flag they have, and so do folders that have theirs -/
def flagEmptied (s : Site) (flags : Flags) (id : NodeId) : Flags :=
  if s.tree.isFile id || flags id then flags
  else if (s.tree.children id).all flags then flags.raise id
  else flags

/-- the flags behind both passes; the source directory has none -/
def flags (s : Site) (ignore keep : PathFilter) : Flags :=
  let nodes := s.tree.descendants Tree.root
  let dropped := nodes.foldl (s.flagDropped ignore keep) .none
  if s.options.get .removeEmptyDirectories then nodes.reverse.foldl s.flagEmptied dropped else dropped

/-- the next node gets its entry, and what is in it comes before what else waits; a node with a flag
is passed over -/
def emit (s : Site) (flags : Flags) : Emission → Option Emission
  | ⟨[], _⟩ => none
  | ⟨id :: rest, entries⟩ =>
    if flags id then some ⟨rest, entries⟩
    else some ⟨s.tree.children id ++ rest, entries ++ [s.outputEntry id]⟩

end Site
end SiteBundle
