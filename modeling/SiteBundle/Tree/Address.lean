import SiteBundle.Style.Reference
import SiteBundle.Tree.Basic

/-!
# Addresses within a site

References in markup are paths from the directory of the document, or from the source directory when
they begin with a slash; what follows a `?` or `#` does not matter.

* `Tree.resolve?`             the file that a reference names;
* `Tree.nodeAt?`              the node at a place on the disk;
* `Tree.pathFromDirectory?`   the shortest reference from a directory to a node.
-/

namespace SiteBundle

open Text

namespace Tree

/-- one step of a reference; there is nothing above the source directory -/
def stepTo? (t : Tree) (here : NodeId) (name : Text) : Option NodeId :=
  if name = [] ∨ name = ['.'] then some here
  else if name = ['.', '.'] then some ((t.parent? here).getD here)
  else t.childNamed? here name

/-- the file that a reference from directory `dir` names -/
def resolve? (t : Tree) (dir : NodeId) (reference : Text) : Option NodeId := do
  let path := trim (splitSuffix reference).1
  if path.isEmpty then none
  let start := if isRooted path then root else dir
  let found ← (splitOn '/' path).foldlM t.stepTo? start
  if t.isFile found then return found else none

/-- the node that steps from the root of the disk lead to -/
def nodeAt? (t : Tree) (steps : List Text) : Option NodeId :=
  let steps := steps.filter (!isIdle ·)
  if t.top.isPrefixOf steps then (steps.drop t.top.length).foldlM t.stepTo? root else none

/-- the shortest reference from directory `dir` to a node; `none` when a node on the way does not
exist -/
def pathFromDirectory? (t : Tree) (dir target : NodeId) : Option Text := do
  let (up, down) := dropCommonIds (t.ancestry dir) (t.ancestry ((t.parent? target).getD root))
  let lead := if up.isEmpty then [['.']] else up.map fun _ => ['.', '.']
  let names ← (down ++ [target]).mapM fun id => (t.node? id).map (·.name)
  return join ['/'] (lead ++ names)
where
  /-- what is left of two ways behind their common beginning -/
  dropCommonIds : List NodeId → List NodeId → List NodeId × List NodeId
    | a :: as, b :: bs => if a = b then dropCommonIds as bs else (a :: as, b :: bs)
    | as, bs => (as, bs)

/-- the shortest reference from the directory of one file to another node -/
def pathBetween? (t : Tree) (source target : NodeId) : Option Text :=
  t.pathFromDirectory? ((t.parent? source).getD root) target

end Tree
end SiteBundle
