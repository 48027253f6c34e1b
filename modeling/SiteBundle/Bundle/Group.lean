import SiteBundle.Bundle.Asset

/-!
# Groups: assets that become one element

Within a segment the deferred assets move behind the others (`deferLast`), and neighbours that may
share a bundle form a group.

* An absolute reference is a group of its own, and so is a module, and so is an asynchronous script.
* A module whose file was in the document before is left out.
* Other scripts share a group as long as they agree on being deferred.
* Stylesheets share a group up to the next absolute reference.
-/

namespace SiteBundle

inductive GroupKind where
  /-- an absolute reference, written anew -/
  | standalone
  /-- a module with everything it imports -/
  | module
  /-- the code of all members, one behind the other -/
  | merged (deferred async : Bool)
deriving DecidableEq, Repr

structure Group where
  kind : GroupKind
  members : List Asset

/-- the deferred assets behind the others, both in their order -/
def deferLast (assets : List Asset) : List Asset :=
  assets.filter (fun a => !a.deferred) ++ assets.filter (·.deferred)

/-- the group of the assets gathered so far, if there are any -/
def gathered : List Asset → List Group
  | [] => []
  | a :: r => [⟨.merged a.deferred false, a :: r⟩]

/-- the groups of scripts behind those gathered in `run`, and the files of the modules seen, `seen`
of them before -/
def scriptGroups (seen : List NodeId) (run : List Asset) : List Asset → List Group × List NodeId
  | [] => (gathered run, seen)
  | a :: r =>
    if a.source.isAbsolute then
      let (groups, seen) := scriptGroups seen [] r
      (gathered run ++ ⟨.standalone, [a]⟩ :: groups, seen)
    else if a.module then
      match a.source.file? with
      | none =>
        let (groups, seen) := scriptGroups seen [] r
        (gathered run ++ ⟨.module, [a]⟩ :: groups, seen)
      | some file =>
        if seen.contains file then
          let (groups, seen) := scriptGroups seen [] r
          (gathered run ++ groups, seen)
        else
          let (groups, seen) := scriptGroups (file :: seen) [] r
          (gathered run ++ ⟨.module, [a]⟩ :: groups, seen)
    else if a.async then
      let (groups, seen) := scriptGroups seen [] r
      (gathered run ++ ⟨.merged false true, [a]⟩ :: groups, seen)
    else if run.head?.any fun b => b.deferred != a.deferred then
      let (groups, seen) := scriptGroups seen [a] r
      (gathered run ++ groups, seen)
    else scriptGroups seen (run ++ [a]) r

/-- the groups of stylesheets behind those gathered in `run` -/
def sheetGroups (run : List Asset) : List Asset → List Group
  | [] => gathered run
  | a :: r =>
    if a.source.isAbsolute then gathered run ++ ⟨.standalone, [a]⟩ :: sheetGroups [] r
    else sheetGroups (run ++ [a]) r

/-- the groups of assets in their order, and the files of the modules seen -/
def Family.groups (seen : List NodeId) (assets : List Asset) : Family → List Group × List NodeId
  | .script => scriptGroups seen [] assets
  | .style => (sheetGroups [] assets, seen)

/-- the groups of several runs of assets, each with the deferred ones last; a module counts as
repeated in the later runs too -/
def Family.groupsOf (f : Family) (seen : List NodeId) : List (List Asset) → List (List Group)
  | [] => []
  | assets :: r =>
    let (groups, seen) := f.groups seen (deferLast assets)
    groups :: f.groupsOf seen r

end SiteBundle
