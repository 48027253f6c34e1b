import SiteBundle.Tree.Basic

/-!
# Reading the source directory

The tree of a source directory has a node for everything below it, folders before what is in them
and the entries of a folder by name.  Left out, with everything below: version control files and
desktop files if so wished, and one excluded place, such as an output directory inside the source.
-/

namespace SiteBundle

/-- what is left out of a tree -/
structure TreeFilter where
  ignoreGit : Bool
  ignoreDsStore : Bool
  /-- the path of something to leave out -/
  exclude : Option Text

namespace TreeFilter

/-- whether an entry of this name is left out -/
def refusesName (f : TreeFilter) (name : Text) : Bool :=
  (f.ignoreGit && (name == ".git".toList || name == ".gitignore".toList)) ||
    (f.ignoreDsStore && name == ".DS_Store".toList)

/-- whether an entry below `top`, given by its names from there, is left out; `excluded` is a place
to leave out -/
def refuses (f : TreeFilter) (top : Place) (excluded : Option Place) (names : Place) : Bool :=
  names.any f.refusesName ||
    match excluded with
    | some e => e != top && (top ++ names : Place).within e && e.within top
    | none => false

end TreeFilter

/-- a tree being read, with the numbers of the folders read so far -/
structure Scan where
  tree : Tree
  folders : List (Place × NodeId)

def Scan.add (s : Scan) (entry : Place × Entry) : Scan :=
  let parent := ((s.folders.find? (·.1 == entry.1.dropLast)).map (·.2)).getD Tree.root
  let name := entry.1.getLast?.getD []
  match entry.2 with
  | .folder =>
    let (tree, id) := s.tree.addFolder parent name
    ⟨tree, s.folders ++ [(entry.1, id)]⟩
  | .file _ => { s with tree := (s.tree.addSource parent name).1 }

/-- the tree of the source directory at the path `src` -/
def Tree.scan (disk : Disk) (src : Text) (filter : TreeFilter) : Except Failure Tree := do
  let top ← during ("source directory " ++ shown src ++ " not found") (onDisk (disk.locate src))
  let excluded := filter.exclude.bind fun e => (disk.locate e).toOption
  let entries := (disk.listing top).filter fun e => !filter.refuses top excluded e.1
  return (entries.foldl Scan.add ⟨.empty top, [([], root)]⟩).tree

end SiteBundle
