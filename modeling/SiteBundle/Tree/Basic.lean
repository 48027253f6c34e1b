import SiteBundle.Failure
import SiteBundle.Text.SmallLetters

/-!
# The tree of a site

The files and folders of the source directory, and those that the bundler adds, are nodes with
numbers; node `0` is the source directory itself.  A node knows its name and its parent; the rest
follows:

* `Tree.children`       the nodes whose parent a folder is, in the order they were added;
* `Tree.descendants`    everything below a node, each folder before what is in it;
* `Tree.names`, `Tree.relativePath`, `Tree.place`   where a node is;
* `Tree.addFolder`, `Tree.addFile`   new nodes;
* `Tree.file`, `Tree.modifyFile`   the bookkeeping of a file.

A node is always added behind its parent, so parents have smaller numbers and all walks end.
-/

namespace SiteBundle

open Text

abbrev NodeId := Nat

abbrev BundleId := Nat

/-- the bookkeeping of a file -/
structure FileState where
  /-- the content it gets in the output, if that is not its own -/
  override : Option Text
  /-- referred to by markup that is not bundled -/
  necessary : Bool
  /-- the bundles it went into, ascending -/
  bundles : List BundleId
  /-- made by the bundler -/
  generated : Bool
deriving DecidableEq

/-- what a node is -/
inductive NodeKind where
  | folder
  | file (state : FileState)
deriving DecidableEq

/-- one file or folder -/
structure Node where
  name : Text
  parent : Option NodeId
  kind : NodeKind
deriving DecidableEq

/-- the nodes of a site and the place of the source directory -/
structure Tree where
  top : Place
  nodes : Array Node

namespace Tree

/-- the source directory -/
def root : NodeId := 0

def empty (top : Place) : Tree := ⟨top, #[⟨[], none, .folder⟩]⟩

def node? (t : Tree) (id : NodeId) : Option Node := t.nodes[id]?

def isFile (t : Tree) (id : NodeId) : Bool :=
  match t.node? id with
  | some ⟨_, _, .file _⟩ => true
  | _ => false

def isFolder (t : Tree) (id : NodeId) : Bool :=
  match t.node? id with
  | some ⟨_, _, .folder⟩ => true
  | _ => false

def parent? (t : Tree) (id : NodeId) : Option NodeId := (t.node? id).bind (·.parent)

/-! ## Children and descendants -/

/-- the nodes in a folder, in the order they were added -/
def children (t : Tree) (id : NodeId) : List NodeId :=
  if t.isFolder id then
    (List.range t.nodes.size).filter fun k => id < k && t.parent? k == some id
  else []

theorem lt_of_mem_children {t : Tree} {id k : NodeId} (h : k ∈ t.children id) :
    id < k ∧ k < t.nodes.size := by
  unfold children at h
  split at h
  · simp only [List.mem_filter, List.mem_range, Bool.and_eq_true, decide_eq_true_eq] at h
    exact ⟨h.2.1, h.1⟩
  · cases h

/-- everything below a node, each folder before what is in it -/
def descendants (t : Tree) (id : NodeId) : List NodeId :=
  (t.children id).attach.flatMap fun k => k.1 :: t.descendants k.1
termination_by t.nodes.size - id
decreasing_by
  have h : id < k.1 ∧ k.1 < t.nodes.size := lt_of_mem_children k.2
  exact Nat.sub_lt_sub_left (Nat.lt_trans h.1 h.2) h.1

def files (t : Tree) : List NodeId := (t.descendants root).filter t.isFile

/-- the first node of this name in a folder -/
def childNamed? (t : Tree) (folder : NodeId) (name : Text) : Option NodeId :=
  (t.children folder).find? fun k => (t.node? k).any (·.name == name)

/-! ## Where a node is -/

/-- the names on the way from the source directory -/
def names (t : Tree) (id : NodeId) : List Text :=
  match t.node? id with
  | none => []
  | some n =>
    match n.parent with
    | none => []
    | some p => if p < id then t.names p ++ [n.name] else [n.name]
termination_by id

/-- the nodes on the way from the source directory, both ends included -/
def ancestry (t : Tree) (id : NodeId) : List NodeId :=
  match t.parent? id with
  | none => [id]
  | some p => if p < id then t.ancestry p ++ [id] else [p, id]
termination_by id

def relativePath (t : Tree) (id : NodeId) : Text := join ['/'] (t.names id)

/-- the place on the disk -/
def place (t : Tree) (id : NodeId) : Place :=
  t.top ++ (splitOn '/' (t.relativePath id)).filter (!·.isEmpty)

/-! ## Adding nodes -/

/-- the tree with one more node, and its number -/
def add (t : Tree) (parent : NodeId) (name : Text) (kind : NodeKind) : Tree × NodeId :=
  ({ t with nodes := t.nodes.push ⟨name, some parent, kind⟩ }, t.nodes.size)

def addFolder (t : Tree) (parent : NodeId) (name : Text) : Tree × NodeId :=
  t.add parent name .folder

/-- a file found on the disk -/
def addSource (t : Tree) (parent : NodeId) (name : Text) : Tree × NodeId :=
  t.add parent name (.file ⟨none, false, [], false⟩)

/-- a file made by the bundler -/
def addFile (t : Tree) (parent : NodeId) (name content : Text) : Tree × NodeId :=
  t.add parent name (.file ⟨some content, false, [], true⟩)

/-! ## Files -/

def file (t : Tree) (id : NodeId) : Except Failure FileState :=
  match t.node? id with
  | none => .error (.of (.unknownNode id))
  | some ⟨_, _, .file s⟩ => .ok s
  | some _ => .error (.of (.internal ("node " ++ toString id ++ " is a directory, expected a file")))

/-- the tree with the bookkeeping of a file changed -/
def modifyFile (t : Tree) (id : NodeId) (f : FileState → FileState) : Except Failure Tree :=
  (t.file id).map fun s =>
    { t with nodes := t.nodes.modify id fun n => { n with kind := .file (f s) } }

def markNecessary (t : Tree) (id : NodeId) : Except Failure Tree :=
  t.modifyFile id fun s => { s with necessary := true }

/-- the number put into an ascending list, once -/
def insertId (id : BundleId) : List BundleId → List BundleId
  | [] => [id]
  | k :: r => if id < k then id :: k :: r else if id = k then k :: r else k :: insertId id r

def addMembership (t : Tree) (id : NodeId) (bundle : BundleId) : Except Failure Tree :=
  t.modifyFile id fun s => { s with bundles := insertId bundle s.bundles }

def setContent (t : Tree) (id : NodeId) (content : Text) : Except Failure Tree :=
  t.modifyFile id fun s => { s with override := some content }

/-- the source text of a file; malformed bytes are replaced -/
def readText (t : Tree) (disk : Disk) (id : NodeId) : Except Failure Text := do
  let s ← t.file id
  if s.generated then return s.override.getD []
  let place := t.place id
  let content ← during ("failed to read " ++ shown place.text) (onDisk (disk.readBytes place))
  return Utf8.lossyText content

/-! ## Kinds of files -/

/-- the extension of a name in small letters, with its dot; empty if there is none -/
def extensionOf (name : Text) : Text :=
  match ((pathSteps name).filter (!isIdle ·)).getLast? with
  | none => []
  | some last =>
    if last = ['.', '.'] then []
    else
      match (splitExtension last).2 with
      | some e => '.' :: smallLetters e
      | none => []

def extension (t : Tree) (id : NodeId) : Text := ((t.node? id).map fun n => extensionOf n.name).getD []

def isMarkup (extension : Text) : Bool :=
  extension == ".html".toList || extension == ".htm".toList || extension == ".php".toList

/-- documents with embedded blocks -/
def isPhp (extension : Text) : Bool := extension == ".php".toList

def isScript (extension : Text) : Bool := extension == ".js".toList || extension == ".mjs".toList

def isStyle (extension : Text) : Bool := extension == ".css".toList

end Tree
end SiteBundle
