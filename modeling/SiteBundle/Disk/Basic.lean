import SiteBundle.Disk.Place
import SiteBundle.Text.Utf8

/-!
# The disk

A disk is its folders and files, each at its place, and the directory that relative paths start
from.  The root is always a folder.  Reading does not change a disk; writing yields the changed disk
or the reason for refusing.

* `Disk.steps`       a path as steps from the root;
* `Disk.find`        follows steps, `..` included, through folders that are there;
* `Disk.locate`      the place that a path leads to;
* `Disk.readBytes`, `Disk.readText`   the content of a file;
* `Disk.makeFolder`, `Disk.createFolders`   a new folder, and one with the missing ones on the way;
* `Disk.writeFile`, `Disk.copyFile`   new files;
* `Disk.emptyFolder`, `Disk.removeFolder`   removing what a folder holds, and then the folder;
* `Disk.listing`     everything below a folder, parents first, by name.
-/

namespace SiteBundle

open Text

inductive DiskFault where
  | notFound
  | alreadyThere
  | notAFolder
  | isAFolder
  | invalidArgument
  | nameTooLong
  | nulInName
  | notText
  | notARegularFile
deriving DecidableEq, Repr

def DiskFault.message : DiskFault → String
  | .notFound => "No such file or directory (os error 2)"
  | .alreadyThere => "File exists (os error 17)"
  | .notAFolder => "Not a directory (os error 20)"
  | .isAFolder => "Is a directory (os error 21)"
  | .invalidArgument => "Invalid argument (os error 22)"
  | .nameTooLong => "File name too long (os error 36)"
  | .nulInName => "file name contained an unexpected NUL byte"
  | .notText => "stream did not contain valid UTF-8"
  | .notARegularFile =>
    "the source path is neither a regular file nor a symlink to a regular file"

inductive Entry where
  | folder
  | file (content : List UInt8)
deriving DecidableEq, Repr

/-- everything that is on the disk below its root -/
structure Disk where
  entries : List (Place × Entry)
  /-- the directory that relative paths start from -/
  cwd : Place

namespace Disk

def empty : Disk := ⟨[], []⟩

def get? (d : Disk) (p : Place) : Option Entry :=
  if p.isEmpty then some .folder else (d.entries.find? (·.1 == p)).map (·.2)

/-- the disk with an entry at a place, in the place of what was there -/
def put (d : Disk) (p : Place) (e : Entry) : Disk :=
  if (d.get? p).isSome then
    { d with entries := d.entries.map fun x => if x.1 == p then (p, e) else x }
  else { d with entries := d.entries ++ [(p, e)] }

def isFolder (d : Disk) (p : Place) : Bool := d.get? p == some .folder

def isFile (d : Disk) (p : Place) : Bool :=
  match d.get? p with
  | some (.file _) => true
  | _ => false

/-! ## Finding -/

/-- how many bytes a name may have -/
def maxName : Nat := 255

/-- how many bytes a path may have -/
def maxPath : Nat := 4095

def refused? (steps : List Text) : Option DiskFault :=
  if steps.any (·.contains '\x00') then some .nulInName
  else if maxPath < steps.foldr (fun name n => size name + 1 + n) 0 then some .nameTooLong
  else none

/-- one step from a place that is there -/
def findStep (d : Disk) (p : Place) (name : Text) : Except DiskFault Place :=
  if !d.isFolder p then .error .notAFolder
  else if isIdle name then .ok p
  else if name = ['.', '.'] then .ok p.dropLast
  else if maxName < size name then .error .nameTooLong
  else
    match d.get? (p ++ [name]) with
    | some _ => .ok (p ++ [name])
    | none => .error .notFound

/-- where steps from the root lead, if everything on the way is there -/
def find (d : Disk) (steps : List Text) : Except DiskFault Place :=
  match refused? steps with
  | some fault => .error fault
  | none => steps.foldlM d.findStep []

def steps (d : Disk) (path : Text) : List Text :=
  if isRooted path then pathSteps path else d.cwd ++ pathSteps path

/-- the place that a path leads to; the empty path leads nowhere -/
def locate (d : Disk) (path : Text) : Except DiskFault Place :=
  if path.isEmpty then .error .notFound else d.find (d.steps path)

def leadsTo (d : Disk) (path : Text) : Bool :=
  match d.locate path with
  | .ok _ => true
  | .error _ => false

/-- the content of the file that the steps lead to -/
def readBytes (d : Disk) (steps : List Text) : Except DiskFault (List UInt8) := do
  let p ← d.find steps
  match d.get? p with
  | some (.file content) => .ok content
  | _ => .error .isAFolder

/-- the content of a file that must be text -/
def readText (d : Disk) (steps : List Text) : Except DiskFault Text := do
  let content ← d.readBytes steps
  match Utf8.text? content with
  | some t => .ok t
  | none => .error .notText

/-! ## Changing -/

/-- steps without the empty one of a trailing slash -/
def dropSlash (steps : List Text) : List Text :=
  if steps.getLast? = some [] then steps.dropLast else steps

/-- the folder and the name that steps end with; the root has none -/
def target? (d : Disk) (steps : List Text) : Except DiskFault (Option (Place × Text)) :=
  match refused? steps, (dropSlash steps).getLast? with
  | some fault, _ => .error fault
  | none, none => .ok none
  | none, some name => do
    let p ← d.find (dropSlash steps).dropLast
    if d.isFolder p then .ok (some (p, name)) else .error .notAFolder

/-- makes a folder in a folder that is there -/
def makeFolder (d : Disk) (steps : List Text) : Except DiskFault Disk := do
  match ← d.target? steps with
  | none => .error .alreadyThere
  | some (p, name) =>
    if name = ['.'] ∨ name = ['.', '.'] then .error .alreadyThere
    else if maxName < size name then .error .nameTooLong
    else if (d.get? (p ++ [name])).isSome then .error .alreadyThere
    else .ok (d.put (p ++ [name]) .folder)

/-- steps without those at the end that stay where they are -/
def dropIdle (steps : List Text) : List Text := (steps.reverse.dropWhile isIdle).reverse

theorem length_dropIdle (steps : List Text) : (dropIdle steps).length ≤ steps.length := by
  have h : (steps.reverse.dropWhile isIdle).length ≤ steps.reverse.length :=
    (List.dropWhile_sublist isIdle).length_le
  rw [List.length_reverse] at h
  rw [dropIdle, List.length_reverse]
  exact h

/-- the steps to the folder that the last step starts from; those that stay are not looked at -/
def outerSteps (steps : List Text) : List Text := dropIdle (dropIdle steps).dropLast

theorem length_outerSteps {steps : List Text} (h : dropIdle steps ≠ []) :
    (outerSteps steps).length < steps.length := by
  have h1 := length_dropIdle (dropIdle steps).dropLast
  have h2 := length_dropIdle steps
  have h3 := List.length_pos_iff.mpr h
  rw [List.length_dropLast] at h1
  rw [outerSteps]
  omega

/-- makes a folder if there is none yet -/
def ensureFolder (d : Disk) (steps : List Text) : Disk × Except DiskFault Unit :=
  match d.makeFolder steps with
  | .ok d => (d, .ok ())
  | .error fault =>
    match d.find steps with
    | .ok p => (d, if d.isFolder p then .ok () else .error fault)
    | .error _ => (d, .error fault)

/-- makes the folder that the steps lead to, and the missing ones on the way, outer ones first.  A
folder cannot be made under the name `.`.  What was made before a failure stays. -/
def createFolders (d : Disk) (steps : List Text) : Disk × Except DiskFault Unit :=
  match d.ensureFolder steps with
  | (made, .error .notFound) =>
    if h : dropIdle steps = [] then (made, .error .notFound)
    else
      have : (outerSteps steps).length < steps.length := length_outerSteps h
      match d.createFolders (outerSteps steps) with
      | (made, .ok ()) => made.ensureFolder steps
      | failed => failed
  | done => done
termination_by steps.length

/-- writes a file into a folder that is there; a path with a trailing slash names no file -/
def writeFile (d : Disk) (steps : List Text) (content : List UInt8) : Except DiskFault Disk := do
  match ← d.target? steps with
  | none => .error .isAFolder
  | some (p, name) =>
    if steps.getLast? = some [] ∨ name = ['.'] ∨ name = ['.', '.'] then .error .isAFolder
    else if maxName < size name then .error .nameTooLong
    else if d.isFolder (p ++ [name]) then .error .isAFolder
    else .ok (d.put (p ++ [name]) (.file content))

/-- copies a file; the target is emptied before it is filled, so a file copied onto itself ends up
empty -/
def copyFile (d : Disk) (source target : List Text) : Except DiskFault Disk := do
  let p ← d.find source
  match d.get? p with
  | some (.file content) =>
    d.writeFile target (if (d.find target).toOption == some p then [] else content)
  | _ => .error .notARegularFile

/-- removes everything in the folder that the steps lead to -/
def emptyFolder (d : Disk) (steps : List Text) : Except DiskFault Disk := do
  let p ← d.find steps
  if !d.isFolder p then .error .notAFolder
  else .ok { d with entries := d.entries.filter fun x => !(x.1.within p && x.1 != p) }

/-- removes the empty folder that the steps lead to.  It cannot be removed under the name `.`, and one
that is no longer there needs no removal. -/
def removeFolder (d : Disk) (steps : List Text) : Except DiskFault Disk :=
  match d.find steps with
  | .error _ => .ok d
  | .ok p =>
    if (dropSlash steps).getLast? = some ['.'] then .error .invalidArgument
    else .ok { d with entries := d.entries.filter fun x => x.1 != p }

/-! ## Listing -/

/-- everything below a place with the names on the way from there, parents first, by name -/
def listing (d : Disk) (top : Place) : List (Place × Entry) :=
  ((d.entries.filter fun x => x.1.within top && x.1 != top).map fun x =>
    (x.1.drop top.length, x.2)).mergeSort fun a b => !Place.lt b.1 a.1

end Disk

end SiteBundle
