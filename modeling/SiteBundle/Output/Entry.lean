import SiteBundle.Failure

/-!
# Writing the output

The output is planned as a list of entries before anything is written, and then takes the place of
the output directory.

* `OutputEntry`       one folder or file of the output;
* `ensureSeparate`    refuses an output directory that holds the source;
* `replaceOutput`     clears the output directory and writes the entries in order.

Writing stops at the first entry that the disk refuses; what was written before stays.
-/

namespace SiteBundle

open Text

/-- one folder or file of the output, with its path from the output directory -/
inductive OutputEntry where
  | folder (path : Text)
  | write (path content : Text)
  /-- a copy of the file at the path `source` -/
  | copy (path source : Text)
deriving DecidableEq

namespace OutputEntry

def path : OutputEntry → Text
  | .folder path => path
  | .write path _ => path
  | .copy path _ => path

def isFolder : OutputEntry → Bool
  | .folder _ => true
  | _ => false

def fileCount (entries : List OutputEntry) : Nat := (entries.filter fun e => !e.isFolder).length

end OutputEntry

/-- refuses an output directory that is or holds what must not be removed; one of them not being
there is no danger -/
def ensureSeparate (d : Disk) (dist protect : Text) : Except Failure Unit :=
  match d.locate dist, d.locate protect with
  | .ok top, .ok p => if p.within top then .error (.of (.wouldDeleteSource top)) else .ok ()
  | _, _ => .ok ()

/-- changes of the disk; what was changed before a failure stays changed -/
abbrev Writing := ExceptT Failure (StateM Disk)

namespace Writing

/-- one change, which messages call by the activity -/
def change (activity : String) (f : Disk → Except DiskFault Disk) : Writing Unit := do
  let d ← get
  match f d with
  | .ok d => set d
  | .error fault => throw ((Failure.of (.disk fault)).within activity)

/-- makes the folder at a path, and the missing ones on the way -/
def createFolders (activity : String) (path : Text) : Writing Unit := do
  let d ← get
  let (made, result) := d.createFolders (d.steps path)
  set made
  match result with
  | .ok () => return
  | .error fault => throw ((Failure.of (.disk fault)).within activity)

def entry (dist : Text) (e : OutputEntry) : Writing Unit := do
  let target := joinPath dist e.path
  match e with
  | .folder _ =>
    createFolders ("failed to create " ++ shown target) target
  | .write _ content =>
    change ("failed to write " ++ shown target) fun d =>
      d.writeFile (d.steps target) (Utf8.bytes content)
  | .copy _ source =>
    change ("failed to copy " ++ shown source ++ " to " ++ shown target) fun d =>
      d.copyFile (d.steps source) (d.steps target)

/-- an empty output directory -/
def freshFolder (dist : Text) : Writing Unit := do
  if (← get).leadsTo dist then
    let activity := "failed to clear output directory " ++ shown dist
    change activity fun d => d.emptyFolder (d.steps dist)
    change activity fun d => d.removeFolder (d.steps dist)
  createFolders ("failed to create output directory " ++ shown dist) dist

end Writing

/-- the entries in the place of the output directory -/
def replaceOutput (dist protect : Text) (entries : List OutputEntry) : Writing Unit := do
  match ensureSeparate (← get) dist protect with
  | .error f => throw f
  | .ok () =>
    Writing.freshFolder dist
    entries.forM (Writing.entry dist)

end SiteBundle
