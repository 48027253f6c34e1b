import SiteBundle.CommandLine

/-!
# The program on a real disk

The outer layer: it reads what a run may need from the disk, runs the program on that, and carries
out on the disk what the run changed.
-/

namespace SiteBundle

def Place.system (p : Place) : String := shown (Place.text p)

/-- everything below a real directory -/
partial def readBelow (p : Place) : IO (List (Place × Entry)) := do
  let dir := (← IO.currentDir) / p.system
  let mut found := []
  for e in ← dir.readDir do
    let here : Place := p ++ [e.fileName.toList]
    if ← e.path.isDir then
      found := found ++ (here, .folder) :: (← readBelow here)
    else
      found := found ++ [(here, .file (← IO.FS.readBinFile e.path).toList)]
  return found

/-- a disk with what is really there at a path, with all that is below it if `whole` -/
def Disk.withReal (d : Disk) (path : Text) (whole : Bool) : IO Disk := do
  let p := Place.normalised [] (d.steps path)
  let real := (← IO.currentDir) / p.system
  if !(← real.pathExists) then return d
  let above := (List.range p.length).map fun n => (p.take n, Entry.folder)
  let here ←
    if ← real.isDir then
      pure ((p, Entry.folder) :: (← if whole then readBelow p else pure []))
    else pure [(p, Entry.file (← IO.FS.readBinFile real).toList)]
  return (above ++ here).foldl (fun d e => if e.1.isEmpty then d else d.put e.1 e.2) d

/-- makes the real disk, which was like `before`, like `after` -/
def Disk.carryOut (before after : Disk) : IO Unit := do
  for (p, e) in before.entries.reverse do
    if after.get? p != some e then
      match e with
      | .folder => IO.FS.removeDir p.system
      | .file _ => IO.FS.removeFile p.system
  for (p, e) in after.entries do
    if before.get? p != some e then
      match e with
      | .folder => IO.FS.createDirAll p.system
      | .file content => IO.FS.writeBinFile p.system ⟨content.toArray⟩

/-- an environment with the real values of the variables that matter -/
def realEnvironment : IO Environment := do
  let names := ["XDG_CONFIG_HOME", "HOME", "TAGPACK_SRC", "TAGPACK_DIST"]
  let values ← names.mapM fun name => do
    return (name.toList, (← IO.getEnv name).map (·.toList))
  return fun name => (values.find? (·.1 == name)).bind (·.2)

/-- the disk as far as a run with these arguments may need it -/
def realDisk (args : List Text) (env : Environment) : IO Disk := do
  let cwd := Place.normalised [] (pathSteps (← IO.currentDir).toString.toList)
  let d : Disk := ⟨[], cwd⟩
  match Arguments.read args with
  | .error _ => return d
  | .ok a =>
    let mut d ← d.withReal (Place.text cwd) false
    for file in (optionSources a env cwd).files do
      d ← d.withReal file false
    match Program.options a env d with
    | .error _ => return d
    | .ok o =>
      if let some path := a.values .manifest then
        d ← d.withReal (joinPath path "..".toList) false
        d ← d.withReal path false
      d ← d.withReal (o.get .src) true
      d.withReal (o.get .dist) true

end SiteBundle

open SiteBundle in
def main (args : List String) : IO UInt32 := do
  let args := args.map String.toList
  let env ← realEnvironment
  let before ← realDisk args env
  let seed := (← IO.getRandomBytes 8).toList.foldl (fun n b => n * 256 + b.toNat) 0
  let outcome := Program.run args env before fun n => (seed + n * 0x9E3779B97F4A7C15) % Nat.pow 16 12
  before.carryOut outcome.disk
  IO.print outcome.stdout
  IO.eprint outcome.stderr
  return outcome.status.toUInt32
