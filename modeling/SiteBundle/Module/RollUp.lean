import SiteBundle.Failure
import SiteBundle.Module.Export

/-!
# Rolling up modules

A module and everything it imports become one classic script.  Every module runs in a function of
its own, which returns an object with its exports; the object is held by a variable with the number
of the module, and imports become variables that read from it.  A module comes behind all that it
imports, and comes once.

* `locate?`          the file that an address names;
* `bindings`         the variables that an import makes;
* `RollUp.module`    one module with everything it imports;
* `rollUpFile`, `rollUpInline`   a whole script.

Modules are entered depth first.  A module that is entered again while it is still open closes a
circle, which is refused; so the number of files that may still be entered falls with the depth.
-/

namespace SiteBundle

open Text

/-- a finished module: the variable that holds its exports, and their names -/
structure ModuleScope where
  binding : Text
  exports : List Text

/-- what has been rolled up so far -/
structure RollUp where
  scopes : List (Place × ModuleScope)
  /-- their code, in the order they were finished -/
  chunks : List Text
  /-- their files, in the same order -/
  files : List Place
  /-- the number of the next module -/
  next : Nat

/-- a script made of modules -/
structure RolledUp where
  code : Text
  files : List Place

/-! ## Finding modules -/

/-- the places an address may mean, in the order they are tried -/
def candidates (base : Place) (specifier : Text) : List Place :=
  let place := Place.normalised [] (base ++ splitOn '/' specifier)
  [place, place.withExtension "js".toList, place.withExtension "mjs".toList,
    place ++ ["index.js".toList]]

/-- the file that an address names; only relative addresses name files -/
def locate? (disk : Disk) (base : Place) (specifier : Text) : Option Place :=
  if hasLead "./".toList specifier || hasLead "../".toList specifier then
    (candidates base specifier).find? disk.isFile
  else none

/-! ## Bindings -/

def moduleVariable (id : Nat) : Text := "__mod_".toList ++ (toString id).toList

def defaultVariable (id : Nat) : Text := "__default_".toList ++ (toString id).toList

/-- the default part of a clause and what stands between its braces, if it has any -/
def splitClause (clause : Text) : Except (Option Cause) (Text × Option Text) :=
  match cutAt? '\x7b' clause with
  | none => .ok (clause, none)
  | some (before, behind) =>
    if behind.contains '\x7d' then
      let inside := (behind.reverse.dropWhile (· != '\x7d')).drop 1 |>.reverse
      .ok (trim (trimEndBy (· == ',') (trim before)), some inside)
    else if before.contains '\x7d' then .error (some .outOfBounds)
    else .error none

/-- a variable that reads an export -/
def bindingText (scope : ModuleScope) (name variable_ : Text) : Text :=
  "var ".toList ++ variable_ ++ " = ".toList ++ scope.binding ++ '.' :: name ++ [';']

/-- the variables that an import makes of the exports of a module -/
def bindings (scope : ModuleScope) (importer : Place) (i : Import) : Except Failure Text := do
  let clause := trim i.clause
  if clause.isEmpty then return []
  let unsupported (statement : Text) : Failure := .of (.unsupportedStatement importer statement)
  let bind (name variable_ : Text) : Except Failure Text :=
    if scope.exports.contains name then .ok (bindingText scope name variable_)
    else .error (unsupported
      ('\'' :: i.specifier ++ "' has no export '".toList ++ name ++ ['\'']))
  let (whole, named) ← match splitClause clause with
    | .ok parts => pure parts
    | .error (some cause) => throw (.of cause)
    | .error none => throw (unsupported i.statement)
  if whole.head? == some '*' then throw (unsupported i.statement)
  if !whole.isEmpty && !isIdentifier whole then throw (unsupported i.statement)
  let first ← if whole.isEmpty then pure [] else (bind defaultName whole).map ([·])
  let names := ((named.map (splitOn ',')).getD []).map splitAlias
  let others ← (names.filter (!·.1.isEmpty)).mapM fun n => bind n.1 n.2
  return join ['\n'] (first ++ others)

/-! ## Modules -/

/-- the object that a module returns -/
def returnText (exports : Exports) : Text :=
  if exports.isEmpty then "return \x7b\x7d;".toList
  else
    "return \x7b ".toList ++ join ", ".toList (exports.map fun e => e.1 ++ ": ".toList ++ e.2) ++
      " \x7d;".toList

/-- the code of a module in a function of its own -/
def scopeText (binding code : Text) (exports : Exports) : Text :=
  join ['\n'] ["var ".toList ++ binding ++ " = (function () \x7b".toList, "\"use strict\";".toList,
    code, returnText exports, "\x7d)();".toList]

/-- a module whose imports are replaced, closed -/
def RollUp.close (s : RollUp) (path : Place) (id : Nat) (code : Text) :
    Except Failure (Text × RollUp) :=
  match withoutExports code (defaultVariable id) with
  | .error statement => .error (.of (.unsupportedStatement path statement))
  | .ok (code, exports) =>
    let scope := ⟨moduleVariable id, exports.map (·.1)⟩
    .ok (scopeText scope.binding code exports, { s with scopes := s.scopes ++ [(path, scope)] })

def RollUp.scope? (s : RollUp) (path : Place) : Option ModuleScope :=
  (s.scopes.find? (·.1 == path)).map (·.2)

def readModule (disk : Disk) (path : Place) : Except Failure Text :=
  match disk.readText path with
  | .ok t => .ok (unixLines t)
  | .error fault => .error (.of (.unreadableModule path fault))

/-- the code of the module at `path` in its scope, everything it imports rolled up before it;
`closed` are the files that may still be entered -/
def RollUp.module (disk : Disk) (closed : List Place) (path : Place) (source : Text) (s : RollUp) :
    Except Failure (Text × RollUp) := do
  let id := s.next
  let base : Place := path.dropLast
  let circle (p : Place) : Failure := .of (.unsupportedStatement p "circular import".toList)
  let (parts, s) ← (pieces importAt? source).foldlM
    (fun (acc : List Text × RollUp) piece =>
      match piece with
      | .plain c => .ok ([c] :: acc.1, acc.2)
      | .found _ i =>
        match locate? disk base i.specifier with
        | none => .error (.of (.unresolvedImport i.specifier path))
        | some dependency =>
          let entered : Except Failure RollUp :=
            if (acc.2.scope? dependency).isSome then .ok acc.2
            else if h : dependency ∈ closed then do
              have : (closed.erase dependency).length < closed.length := by
                rw [List.length_erase_of_mem h]
                exact Nat.sub_lt (List.length_pos_of_mem h) Nat.one_pos
              let source ← readModule disk dependency
              let (code, s) ← RollUp.module disk (closed.erase dependency) dependency source acc.2
              return { s with files := s.files ++ [dependency], chunks := s.chunks ++ [code] }
            else .error (circle dependency)
          match entered with
          | .error f => .error f
          | .ok s =>
            match s.scope? dependency with
            | none => .error (circle path)
            | some scope => (bindings scope path i).map fun t => (t :: acc.1, s))
    ([], { s with next := id + 1 })
  s.close path id parts.reverse.flatten
termination_by closed.length

def RollUp.nothing : RollUp := ⟨[], [], [], 0⟩

/-- the script of everything rolled up -/
def RollUp.script (s : RollUp) : RolledUp := ⟨join ['\n'] s.chunks, s.files⟩

def Disk.files (d : Disk) : List Place := (d.entries.map (·.1)).filter d.isFile

def rollUpFile (disk : Disk) (path : Place) : Except Failure RolledUp := do
  let path := Place.normalised [] path
  let source ← readModule disk path
  let (code, s) ← RollUp.module disk (disk.files.erase path) path source .nothing
  return { s with files := s.files ++ [path], chunks := s.chunks ++ [code] : RollUp }.script

def inlineName : Text := "<inline module>".toList

/-- a module without a file, rolled up; its addresses are relative to `base` -/
def rollUpInline (disk : Disk) (base : Place) (code : Text) : Except Failure RolledUp := do
  let path := base ++ [inlineName]
  let (code, s) ← RollUp.module disk (disk.files.erase path) path code .nothing
  return { s with chunks := s.chunks ++ [code] : RollUp }.script

end SiteBundle
