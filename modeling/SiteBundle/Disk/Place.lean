import SiteBundle.Text.Fold

/-!
# Places on the disk

A place is known by the names on the way to it from the root.  Paths in options are texts, absolute
or relative to the working directory, and are kept as written because messages show them so.

* `Place`              a place, names from the root;
* `Place.text`         its path;
* `pathSteps`          the steps of a path as written; a trailing slash is an empty last step;
* `joinPath`           a path below another, as text;
* `Place.normalised`   steps taken without looking at the disk.
-/

namespace SiteBundle

open Text

/-- names from the root -/
abbrev Place := List Text

def Place.text (p : Place) : Text := '/' :: join ['/'] p

/-- the steps of a path; a slash at the end asks for a folder and is an empty last step -/
def pathSteps (path : Text) : List Text :=
  let steps := (splitOn '/' path).filter (!·.isEmpty)
  if path.getLast? = some '/' then steps ++ [[]] else steps

/-- whether a step stays where it is -/
def isIdle (step : Text) : Bool := step.isEmpty || step == ['.']

def isRooted (path : Text) : Bool := path.head? == some '/'

/-- a path relative to another; a rooted path stands for itself -/
def joinPath (base path : Text) : Text :=
  if isRooted path || base.isEmpty then path
  else if base.getLast? = some '/' then base ++ path
  else base ++ '/' :: path

/-- one step from a place without looking at the disk; the root is its own parent -/
def Place.step (p : Place) (name : Text) : Place :=
  if isIdle name then p
  else if name = ['.', '.'] then p.dropLast
  else p ++ [name]

/-- steps from a place without looking at the disk -/
def Place.normalised (p : Place) (steps : List Text) : Place := steps.foldl Place.step p

/-- a file name cut before its last dot: stem and extension; a name that begins with its only dot has
no extension -/
def splitExtension (name : Text) : Text × Option Text :=
  let back := name.reverse
  let tail := back.takeWhile (· != '.')
  match back.dropWhile (· != '.') with
  | '.' :: stem => if stem.isEmpty then (name, none) else (stem.reverse, some tail.reverse)
  | _ => (name, none)

def Place.withExtension (p : Place) (extension : Text) : Place :=
  match p.getLast? with
  | none => p
  | some name => p.dropLast ++ [(splitExtension name).1 ++ '.' :: extension]

def Place.within (p top : Place) : Bool := top.isPrefixOf p

/-- the order of names, character by character -/
def nameLt : Text → Text → Bool
  | [], [] => false
  | [], _ :: _ => true
  | _ :: _, [] => false
  | a :: r, b :: s => a < b || (a == b && nameLt r s)

/-- the order of places: parents first, then by names -/
def Place.lt : Place → Place → Bool
  | [], [] => false
  | [], _ :: _ => true
  | _ :: _, [] => false
  | a :: r, b :: s => nameLt a b || (a == b && Place.lt r s)

end SiteBundle
