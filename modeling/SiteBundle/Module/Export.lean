import SiteBundle.Disk.Place
import SiteBundle.Module.Statement

/-!
# The exports of a module

Export statements are taken out of the code of a module; what they export is collected under the
names it is exported by, each with the variable that holds it.  Re-exports are refused.

* `splitAlias`       `a as b` as the pair of `a` and `b`;
* `Exports`          exported names with their variables, in the order of the names;
* `withoutExports`   the code without its export statements, and the exports.
-/

namespace SiteBundle

open Text

/-- the text before and behind the first occurrence of another text -/
def splitOnce? (sep : Text) : Text → Option (Text × Text)
  | [] => if sep.isEmpty then some ([], []) else none
  | c :: r =>
    match dropLead? sep (c :: r) with
    | some rest => some ([], rest)
    | none => (splitOnce? sep r).map fun p => (c :: p.1, p.2)

/-- `a as b` is the pair of `a` and `b`; `a` alone is the pair of `a` and `a` -/
def splitAlias (t : Text) : Text × Text :=
  let t := trim t
  match splitOnce? " as ".toList t with
  | some (name, other) => (trim name, trim other)
  | none => (t, t)

/-- exported names with the variables that hold the values, in the order of the names -/
abbrev Exports := List (Text × Text)

/-- one more export; a name that is exported again gets the new variable -/
def Exports.insert (name variable_ : Text) : Exports → Exports
  | [] => [(name, variable_)]
  | e :: r =>
    if nameLt name e.1 then (name, variable_) :: e :: r
    else if e.1 = name then (name, variable_) :: r
    else e :: Exports.insert name variable_ r

def Exports.insertAll (es : Exports) (more : List (Text × Text)) : Exports :=
  more.foldl (fun es e => es.insert e.1 e.2) es

/-- the findings of a pattern without their offsets -/
def foundIn {α : Type} (p : Spot → Text → Option (α × Text)) (t : Text) : List α :=
  (findings p t).map (·.2)

/-- the code with every finding of a pattern replaced -/
def replaced {α : Type} (p : Spot → Text → Option (α × Text)) (f : α → Text) (t : Text) : Text :=
  replace (fun s t => (p s t).map fun found => (f found.1, found.2)) t

/-- what a list of exports exports -/
def ExportList.exports (l : ExportList) : List (Text × Text) :=
  ((splitOn ',' l.specifiers).map splitAlias).filterMap fun (name, exported) =>
    if name.isEmpty then none else some (exported, name)

/-- the name of default exports -/
def defaultName : Text := "default".toList

/-- the code of a module without its export statements, and its exports; `variable_` holds a default
export that has no name.  A re-export is handed back as written. -/
def withoutExports (code variable_ : Text) : Except Text (Text × Exports) := do
  match foundIn exportStarAt? code with
  | statement :: _ => throw (trim statement)
  | [] => pure ()
  let lists := foundIn exportListAt? code
  match lists.find? (·.hasSource) with
  | some l => throw (trim l.statement)
  | none => pure ()
  let exports := Exports.insertAll [] (lists.flatMap (·.exports))
  let code := replaced exportListAt? (fun _ => []) code
  let exports := exports.insertAll
    ((foundIn namedDefaultAt? code).map fun e => (defaultName, e.name))
  let code := replaced namedDefaultAt? Exported.text code
  let exports := exports.insertAll
    ((foundIn defaultAt? code).map fun _ => (defaultName, variable_))
  let code := replaced defaultAt?
    (fun indent => indent ++ "var ".toList ++ variable_ ++ " = ".toList) code
  let exports := exports.insertAll
    ((foundIn declarationAt? code).map fun e => (e.name, e.name))
  return (replaced declarationAt? Exported.text code, exports)

end SiteBundle
