import SiteBundle.Text.Blank
import SiteBundle.Text.Fold
import SiteBundle.Text.Pieces

/-!
# References of a stylesheet

A stylesheet refers to other files by `url(...)` and by `@import` with a quoted address.  A relative
reference is read from the directory of the sheet, so a sheet that moves has its relative references
rewritten.

* `isAbsolute`           whether an address has a scheme or a host of its own;
* `steps`, `walkSteps?`  a relative path as steps, and where they lead from a directory;
* `rebaseReference?`     the address that leads from directory `to` where the given one leads from
  directory `from`; `none` when the address is to be left as it is;
* `rebaseReferences`     a sheet with all its references rewritten.

Directories are given from the root of the site, with `/` between names.
-/

namespace SiteBundle

open Text

/-! ## Addresses -/

def isSchemeStart (c : Char) : Bool :=
  let f := foldChar c
  'a' ≤ f && f ≤ 'z'

def isSchemeChar (c : Char) : Bool :=
  isSchemeStart c || isDigit c || c == '+' || c == '.' || c == '-'

/-- whether an address names a scheme or a host and so does not depend on where it stands -/
def isAbsolute (url : Text) : Bool :=
  match trim url with
  | '/' :: '/' :: _ => true
  | c :: r => isSchemeStart c && (r.dropWhile isSchemeChar).head? == some ':'
  | [] => false

/-- path and suffix of an address; the suffix is a query or a fragment -/
def splitSuffix (url : Text) : Text × Text :=
  (url.takeWhile fun c => c != '?' && c != '#', url.dropWhile fun c => c != '?' && c != '#')

/-! ## Walking -/

/-- a directory as the names on the way to it -/
def directoryNames (dir : Text) : List Text := (splitOn '/' dir).filter (!·.isEmpty)

/-- one step of a path from a place, the place given by its names in reverse; `none` above the
root -/
def step? (place : List Text) (step : Text) : Option (List Text) :=
  if step = [] ∨ step = ['.'] then some place
  else if step = ['.', '.'] then
    match place with
    | [] => none
    | _ :: up => some up
  else some (step :: place)

/-- where a path leads from a directory, as names from the root -/
def walkSteps? (dir : List Text) (path : List Text) : Option (List Text) :=
  (path.foldlM step? dir.reverse).map List.reverse

/-- the names left after the common beginning of two lists -/
def dropCommon : List Text → List Text → List Text × List Text
  | a :: as, b :: bs => if a = b then dropCommon as bs else (a :: as, b :: bs)
  | as, bs => (as, bs)

/-- the steps that lead from one place to another -/
def stepsBetween (base target : List Text) : List Text :=
  let (up, down) := dropCommon base target
  up.map (fun _ => ['.', '.']) ++ down

/-- an address rewritten for another directory -/
def rebaseReference? (url source target : Text) : Option Text :=
  let url := trim url
  match url with
  | [] => none
  | c :: _ =>
    if c = '#' ∨ c = '/' ∨ isAbsolute url then none
    else
      let (path, suffix) := splitSuffix url
      (walkSteps? (directoryNames source) (splitOn '/' path)).map fun place =>
        join ['/'] (stepsBetween (directoryNames target) place) ++ suffix

/-! ## Finding references -/

/-- a reference in a sheet -/
structure Reference where
  /-- the quote on both sides of the address; empty when there is none -/
  quote : Text
  url : Text

def quotedAddress? : Text → Option (Reference × Text)
  | '"' :: r => (cutAt? '"' r).map fun p => (⟨['"'], p.1⟩, p.2)
  | '\'' :: r => (cutAt? '\'' r).map fun p => (⟨['\''], p.1⟩, p.2)
  | _ => none

/-- an address without quotes: it ends at white space or a closing parenthesis -/
def bareAddress? : Text → Option (Reference × Text)
  | [] => none
  | c :: r =>
    if c = '"' ∨ c = '\'' ∨ c = ')' ∨ isBlank c then none
    else
      let inside := fun d => !(d == ')' || isBlank d)
      some (⟨[], c :: r.takeWhile inside⟩, r.dropWhile inside)

/-- a `url(...)` at the front of a text -/
def urlReference? (t : Text) : Option (Reference × Text) := do
  let (_, r) ← readFold? "url(".toList t
  let r := r.dropWhile isBlank
  let (reference, r) ← (quotedAddress? r).or (bareAddress? r)
  match r.dropWhile isBlank with
  | ')' :: rest => return (reference, rest)
  | _ => none

/-- an `@import` with a quoted address at the front of a text -/
def importReference? (t : Text) : Option (Reference × Text) := do
  let (_, r) ← readFold? "@import".toList t
  if r.takeWhile isBlank |>.isEmpty then none
  quotedAddress? (r.dropWhile isBlank)

/-- the reference that `find?` finds at the front of a text, rewritten between `opening` and `closing`;
one whose address is left as it is comes back as it was written -/
def rewritten (source target opening closing : Text)
    (find? : Text → Option (Reference × Text)) (t : Text) : Option (Text × Text) :=
  (find? t).map fun (reference, rest) =>
    match rebaseReference? reference.url source target with
    | some url => (opening ++ reference.quote ++ url ++ reference.quote ++ closing, rest)
    | none => (t.take (t.length - rest.length), rest)

/-- a sheet written for directory `source` with its references rewritten for directory `target` -/
def rebaseReferences (code source target : Text) : Text :=
  if source = target then code
  else
    let code := replace (fun _ => rewritten source target "url(".toList [')'] urlReference?) code
    replace (fun _ => rewritten source target "@import ".toList [] importReference?) code

end SiteBundle
