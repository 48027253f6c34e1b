import SiteBundle.Text.Blank
import SiteBundle.Text.Pieces

/-!
# Tidy stylesheets

Three clean-ups that leave the meaning of a stylesheet alone:

* repeated semicolons become one (`repeatedSemicolons?`);
* semicolons before a closing brace go (`trailingSemicolons?`);
* rules with an empty body go (`emptyRule?`), again and again, since taking out the last rule of a
  block leaves that block empty.

`tidyStyle` runs the first two once and the third until nothing changes.  Each round that changes
the sheet shortens it, so the rounds end.
-/

namespace SiteBundle

open Text

/-- the text behind the last semicolon of the white space and semicolons at the front -/
def behindSemicolons? : Text → Option Text
  | [] => none
  | c :: r =>
    if c = ';' then some ((behindSemicolons? r).getD r)
    else if isBlank c then behindSemicolons? r
    else none

/-- two or more semicolons, which become one -/
def repeatedSemicolons? : Text → Option (Text × Text)
  | ';' :: r => (behindSemicolons? r).map fun rest => ([';'], rest)
  | _ => none

/-- semicolons before a closing brace, which go -/
def trailingSemicolons? : Text → Option (Text × Text)
  | ';' :: r =>
    match (r.dropWhile (· == ';')).dropWhile isBlank with
    | '}' :: rest => some (['}'], rest)
    | _ => none
  | _ => none

/-- a character of the part of a rule before its block -/
def isSelectorChar (c : Char) : Bool := !(c == '{' || c == '}' || c == ';')

/-- a rule with nothing in its block, which goes -/
def emptyRule? (t : Text) : Option (Text × Text) :=
  match t.takeWhile isSelectorChar, t.dropWhile isSelectorChar with
  | _ :: _, '{' :: r =>
    match r.dropWhile isBlank with
    | '}' :: rest => some ([], rest)
    | _ => none
  | _, _ => none

/-- one round of taking out empty rules -/
def dropEmptyRules (t : Text) : Text := replace (fun _ => emptyRule?) t

/-- takes out empty rules while that shortens the text -/
def dropAllEmptyRules (t : Text) : Text :=
  let next := dropEmptyRules t
  if next.length < t.length then dropAllEmptyRules next else t
termination_by t.length

def tidyStyle (t : Text) : Text :=
  dropAllEmptyRules
    (replace (fun _ => trailingSemicolons?) (replace (fun _ => repeatedSemicolons?) t))

end SiteBundle
