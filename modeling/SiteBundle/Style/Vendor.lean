import SiteBundle.Text.Blank
import SiteBundle.Text.Fold
import SiteBundle.Text.Pieces

/-!
# Vendor prefixes

Some properties are known to older browsers only under a prefixed name.  A declaration of such a
property gets one copy for each of its prefixes in front of it.

* `VendorProperty`      a property and its prefixes;
* `declaration?`        a declaration of one of these properties: what leads up to it (the start of
  the sheet, `{`, `;` or white space), the property, and the rest through the end of the value;
* `addVendorPrefixes`   the sheet with the copies.
-/

namespace SiteBundle

open Text

/-- a property and what its copies put before its name, in the order they are written -/
structure VendorProperty where
  name : Text
  leads : List Text

/-- the properties that get copies -/
def vendorProperties : List VendorProperty :=
  let webkit := "-webkit-".toList
  let moz := "-moz-".toList
  [⟨"user-select".toList, [webkit, moz]⟩, ⟨"appearance".toList, [webkit]⟩,
    ⟨"backdrop-filter".toList, [webkit]⟩, ⟨"text-size-adjust".toList, [webkit, moz]⟩,
    ⟨"mask-image".toList, [webkit]⟩, ⟨"box-decoration-break".toList, [webkit]⟩,
    ⟨"hyphens".toList, [webkit, moz]⟩]

def isValueChar (c : Char) : Bool := !(c == ';' || c == '}')

/-- colon and value with the white space before the colon, and the text behind -/
def valuePart? (t : Text) : Option (Text × Text) :=
  match t.dropWhile isBlank with
  | ':' :: r =>
    let value := r.takeWhile isValueChar
    if value.isEmpty then none
    else some (t.takeWhile isBlank ++ ':' :: value, r.dropWhile isValueChar)
  | _ => none

/-- the declaration of one property, with its copies in front -/
def copied (p : VendorProperty) (value : Text) : Text :=
  p.leads.flatMap (fun lead => lead ++ p.name ++ value ++ [';']) ++ p.name ++ value

def declaration? (t : Text) : Option (Text × Text) :=
  vendorProperties.findSome? fun p => do
    let r ← dropLead? p.name t
    let (value, rest) ← valuePart? r
    return (copied p value, rest)

/-- what may come before a declaration -/
def isDeclarationLead (c : Char) : Bool := c == '{' || c == ';' || isBlank c

/-- a declaration behind its lead; at the start of the sheet it needs none -/
def ledDeclaration? (s : Spot) (t : Text) : Option (Text × Text) :=
  let bare := if s.before.isNone then declaration? t else none
  match bare, t with
  | some found, _ => some found
  | none, c :: r =>
    if isDeclarationLead c then (declaration? r).map fun p => (c :: p.1, p.2) else none
  | none, [] => none

def addVendorPrefixes (t : Text) : Text := replace ledDeclaration? t

end SiteBundle
