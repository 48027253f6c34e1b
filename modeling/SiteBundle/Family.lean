import SiteBundle.Text.Pieces
import SiteBundle.Text.Fold
import SiteBundle.Markup.Element

/-!
# The two families of assets

Scripts and stylesheets are bundled separately and by the same rules.  A family knows the extension
of its bundle files, the element that holds its code inline, and how to write code into that element
so that the code cannot close it (`Family.sealText`).
-/

namespace SiteBundle

open Text

/-- scripts or stylesheets -/
inductive Family where
  | script
  | style
deriving DecidableEq, Repr

namespace Family

def label : Family → String
  | .script => "script"
  | .style => "style"

def extension : Family → Text
  | .script => ".js".toList
  | .style => ".css".toList

def tag : Family → Tag
  | .script => .script
  | .style => .style

/-- what a `<` becomes inside code of the family -/
def lessEscape : Family → Text
  | .script => "\\u003c".toList
  | .style => "\\3c ".toList

/-- the beginning of a closing tag, with its `<` escaped -/
def sealedCloser? (f : Family) (t : Text) : Option (Text × Text) :=
  (readFold? ('<' :: '/' :: f.tag.name) t).map fun p => (f.lessEscape ++ p.1.drop 1, p.2)

/-- code in a form that cannot close the element it is written into -/
def sealText (f : Family) (code : Text) : Text := replace (fun _ => f.sealedCloser?) code

end Family
end SiteBundle
