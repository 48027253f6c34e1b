import SiteBundle.Markup.Document

/-!
# The polyfill script

A document that holds a script can be given one more script in front of all others: an element that
refers to a given address, at the start of the head.
-/

namespace SiteBundle

open Text

/-- the element that loads a script from an address -/
def scriptReference (url : Text) : Text :=
  elementText .script (Attributes.empty.set "src".toList (some url)) (some [])

/-- the document with the polyfill script; `none` when it is left as it is, because it runs no script
or the address is blank -/
def Document.withPolyfill? (d : Document) (url : Text) : Option (Option Document) :=
  if (trim url).isEmpty || (d.elements .script).isEmpty then some none
  else
    let draft := (Draft.of d.text).insert (d.anchorOffset ⟨.head, .start⟩) (scriptReference url)
    draft.result?.map fun t => some (d.withText t)

end SiteBundle
