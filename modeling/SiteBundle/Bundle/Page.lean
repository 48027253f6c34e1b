import SiteBundle.Bundle.Group
import SiteBundle.Bundle.Registry
import SiteBundle.Bundle.Segment
import SiteBundle.Markup.Compact
import SiteBundle.Markup.Polyfill
import SiteBundle.Options.Overrides

/-!
# Bundling a document

A page is a document of the site while it is bundled.  One pass handles the elements of one family:

* `Page.withoutMissing`    drops the elements whose files are missing, if the options say so;
* `Page.replacement`       the element that a group of assets becomes;
* `Page.bundleFamily`      a whole pass.

`Site.processMarkup` runs a markup file through all passes, the stylesheets before the scripts, and
keeps the result as the file's content in the output.
-/

namespace SiteBundle

open Text

/-- a document being bundled, and where it is -/
structure Page where
  path : Text
  file : NodeId
  dir : NodeId
  options : Options
  document : Document

def Family.plural : Family → String
  | .script => "scripts"
  | .style => "stylesheets"

/-! ## Elements -/

/-- an element with an absolute reference, written anew -/
def standaloneText (e : Element) : Text :=
  match e.tag with
  | .style => e.text
  | tag => elementText tag e.attributes (some e.body)

def Attributes.withFlag (a : Attributes) (name : String) (isSet : Bool) : Attributes :=
  if isSet then a.set name.toList none else a

/-- the element that holds the code of a bundle -/
def Policy.inlineText (p : Policy) (code : Text) (deferred : Bool) : Text :=
  let body := if p.sanitize then p.family.sealText code else code
  elementText p.family.tag (Attributes.empty.withFlag "defer" deferred) (some body)

/-- the element that refers to the file of a bundle -/
def Family.referenceText (path : Text) (deferred async : Bool) : Family → Text
  | .script =>
    let attributes := Attributes.empty.set "src".toList (some path)
    elementText .script ((attributes.withFlag "defer" deferred).withFlag "async" async) (some [])
  | .style =>
    let attributes := Attributes.empty.set "rel".toList (some "stylesheet".toList)
    elementText .link (attributes.set "href".toList (some path)) none

namespace Page

/-! ## Code -/

/-- the directory that the references of a merged stylesheet are written for -/
def sheetDirectory (p : Page) (policy : Policy) (s : Site) : Text :=
  if policy.inject then s.tree.relativePath p.dir
  else trimSlashes (s.options.get .bundleDirectory)

/-- code of a directory, ready to be merged with other code -/
def relocated (p : Page) (policy : Policy) (s : Site) (dir : Text) (code : Text) : Text :=
  match policy.family with
  | .script => code
  | .style => rebaseReferences code dir (p.sheetDirectory policy s)

/-- the code of an asset and the file it comes from -/
def part (p : Page) (policy : Policy) (a : Asset) : Work (Text × Option NodeId) := do
  let s ← get
  match a.source with
  | .inline =>
    return (p.relocated policy s (s.tree.relativePath p.dir) a.element.body, none)
  | .file id =>
    let dir := ((s.tree.parent? id).map s.tree.relativePath).getD []
    let code ← Site.lift (s.tree.readText s.disk id)
    return (p.relocated policy s dir code, some id)
  | _ => throw (.of (.internal "an asset without code cannot be merged"))

/-- code transformed, put into a bundle, and the element that stands for it -/
def emit (p : Page) (policy : Policy) (code : Text) (sources : List NodeId)
    (deferred async : Bool) : Work Text := do
  let f := policy.family
  let recipe := p.options.recipe f (policy.inject && policy.sanitize)
  let code ← Site.inActivity ("failed to transform " ++ f.plural ++ " of " ++ shown p.path)
    (Site.prepare recipe f code)
  let placement : Placement := if policy.inject then .inline else .bundleDirectory
  let id ← Site.createOrReuse ⟨f, sources, code, recipe, placement⟩
  Site.addMembership id sources
  let s ← get
  let b ← Site.lift (s.bundle id)
  if policy.inject then return policy.inlineText b.code deferred
  match b.node with
  | none => throw (.of (.internal ("bundle " ++ shown b.name ++ " has no file")))
  | some node =>
    match s.tree.pathBetween? p.file node with
    | some path => return f.referenceText path deferred async
    | none => throw (.of .outOfBounds)

/-- a module with everything it imports, and the element that stands for it; a module without code
disappears -/
def moduleText (p : Page) (policy : Policy) (a : Asset) : Work Text := do
  match a.source with
  | .file id =>
    let g ← Site.rollUpModule id
    p.emit policy g.code g.files (!a.async) a.async
  | .inline =>
    if allBlank a.element.body then return []
    let g ← Site.rollUpBody a.element.body p.dir p.path
    p.emit policy g.code g.files (!a.async) a.async
  | _ => throw (.of (.noModuleSource p.path))

/-- several assets merged, and the element that stands for them; code that is blank disappears -/
def mergedText (p : Page) (policy : Policy) (members : List Asset) (deferred async : Bool) :
    Work Text := do
  let parts ← members.mapM (p.part policy)
  let code := join "\n\n".toList (parts.map (·.1))
  if allBlank code then return []
  p.emit policy code (parts.filterMap (·.2)) deferred async

/-- the element that a group becomes -/
def replacement (p : Page) (policy : Policy) (g : Group) : Work Text := do
  match g.members with
  | [] => throw (.of (.internal "empty group"))
  | a :: _ =>
    match g.kind with
    | .standalone => return standaloneText a.element
    | .module => p.moduleText policy a
    | .merged deferred async => p.mergedText policy g.members deferred async

/-! ## One family -/

def withText (p : Page) (t : Text) : Page := { p with document := p.document.withText t }

def classified (p : Page) (policy : Policy) (t : Tree) : List Classified :=
  (policy.family.elements p.document).map (classify t p.dir policy)

/-- the document's text without the elements whose files are missing; `none` when the options keep
them, or when there are none -/
def missingDraft? (p : Page) (policy : Policy) (t : Tree) : Option Draft :=
  match policy.missingAction with
  | .keep => none
  | .remove =>
    let text := p.document.text
    let spans := ((p.classified policy t).filterMap (·.missing?)).map (·.bounds text true)
    let draft := spans.foldl Segment.cutSpan (Draft.of text)
    if draft.isEmpty then none else some draft

/-- the page without the elements whose files are missing, if the options say so -/
def withoutMissing (p : Page) (policy : Policy) : Work Page := do
  match p.missingDraft? policy (← get).tree with
  | none => return p
  | some draft =>
    match draft.result? with
    | some t => return p.withText t
    | none => throw (.of .outOfBounds)

def withBundles (p : Page) (policy : Policy) (assets : List Asset) : Work Page := do
  match segments? p.document policy.position assets with
  | none => throw (.of .outOfBounds)
  | some segments =>
    let groups := policy.family.groupsOf [] (segments.map (·.members))
    let replacements ← groups.mapM fun gs => do
      return (← gs.mapM (p.replacement policy)).flatten
    match replaceSegments? p.document.text (segments.zip replacements) with
    | some t => return p.withText t
    | none => throw (.of .outOfBounds)

/-- the page with the elements of a family bundled.  Files that the page still refers to afterwards
are noted as necessary. -/
def bundleFamily (p : Page) (f : Family) : Work Page := do
  let policy := p.options.policy f
  let p ← p.withoutMissing policy
  let classified := p.classified policy (← get).tree
  (classified.filterMap (·.untouchedFile?)).forM fun file => Site.markNecessary file false
  let assets := classified.filterMap (·.asset?)
  if !policy.bundle then
    assets.forM fun a =>
      match a.source.file? with
      | some file => Site.markNecessary file a.module
      | none => pure ()
    return p
  if assets.isEmpty then return p
  p.withBundles policy assets

/-! ## All passes -/

def advance (p : Page) (next : Stage) : Work Page :=
  match p.document.advance? next with
  | some document => return { p with document }
  | none => throw (.of (.stageOrder p.document.stage next))

/-- the page with the polyfill script, if the options ask for it -/
def withPolyfill (p : Page) : Work Page := do
  if !p.options.get .insertPolyfill then return p
  match p.document.withPolyfill? (p.options.get .polyfillUrl) with
  | none => throw (.of .outOfBounds)
  | some none => return p
  | some (some document) => advance { p with document } .polyfillInserted

/-- the page made smaller, if the options ask for it -/
def minified (p : Page) : Work Page := do
  if !p.options.get .minifyMarkup then return p
  match compactMarkup? p.document.text p.document.inert with
  | none => throw (.of .outOfBounds)
  | some t => (p.withText t).advance .minified

def bundled (p : Page) : Work Page := do
  let p ← Site.inActivity ("failed to bundle stylesheets of " ++ shown p.path)
    (p.bundleFamily .style)
  let p ← p.advance .styleElementsBundled
  let p ← Site.inActivity ("failed to bundle scripts of " ++ shown p.path)
    (p.bundleFamily .script)
  p.advance .scriptElementsBundled

end Page

namespace Site

/-- a markup file as a page -/
def openPage (file : NodeId) (overrides : Overrides) : Work Page := do
  let s ← get
  let path := s.tree.relativePath file
  let _ ← lift (s.tree.file file)
  let raw ← lift (during ("failed to read " ++ shown path) (s.tree.readText s.disk file))
  return ⟨path, file, (s.tree.parent? file).getD Tree.root, overrides.resolve s.options path,
    .ofText raw (Tree.isPhp (s.tree.extension file))⟩

/-- bundles a markup file and keeps the result as its content -/
def processMarkup (file : NodeId) (overrides : Overrides) : Work Unit := do
  let p ← openPage file overrides
  let p ← p.bundled
  let p ← p.withPolyfill
  let p ← p.minified
  let p ← p.advance .finalized
  changeTree fun t => t.setContent file p.document.text

end Site
end SiteBundle
