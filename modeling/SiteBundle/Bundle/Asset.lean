import SiteBundle.Markup.Document
import SiteBundle.Options.Basic
import SiteBundle.Tree.Address

/-!
# The assets of a document

An asset is an element whose code takes part in bundling.  Of the elements of a family, each is one
of three things:

* an asset, with the source of its code (`Source`) and what decides when it runs;
* missing: it would be an asset, but refers to a file that is not there;
* untouched: it stays as written, perhaps with the file it refers to.

`Family.elements` are the elements that come into question, and `classify` tells which of the three
each is.  Stylesheets take part when they hold for all media; scripts when they are classic scripts
or modules.
-/

namespace SiteBundle

open Text

/-- where the code of an element comes from -/
inductive Source where
  /-- from the element itself -/
  | inline
  /-- from an address outside the site -/
  | absolute (url : Text)
  /-- from a file of the site -/
  | file (id : NodeId)
  /-- from a file that is not there -/
  | missing (url : Text)
deriving DecidableEq, Repr

/-- the source that a reference in directory `dir` stands for -/
def Source.ofReference (t : Tree) (dir : NodeId) (reference : Option Text) : Source :=
  match reference.map trim with
  | none => .inline
  | some url =>
    if url.isEmpty then .inline
    else if isAbsolute url then .absolute url
    else
      match t.resolve? dir url with
      | some id => .file id
      | none => .missing url

def Source.file? : Source → Option NodeId
  | .file id => some id
  | _ => none

def Source.isAbsolute : Source → Bool
  | .absolute _ => true
  | _ => false

/-- an element that takes part in bundling -/
structure Asset where
  element : Element
  source : Source
  /-- runs when the document is read: a module, or a deferred script with a source of its own -/
  deferred : Bool
  /-- runs when it is there -/
  async : Bool
  module : Bool
deriving DecidableEq

/-- what an element is to the bundler -/
inductive Classified where
  | asset (a : Asset)
  | missing (e : Element) (url : Text)
  | untouched (e : Element) (file : Option NodeId)

namespace Classified

def asset? : Classified → Option Asset
  | .asset a => some a
  | _ => none

def missing? : Classified → Option Element
  | .missing e _ => some e
  | _ => none

/-- the file that an untouched element refers to -/
def untouchedFile? : Classified → Option NodeId
  | .untouched _ file => file
  | _ => none

end Classified

/-! ## Scripts -/

inductive ScriptType where
  | classic
  | module
  /-- data, or code for something else -/
  | other
deriving DecidableEq, Repr

def ScriptType.ofAttribute (value : Option Text) : ScriptType :=
  match value.map fun v => lower (trim v) with
  | none => .classic
  | some v =>
    if v = [] ∨ v = "text/javascript".toList ∨ v = "application/javascript".toList then .classic
    else if v = "module".toList then .module
    else .other

def classifyScript (p : Policy) (e : Element) (source : Source) : Classified :=
  let type := ScriptType.ofAttribute (e.attributes.get? "type".toList)
  let has (name : String) : Bool := e.attributes.has name.toList
  if type = .other ∨ has "nomodule" then .untouched e source.file?
  else
    let module := type == .module
    let external := source != .inline
    match source with
    | .missing url => .missing e url
    | source =>
      if source = .inline ∧ !p.handleInline then .untouched e none
      else .asset
        { element := e
          source
          deferred := module || (external && has "defer")
          async := has "async" && (external || module)
          module }

/-! ## Stylesheets -/

/-- whether a media attribute restricts nothing -/
def forAllMedia (value : Option Text) : Bool :=
  match value.map fun v => lower (trim v) with
  | none => true
  | some v => v.isEmpty || v == "all".toList

/-- whether a `rel` attribute names a stylesheet that is not an alternative to another one -/
def isSheetRelation (value : Option Text) : Bool :=
  let tokens := words (lower (value.getD []))
  tokens.contains "stylesheet".toList && !tokens.contains "alternate".toList

/-- the address that an element refers to, unless it is blank; a `style` element has none -/
def sheetReference? (e : Element) : Option Text :=
  match e.tag with
  | .link => (e.attributes.get? "href".toList).filter fun href => !(trim href).isEmpty
  | _ => none

/-- whether an element is a stylesheet in a language that can be bundled -/
def isSheet (e : Element) : Bool :=
  match e.tag with
  | .link => isSheetRelation (e.attributes.get? "rel".toList) && (sheetReference? e).isSome
  | _ =>
    match (e.attributes.get? "type".toList).map fun v => lower (trim v) with
    | none => true
    | some v => v.isEmpty || v == "text/css".toList

def classifySheet (p : Policy) (e : Element) (source : Source) : Classified :=
  if !(isSheet e && forAllMedia (e.attributes.get? "media".toList)) then
    .untouched e source.file?
  else
    match source with
    | .missing url => .missing e url
    | source =>
      if source = .inline ∧ !p.handleInline then .untouched e none
      else .asset { element := e, source, deferred := false, async := false, module := false }

/-! ## Both families -/

def Family.elements (d : Document) : Family → List Element
  | .script => d.elements .script
  | .style =>
    (d.elements .link ++ d.elements .style).mergeSort fun a b => a.start ≤ b.start

def classify (t : Tree) (dir : NodeId) (p : Policy) (e : Element) : Classified :=
  match p.family with
  | .script => classifyScript p e (.ofReference t dir (e.attributes.get? "src".toList))
  | .style => classifySheet p e (.ofReference t dir (sheetReference? e))

end SiteBundle
