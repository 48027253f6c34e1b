import SiteBundle.Markup.Draft
import SiteBundle.Markup.Element
import SiteBundle.Markup.Position

/-!
# A markup document while it is rewritten

A document is its current text, whether that text holds blocks of an embedded language, and the
stage of its rewriting.  Its inert ranges are always those of the current text.

* `Document.ofText`       a document freshly read, line ends normalised to line feeds;
* `Document.isVacant?`    whether a byte range holds only layout and inert text;
* `Document.anchorOffset` the offset of an anchor, or of the nearest fallback that is there;
* `Document.advance`      moves to a later stage.
-/

namespace SiteBundle

open Text

/-- the stages of a document; each is reached at most once, and only from an earlier one -/
inductive Stage where
  | loaded
  | exclusionComputed
  | styleElementsBundled
  | scriptElementsBundled
  | polyfillInserted
  | minified
  | finalized
deriving DecidableEq, Repr

namespace Stage

/-- the place of the stage in the order -/
def rank : Stage → Nat
  | .loaded => 0
  | .exclusionComputed => 1
  | .styleElementsBundled => 2
  | .scriptElementsBundled => 3
  | .polyfillInserted => 4
  | .minified => 5
  | .finalized => 6

def label : Stage → String
  | .loaded => "loaded"
  | .exclusionComputed => "exclusion-computed"
  | .styleElementsBundled => "style-elements-bundled"
  | .scriptElementsBundled => "script-elements-bundled"
  | .polyfillInserted => "polyfill-inserted"
  | .minified => "minified"
  | .finalized => "finalized"

def all : List Stage :=
  [.loaded, .exclusionComputed, .styleElementsBundled, .scriptElementsBundled, .polyfillInserted,
    .minified, .finalized]

end Stage

structure Document where
  text : Text
  /-- whether the text holds blocks of an embedded language -/
  embedded : Bool
  stage : Stage

namespace Document

/-- a freshly read document -/
def ofText (raw : Text) (embedded : Bool) : Document :=
  ⟨unixLines raw, embedded, .exclusionComputed⟩

def inert (d : Document) : List InertRange := inertRanges d.text d.embedded

def withText (d : Document) (t : Text) : Document := { d with text := t }

/-- the document at a later stage; `none` when the stage is not later -/
def advance? (d : Document) (next : Stage) : Option Document :=
  if next.rank ≤ d.stage.rank then none else some { d with stage := next }

/-- whether every character, the first at byte `offset`, is layout or inert -/
def vacantFrom (inert : List InertRange) : Nat → Text → Bool
  | _, [] => true
  | offset, c :: r =>
    (isGap c || isInert inert offset) && vacantFrom inert (offset + c.utf8Size) r

/-- whether the byte range holds only layout, inert text and text of the additional ranges; `none`
when an end of a range that is not empty falls inside a character -/
def isVacant? (d : Document) (start stop : Nat) (additional : List InertRange) : Option Bool :=
  let stop := min stop (size d.text)
  if stop ≤ start then some true
  else (slice? start stop d.text).map (vacantFrom (d.inert ++ additional) start)

def elements (d : Document) (tag : Tag) : List Element := scanElements d.text d.inert tag

/-! ## Anchors -/

/-- the name of the element an anchor belongs to; a file has none -/
def anchorName? : AnchorElement → Option Text
  | .head => some "head".toList
  | .body => some "body".toList
  | .document => some "html".toList
  | .file => none

/-- the tag on an edge of the named element -/
def edgeTag? (edge : AnchorEdge) (name : Text) (t : Text) : Option (Text × Text) :=
  match edge with
  | .start => openingTag? name t
  | .stop => closingTag? name t

/-- the offset of an anchor itself: behind the first opening tag or before the first closing tag
that is not inert -/
def ownOffset? (d : Document) (a : Anchor) : Option Nat :=
  match anchorName? a.element with
  | none =>
    match a.edge with
    | .start => some 0
    | .stop => some (size d.text)
  | some name =>
    let inert := d.inert
    ((findings (fun _ => edgeTag? a.edge name) d.text).find? fun f => !isInert inert f.1).map
      fun f =>
        match a.edge with
        | .start => f.1 + size f.2
        | .stop => f.1

/-- the offset of an anchor or else of its first fallback that the document has -/
def anchorOffset (d : Document) (a : Anchor) : Nat :=
  (a.chain.findSome? d.ownOffset?).getD (size d.text)

end Document
end SiteBundle
