import SiteBundle.Bundle.Asset

/-!
# Segments: assets that are replaced at one place

The assets of a document are dealt out to segments, each with the place where its replacement goes.

* An anchored position gathers all assets but the asynchronous ones in one segment at the anchor.
* In place, a new segment begins wherever real content stands between two assets
  (`Document.isVacant?`).
* An asynchronous script is always a segment of its own, in place.

`segments?` deals out the assets, `Segment.cuts` are the ranges its members leave, and `Segment.draft`
adds the replacement to a draft.
-/

namespace SiteBundle

/-- assets in the order of the document, and where their replacement goes -/
structure Segment where
  members : List Asset
  insertAt : Nat
  /-- the replacement stands where the first member stood -/
  inPlace : Bool

namespace Segment

def single (a : Asset) : Segment := ⟨[a], a.element.start, true⟩

def firstStart (s : Segment) : Nat := (s.members.head?.map (·.element.start)).getD 0

end Segment

/-- the segments of an anchored position: everything that is not asynchronous at the anchor, ordered
by first members -/
def anchoredSegments (d : Document) (anchor : Anchor) (assets : List Asset) : List Segment :=
  let members := assets.filter fun a => !a.async
  let gathered : List Segment := if members.isEmpty then [] else [⟨members, d.anchorOffset anchor, false⟩]
  (gathered ++ (assets.filter (·.async)).map Segment.single).mergeSort fun a b =>
    a.firstStart ≤ b.firstStart

/-- whether an asset may share the segment of the asset behind it -/
def joins? (d : Document) (a : Asset) : List Asset → Option Bool
  | [] => some false
  | b :: _ =>
    if a.async || b.async then some false
    else d.isVacant? a.element.stop b.element.start []

/-- an asset before segments in place: in the first of them, or in a segment of its own -/
def Segment.cons (a : Asset) (joins : Bool) : List Segment → List Segment
  | [] => [.single a]
  | s :: r => if joins then ⟨a :: s.members, a.element.start, true⟩ :: r else .single a :: s :: r

/-- the segments in place; `none` when the text between two assets does not end with a character -/
def localSegments? (d : Document) : List Asset → Option (List Segment)
  | [] => some []
  | a :: r => do
    let joins ← joins? d a r
    let segments ← localSegments? d r
    return Segment.cons a joins segments

def segments? (d : Document) (position : Position) (assets : List Asset) : Option (List Segment) :=
  match position with
  | .anchored anchor => some (anchoredSegments d anchor assets)
  | .inPlace => localSegments? d assets

namespace Segment

/-- the ranges that the members leave: their lines, but the first member of a segment in place only
its own range -/
def cuts (s : Segment) (t : Text) : List Span :=
  match s.members with
  | [] => []
  | a :: r => a.element.bounds t (!s.inPlace) :: r.map fun b => b.element.bounds t true

def cutSpan (d : Draft) (s : Span) : Draft := d.cut s.start (s.stop - s.start)

/-- a draft with the members cut and their replacement inserted -/
def draft (s : Segment) (d : Draft) (replacement : Text) : Draft :=
  ((s.cuts d.base).foldl cutSpan d).insert s.insertAt replacement

end Segment

/-- a text with each segment replaced; `none` when an offset falls inside a character -/
def replaceSegments? (t : Text) (replacements : List (Segment × Text)) : Option Text :=
  (replacements.foldl (fun d r => r.1.draft d r.2) (Draft.of t)).result?

end SiteBundle
