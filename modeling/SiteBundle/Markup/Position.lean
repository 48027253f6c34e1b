/-!
# Insert positions

Where the replacement of bundled elements goes: to the place of the elements themselves, or to one
edge of the head, the body, the document element or the file.  An element that a document lacks is
replaced by a wider one: head and body by the document element, that by the file.
-/

namespace SiteBundle

/-- what an anchor belongs to -/
inductive AnchorElement where
  | head
  | body
  | document
  | file
deriving DecidableEq, Repr

/-- which end of it -/
inductive AnchorEdge where
  | start
  | stop
deriving DecidableEq, Repr

/-- one place of a document, such as the end of the head -/
structure Anchor where
  element : AnchorElement
  edge : AnchorEdge
deriving DecidableEq, Repr

/-- where replacements go -/
inductive Position where
  /-- where the elements stood -/
  | inPlace
  | anchored (anchor : Anchor)
deriving DecidableEq, Repr

namespace Position

def anchor? : Position → Option Anchor
  | .inPlace => none
  | .anchored a => some a

end Position

namespace Anchor

/-- the anchor to use when a document lacks this one -/
def fallback? (a : Anchor) : Option Anchor :=
  match a.element with
  | .head => some ⟨.document, a.edge⟩
  | .body => some ⟨.document, a.edge⟩
  | .document => some ⟨.file, a.edge⟩
  | .file => none

def label (a : Anchor) : String :=
  let edge := match a.edge with
    | .start => "start"
    | .stop => "end"
  let element := match a.element with
    | .head => "head"
    | .body => "body"
    | .document => "document"
    | .file => "file"
  edge ++ " of " ++ element

/-- the anchor followed by its fallbacks -/
def chain (a : Anchor) : List Anchor :=
  match a.element with
  | .head => [a, ⟨.document, a.edge⟩, ⟨.file, a.edge⟩]
  | .body => [a, ⟨.document, a.edge⟩, ⟨.file, a.edge⟩]
  | .document => [a, ⟨.file, a.edge⟩]
  | .file => [a]

end Anchor

/-- the positions in the order of their words in options -/
def Position.all : List Position :=
  .inPlace :: [AnchorElement.head, .body, .document, .file].flatMap fun e =>
    [.anchored ⟨e, .start⟩, .anchored ⟨e, .stop⟩]

end SiteBundle
