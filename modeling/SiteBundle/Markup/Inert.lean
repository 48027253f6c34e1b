import SiteBundle.Text.Fold
import SiteBundle.Text.Pieces

/-!
# Inert ranges of a markup text

Two kinds of stretches are inert: comments (`<!--` through `-->`) and, in documents of an embedded
language, its blocks (`<?php` or `<?=` through `?>`).  A stretch that is never closed reaches to the
end of the text.  Nothing that starts inside an inert range is taken for markup.

* `InertRange`     a half-open byte range and its kind;
* `inertRanges`    the ranges of a text: first the embedded blocks, then the comments that do not
  start inside one, each kind in ascending order;
* `isInert`        whether a byte offset lies in one of them.
-/

namespace SiteBundle

open Text

/-- what makes a stretch of text inert -/
inductive InertKind where
  | comment
  | embedded
deriving DecidableEq, Repr

structure InertRange where
  start : Nat
  stop : Nat
  kind : InertKind
deriving DecidableEq, Repr

/-- whether the range holds this offset -/
def InertRange.covers (r : InertRange) (offset : Nat) : Bool :=
  r.start ≤ offset && offset < r.stop

def isInert (ranges : List InertRange) (offset : Nat) : Bool :=
  ranges.any (·.covers offset)

/-- the marker that begins a range of this kind -/
def InertKind.opener? : InertKind → Text → Option (Text × Text)
  | .comment, t => readFold? "<!--".toList t
  | .embedded, t => (readFold? "<?php".toList t).or (readFold? "<?=".toList t)

/-- the marker that ends a range of this kind -/
def InertKind.closer : InertKind → Text
  | .comment => "-->".toList
  | .embedded => "?>".toList

/-- the text behind the first end marker, or nothing when there is none -/
def InertKind.behind (kind : InertKind) (t : Text) : Text :=
  match seek (readFold? kind.closer) t with
  | some (_, _, rest) => rest
  | none => []

/-- what a begin marker opens at this place: a range, unless an earlier range holds the place -/
def InertKind.range? (kind : InertKind) (earlier : List InertRange) (s : Spot) (t : Text) :
    Option (Option InertRange × Text) := do
  let (_, rest) ← kind.opener? t
  if isInert earlier s.offset then return (none, rest)
  let behind := kind.behind rest
  return (some ⟨s.offset, s.offset + (size t - size behind), kind⟩, behind)

/-- the ranges of one kind that start outside the earlier ones -/
def rangesOfKind (kind : InertKind) (earlier : List InertRange) (t : Text) : List InertRange :=
  (findings (kind.range? earlier) t).filterMap (·.2)

def inertRanges (t : Text) (embedded : Bool) : List InertRange :=
  let blocks := if embedded then rangesOfKind .embedded [] t else []
  blocks ++ rangesOfKind .comment blocks t

end SiteBundle
