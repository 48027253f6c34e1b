import SiteBundle.Text.Basic

/-!
# Drafts: edits planned against one text

A draft is a text together with cuts and inserts, all placed by byte offsets into that text.  They
are applied together, from the highest offset down, so that none of them moves the place of another.

* cuts that overlap are one cut; cuts that merely touch stay two;
* an insert strictly inside a cut goes to the start of the cut;
* at one offset the cut comes first, and several inserts keep the order they were added in;
* an offset behind the end means the end of the text as it stands at that moment.

An offset inside a character makes the draft inapplicable (`Draft.result?` is `none`).

`Draft.walk` is the plain description of the result: one walk over the characters of the text that
leaves out the covered ones and puts every insert before the character at its place.
-/

namespace SiteBundle

open Text

inductive Edit where
  | cut (start length : Nat)
  | insert (place : Nat) (text : Text)
deriving DecidableEq, Repr

/-- a text and the edits planned against it, in the order they were added -/
structure Draft where
  base : Text
  edits : List Edit

namespace Draft

def of (base : Text) : Draft := ⟨base, []⟩

/-- plans the removal of `length` bytes; removing nothing is no edit -/
def cut (d : Draft) (start length : Nat) : Draft :=
  if length = 0 then d else { d with edits := d.edits ++ [.cut start length] }

/-- plans an insert; inserting nothing is no edit -/
def insert (d : Draft) (place : Nat) (text : Text) : Draft :=
  if text.isEmpty then d else { d with edits := d.edits ++ [.insert place text] }

def isEmpty (d : Draft) : Bool := d.edits.isEmpty

/-! ## The cuts, merged -/

/-- the planned cuts as byte ranges `(start, stop)` -/
def cuts (d : Draft) : List (Nat × Nat) :=
  d.edits.filterMap fun
    | .cut start length => some (start, start + length)
    | .insert _ _ => none

/-- the order of ranges: by start, then by stop -/
def rangeLe (a b : Nat × Nat) : Bool := a.1 < b.1 || (a.1 == b.1 && a.2 ≤ b.2)

/-- joins each range to the one before it when they overlap -/
def absorb (a : Nat × Nat) : List (Nat × Nat) → List (Nat × Nat)
  | [] => [a]
  | b :: r => if b.1 < a.2 then absorb (a.1, max a.2 b.2) r else a :: absorb b r

/-- the cuts without overlaps, ascending -/
def mergedCuts (d : Draft) : List (Nat × Nat) :=
  match d.cuts.mergeSort rangeLe with
  | [] => []
  | a :: r => absorb a r

/-- where an insert planned for `place` goes -/
def effectivePlace (cuts : List (Nat × Nat)) (place : Nat) : Nat :=
  match cuts.find? fun c => c.1 < place && place < c.2 with
  | some c => c.1
  | none => place

/-- the planned inserts at their effective places -/
def inserts (d : Draft) : List (Nat × Text) :=
  d.edits.filterMap fun
    | .cut _ _ => none
    | .insert place text => some (effectivePlace d.mergedCuts place, text)

/-! ## Applying -/

/-- the offset an edit is applied at -/
def place : Edit → Nat
  | .cut start _ => start
  | .insert place _ => place

/-- the edits in the order they are applied in -/
def schedule (d : Draft) : List Edit :=
  let cuts := d.mergedCuts.map fun c => Edit.cut c.1 (c.2 - c.1)
  let inserts := d.inserts.map fun i => Edit.insert i.1 i.2
  (cuts ++ inserts.reverse).mergeSort fun a b => place b ≤ place a

/-- one edit applied to the text as it stands -/
def applyEdit? (t : Text) : Edit → Option Text
  | .cut start length => do
    let stop := min (start + length) (size t)
    let (front, back) ← splitAt? stop t
    let (front, _) ← splitAt? (min start stop) front
    return front ++ back
  | .insert place text => do
    let (front, back) ← splitAt? (min place (size t)) t
    return front ++ text ++ back

/-- the edited text; `none` when an offset falls inside a character -/
def result? (d : Draft) : Option Text := d.schedule.foldlM applyEdit? d.base

/-! ## The same as one walk -/

/-- whether a cut covers the offset -/
def covered (cuts : List (Nat × Nat)) (offset : Nat) : Bool :=
  cuts.any fun c => c.1 ≤ offset && offset < c.2

/-- everything inserted at this offset, in the order it was added -/
def insertedAt (inserts : List (Nat × Text)) (offset : Nat) : Text :=
  (inserts.filter fun i => i.1 == offset).flatMap (·.2)

/-- from this offset on: what is inserted here, the character here unless a cut covers it, and so on
to the end -/
def walkFrom (cuts : List (Nat × Nat)) (inserts : List (Nat × Text)) : Nat → Text → Text
  | offset, [] => insertedAt inserts offset
  | offset, c :: r =>
    insertedAt inserts offset ++ (if covered cuts offset then [] else [c]) ++
      walkFrom cuts inserts (offset + c.utf8Size) r

/-- the edited text, described by one walk over the base -/
def walk (d : Draft) : Text := walkFrom d.cuts d.inserts 0 d.base

end Draft
end SiteBundle
