import SiteBundle.Text.Basic

/-!
# Cutting a text into the findings of a pattern

A pattern looks at the text from one position on and reports what it finds there together with the
text behind it.  Searching runs from left to right; the first position with a finding takes it, and
the search goes on behind it, so findings never overlap.

* `Text.pieces`    the text as plain characters and findings, in order;
* `Text.findings`  the findings alone, each with its byte offset;
* `Text.replace`   the text with each finding replaced;
* `Text.seek`      the first finding, with the text before and behind it.

A pattern may look at the place it stands at (`Spot`): the byte offset and the character before.
-/

namespace SiteBundle.Text

/-- a position in a text: its byte offset and the character before it -/
structure Spot where
  offset : Nat
  before : Option Char

def Spot.start : Spot := ⟨0, none⟩

/-- the position behind the character `c` -/
def Spot.next (s : Spot) (c : Char) : Spot := ⟨s.offset + c.utf8Size, some c⟩

/-- whether a line begins here -/
def Spot.atLineStart (s : Spot) : Bool :=
  match s.before with
  | none => true
  | some c => c == '\n'

/-- one part of a text: a character outside all findings, or a finding and its offset -/
inductive Piece (α : Type) where
  | plain (c : Char)
  | found (offset : Nat) (a : α)

variable {α : Type}

/-- the pieces of a text from one position on, after `skip` characters already taken -/
def piecesFrom (p : Spot → Text → Option (α × Text)) : Spot → Nat → Text → List (Piece α)
  | _, _, [] => []
  | s, skip + 1, c :: r => piecesFrom p (s.next c) skip r
  | s, 0, c :: r =>
    match p s (c :: r) with
    | none => .plain c :: piecesFrom p (s.next c) 0 r
    | some (a, rest) => .found s.offset a :: piecesFrom p (s.next c) (r.length - rest.length) r

def pieces (p : Spot → Text → Option (α × Text)) (t : Text) : List (Piece α) :=
  piecesFrom p .start 0 t

/-- the findings of a text with their byte offsets -/
def findings (p : Spot → Text → Option (α × Text)) (t : Text) : List (Nat × α) :=
  (pieces p t).filterMap fun
    | .plain _ => none
    | .found offset a => some (offset, a)

/-- the text with every finding replaced by the text it stands for -/
def replace (p : Spot → Text → Option (Text × Text)) (t : Text) : Text :=
  (pieces p t).flatMap fun
    | .plain c => [c]
    | .found _ a => a

/-- the first finding: the text before it, the finding, the text behind it -/
def seek (p : Text → Option (α × Text)) : Text → Option (Text × α × Text)
  | [] => none
  | c :: r =>
    match p (c :: r) with
    | some (a, rest) => some ([], a, rest)
    | none => (seek p r).map fun f => (c :: f.1, f.2)

end SiteBundle.Text
