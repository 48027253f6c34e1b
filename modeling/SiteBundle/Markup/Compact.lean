import SiteBundle.Markup.Document

/-!
# Compact markup

Compacting drops comments and collapses runs of layout: a run with a line feed in it becomes one
line feed, any other run one space.  Left as they are: embedded blocks, opening tags, the elements
`pre`, `textarea`, `script` and `style`, and conditional comments.  A comment that starts inside one
of these stays with it.

* `verbatimSpans`    the ranges that are left as they are, apart from comments;
* `commentSpans?`    the comments outside them, to keep or to drop;
* `compactMarkup?`   the text with every span honoured and the rest collapsed.

Where spans overlap, the one that starts first wins, of two that start together the longer one.  An
end of a span inside a character makes the text as a whole `none`.
-/

namespace SiteBundle

open Text

/-- a range that is copied or left out as a whole -/
structure Mark where
  start : Nat
  stop : Nat
  keep : Bool
deriving DecidableEq, Repr

/-- the names of the elements copied as they are -/
def verbatimNames : List Text :=
  ["pre".toList, "textarea".toList, "script".toList, "style".toList]

/-- the ranges at which a pattern is found outside inert text -/
def spansOf (pattern : Text → Option (Text × Text)) (t : Text) (inert : List InertRange) :
    List Mark :=
  ((findings (fun _ => pattern) t).filter fun f => !isInert inert f.1).map fun f =>
    ⟨f.1, f.1 + size f.2, true⟩

/-- an element of this name as one stretch of text -/
def wholeElement? (name t : Text) : Option (Text × Text) :=
  (enclosed? name t).map fun p => (p.1.text, p.2)

/-- embedded blocks, elements copied as they are, and opening tags -/
def verbatimSpans (t : Text) (inert : List InertRange) : List Mark :=
  (inert.filter (·.kind == .embedded)).map (fun r => ⟨r.start, r.stop, true⟩) ++
    verbatimNames.flatMap (fun name => spansOf (wholeElement? name) t inert) ++
    spansOf anyOpeningTag? t inert

/-- whether the text begins with a comment that a browser may act upon -/
def isConditional (t : Text) : Bool :=
  hasLead "<!--[if".toList t || hasLead "<!--<![endif]".toList t

theorem isConditional_iff {t : Text} :
    isConditional t = true ↔ "<!--[if".toList <+: t ∨ "<!--<![endif]".toList <+: t := by
  rw [isConditional, Bool.or_eq_true, hasLead_iff, hasLead_iff]

/-- the comments that do not start inside one of `spans` -/
def commentSpans? (t : Text) (inert : List InertRange) (spans : List Mark) : Option (List Mark) :=
  (inert.filter fun r =>
      r.kind == .comment && !spans.any fun m => m.start ≤ r.start && r.start < m.stop).mapM fun r =>
    (splitAt? r.start t).map fun parts => ⟨r.start, r.stop, isConditional parts.2⟩

/-- the order in which spans are honoured -/
def markLe (a b : Mark) : Bool := a.start < b.start || (a.start == b.start && b.stop ≤ a.stop)

/-- runs of layout collapsed; `run` is the run being read, and whether it holds a line feed -/
def collapse : Option Bool → Text → Text
  | none, [] => []
  | some newline, [] => [if newline then '\n' else ' ']
  | run, c :: r =>
    if isGap c then collapse (some (run.getD false || c == '\n')) r
    else
      match run with
      | none => c :: collapse none r
      | some newline => (if newline then '\n' else ' ') :: c :: collapse none r

/-- honours the marks from byte `offset` on; a mark that starts earlier is passed over -/
def layOut? (offset : Nat) : List Mark → Text → Option Text
  | [], t => some (collapse none t)
  | m :: marks, t =>
    if m.start < offset then layOut? offset marks t
    else do
      let (loose, rest) ← splitAt? (m.start - offset) t
      let (inside, rest) ← splitAt? (m.stop - m.start) rest
      let behind ← layOut? m.stop marks rest
      return collapse none loose ++ (if m.keep then inside else []) ++ behind

def compactMarkup? (t : Text) (inert : List InertRange) : Option Text := do
  let spans := verbatimSpans t inert
  let comments ← commentSpans? t inert spans
  layOut? 0 ((spans ++ comments).mergeSort markLe) t

/-- the compact text, or the text itself when it cannot be cut at the ends of the spans -/
def compactMarkup (t : Text) (inert : List InertRange) : Text := (compactMarkup? t inert).getD t

end SiteBundle
