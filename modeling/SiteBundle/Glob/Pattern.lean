import SiteBundle.Text.Fold

/-!
# Glob patterns

A pattern is read into tokens:

* `?`        one byte of the path;
* `*`        any bytes, slashes among them;
* `[...]`    one byte of a class, or with `!` or `^` behind the bracket one byte outside it;
* `{a,b}`    one of several patterns; groups may be nested;
* `**/` at the start of a pattern or of a branch: any leading directories, or none;
* `/**` at the end: everything below;
* `/**/`     between: any directories, or none;
* `\c`       the character `c` itself.

Two stars anywhere else are two single stars.
-/

namespace SiteBundle

open Text

inductive GlobToken where
  | literal (c : Char)
  | anyByte
  | star
  | deepStart
  | deepEnd
  | deepMiddle
  | oneOf (negated : Bool) (ranges : List (Char × Char))
  | choice (branches : List (List GlobToken))
deriving Repr

inductive GlobFault where
  | unclosedClass
  | invalidRange (low high : Char)
  | unopenedGroup
  | unclosedGroup
  | danglingEscape
deriving DecidableEq, Repr

def GlobFault.message : GlobFault → String
  | .unclosedClass => "unclosed character class; missing ']'"
  | .invalidRange low high =>
    "invalid range; '" ++ low.toString ++ "' > '" ++ high.toString ++ "'"
  | .unopenedGroup =>
    "unopened alternate group; missing '\x7b' (maybe escape '\x7d' with '[\x7d]'?)"
  | .unclosedGroup =>
    "unclosed alternate group; missing '\x7d' (maybe escape '\x7b' with '[\x7b]'?)"
  | .danglingEscape => "dangling '\\'"

/-- a group that is open: what stands before it and the branches read so far, both last first -/
structure OpenGroup where
  outer : List GlobToken
  branches : List (List GlobToken)

/-- a class that is open: its ranges, last first, whether a character has been read, and whether a
dash waits for its upper end -/
structure OpenClass where
  negated : Bool
  ranges : List (Char × Char)
  first : Bool
  inRange : Bool

/-- one more character of a class; the class is done at a bracket that is not its first character -/
def OpenClass.add (k : OpenClass) (c : Char) : Except GlobFault OpenClass :=
  if c = '-' ∧ k.first = false ∧ k.inRange = false then
    .ok { k with inRange := true }
  else
    match k.inRange, k.ranges with
    | true, (low, _) :: r =>
      if c < low then .error (.invalidRange low c)
      else .ok { k with ranges := (low, c) :: r, first := false, inRange := false }
    | _, ranges => .ok { k with ranges := (c, c) :: ranges, first := false, inRange := false }

/-- the token of a class; a dash at its end is a character of its own -/
def OpenClass.token (k : OpenClass) : GlobToken :=
  .oneOf k.negated ((if k.inRange then ('-', '-') :: k.ranges else k.ranges).reverse)

/-- what two stars stand for, and whether they take a slash behind them along: `current` are the
tokens before them, last first, `before` is the character before, `behind` the text behind -/
def doubleStar (before : Option Char) (inGroup : Bool) (current : List GlobToken)
    (behind : Text) : List GlobToken × Bool :=
  let plain := (GlobToken.star :: .star :: current, false)
  match current with
  | [] =>
    match behind with
    | [] => ([.deepStart], false)
    | '/' :: _ => ([.deepStart], true)
    | _ => plain
  | last :: earlier =>
    if before ≠ some '/' ∧ (inGroup = false ∨ (before ≠ some ',' ∧ before ≠ some '\x7b')) then plain
    else
      let replaced := fun (token : GlobToken) =>
        match last with
        | .deepStart => GlobToken.deepStart :: earlier
        | .deepEnd => .deepEnd :: earlier
        | _ => token :: earlier
      match behind with
      | [] => (replaced .deepEnd, false)
      | '/' :: _ => (replaced .deepMiddle, true)
      | c :: _ => if inGroup && (c == ',' || c == '\x7d') then (replaced .deepEnd, false) else plain

/-- the tokens of a pattern from one place on.  `before` is the character before, `groups` are the
open groups, innermost first, `current` the tokens of the branch being read, last first. -/
def readGlob (before : Option Char) (groups : List OpenGroup) (current : List GlobToken) :
    Option OpenClass → Text → Except GlobFault (List GlobToken)
  | some _, [] => .error .unclosedClass
  | some k, c :: r =>
    if c = ']' ∧ k.first = false then readGlob (some c) groups (k.token :: current) none r
    else
      match k.add c with
      | .error e => .error e
      | .ok k => readGlob (some c) groups current (some k) r
  | none, [] => if groups.isEmpty then .ok current.reverse else .error .unclosedGroup
  | none, '*' :: '*' :: r =>
    match doubleStar before (!groups.isEmpty) current r, r with
    | (tokens, true), c :: r => readGlob (some c) groups tokens none r
    | (tokens, _), r => readGlob (some '*') groups tokens none r
  | none, '[' :: '!' :: r => readGlob (some '!') groups current (some ⟨true, [], true, false⟩) r
  | none, '[' :: '^' :: r => readGlob (some '^') groups current (some ⟨true, [], true, false⟩) r
  | none, ['\\'] => .error .danglingEscape
  | none, '\\' :: c :: r => readGlob (some c) groups (.literal c :: current) none r
  | none, c :: r =>
    if c = '?' then readGlob (some c) groups (.anyByte :: current) none r
    else if c = '*' then readGlob (some c) groups (.star :: current) none r
    else if c = '[' then readGlob (some c) groups current (some ⟨false, [], true, false⟩) r
    else if c = '\x7b' then readGlob (some c) (⟨current, []⟩ :: groups) [] none r
    else if c = '\x7d' then
      match groups with
      | [] => .error .unopenedGroup
      | g :: groups =>
        readGlob (some c) groups
          (.choice (current.reverse :: g.branches).reverse :: g.outer) none r
    else if c = ',' then
      match groups with
      | [] => readGlob (some c) groups (.literal c :: current) none r
      | g :: groups =>
        readGlob (some c) (⟨g.outer, current.reverse :: g.branches⟩ :: groups) [] none r
    else readGlob (some c) groups (.literal c :: current) none r

def globTokens (pattern : Text) : Except GlobFault (List GlobToken) :=
  readGlob none [] [] none pattern

end SiteBundle
