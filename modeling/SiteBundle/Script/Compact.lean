import SiteBundle.Script.Lexeme

/-!
# Compact scripts

A compact script holds the same lexemes; of the gaps only what keeps them apart is left.

* A line end stays unless the characters around it show that no statement can end there
  (`lineEndMayGo`).
* Any other gap, or a line end that may go, becomes a space where the neighbours would otherwise run
  together (`needSpace`), and nothing elsewhere.
-/

namespace SiteBundle

open Text

/-- whether two characters that were apart must not become neighbours -/
def needSpace (a b : Char) : Bool :=
  (isScriptWord a && isScriptWord b) || (a == '+' && b == '+') || (a == '-' && b == '-') ||
    (a == '/' && (b == '/' || b == '*')) || (a == '.' && isDigit b)

/-- characters behind which no statement ends -/
def continuesAfter : List Char :=
  ['{', '(', '[', ',', ';', ':', '=', '*', '%', '&', '|', '^', '!', '~', '?', '<', '>']

/-- characters that cannot begin a statement -/
def continuesBefore : List Char :=
  [')', ']', '}', ',', ';', ':', '.', '?', '=', '*', '%', '&', '|', '^', '<', '>']

/-- whether a line end between two characters carries no meaning -/
def lineEndMayGo (a b : Char) : Bool := continuesAfter.contains a || continuesBefore.contains b

/-- the gaps passed since the last lexeme -/
structure Passed where
  space : Bool
  newline : Bool

def Passed.nothing : Passed := ⟨false, false⟩

def Passed.add (p : Passed) : Gap → Passed
  | .space => { p with space := true }
  | .newline => { p with newline := true }
  | .lineComment => p

/-- what is left of the gaps between two characters -/
def scriptGap (p : Passed) (a b : Char) : Text :=
  if p.newline && !lineEndMayGo a b then ['\n']
  else if (p.newline || p.space) && needSpace a b then [' ']
  else []

/-- what is left of the gaps behind the last character written, if there is one -/
def scriptGapAfter (p : Passed) : Option Char → Char → Text
  | none, _ => []
  | some a, b => scriptGap p a b

/-- the items written one behind the other -/
def writeScript : Option Char → Passed → List Item → Text
  | _, _, [] => []
  | last, p, .gap g :: r => writeScript last (p.add g) r
  | last, p, .lexeme l :: r =>
    match l.text with
    | [] => writeScript last p r
    | c :: _ => scriptGapAfter p last c ++ l.text ++ writeScript l.text.getLast? .nothing r

def compactScript (t : Text) : Except CodeFault Text :=
  (readScript t).map fun items => trim (writeScript none .nothing items)

end SiteBundle
