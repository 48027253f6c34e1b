import SiteBundle.Text.Blank
import SiteBundle.Text.Fold
import SiteBundle.Text.Pieces
import SiteBundle.Fault

/-!
# Compact stylesheets

Comments are left out, strings are copied, and each run of white space becomes one space, or nothing
next to punctuation that needs none: behind `{ } : ; ,` or at the start, and before `{ } ; ,`.

* `Islet`            a comment, a string, or one of them left open;
* `stylePieces`      the stylesheet as islets and the characters between them;
* `compactStyle`     the compact form, or the first fault.
-/

namespace SiteBundle

open Text

/-- the parts of a stylesheet that are not read character by character -/
inductive Islet where
  | comment (text : Text)
  | quoted (quote : Char) (rest : Text)
  | unclosed (what : Unclosed)
deriving Repr

/-- a comment or a string at the front of a text -/
def islet? : Text → Option (Islet × Text)
  | '/' :: '*' :: r =>
    match seek (readFold? ['*', '/']) r with
    | some (inside, _, rest) => some (.comment inside, rest)
    | none => some (.unclosed .comment, [])
  | '"' :: r =>
    match quotedRest? '"' r with
    | some (text, rest) => some (.quoted '"' text, rest)
    | none => some (.unclosed .string, [])
  | '\'' :: r =>
    match quotedRest? '\'' r with
    | some (text, rest) => some (.quoted '\'' text, rest)
    | none => some (.unclosed .string, [])
  | _ => none

/-- a stylesheet as islets and the characters between them -/
def stylePieces (t : Text) : List (Piece Islet) := pieces (fun _ => islet?) t

/-- the first comment or string that is left open -/
def styleFault? (t : Text) : Option CodeFault :=
  (stylePieces t).findSome? fun
    | .found offset (.unclosed what) => some ⟨offset, what⟩
    | _ => none

/-- the white space of stylesheets -/
def isStyleGap (c : Char) : Bool :=
  c == ' ' || c == '\t' || c == '\n' || c == '\r' || c == '\x0c'

/-- punctuation behind which no space is needed -/
def tightAfter (c : Char) : Bool := c == '{' || c == '}' || c == ':' || c == ';' || c == ','

/-- punctuation before which no space is needed -/
def tightBefore (c : Char) : Bool := c == '{' || c == '}' || c == ';' || c == ','

/-- what a run of white space becomes between the last character written and the next one -/
def styleGap (last : Option Char) (gap : Bool) (next : Char) : Text :=
  match gap, last with
  | true, some c => if tightAfter c || tightBefore next then [] else [' ']
  | _, _ => []

/-- the pieces written one behind the other; `gap` tells whether white space was passed since the
last character written -/
def writeStyle : Option Char → Bool → List (Piece Islet) → Text
  | _, _, [] => []
  | last, gap, .plain c :: r =>
    if isStyleGap c then writeStyle last true r
    else styleGap last gap c ++ c :: writeStyle (some c) false r
  | last, gap, .found _ (.quoted q rest) :: r =>
    styleGap last gap q ++ q :: rest ++ writeStyle (some q) false r
  | last, gap, .found _ (.comment _) :: r => writeStyle last gap r
  | last, gap, .found _ (.unclosed _) :: r => writeStyle last gap r

def compactStyle (t : Text) : Except CodeFault Text :=
  match styleFault? t with
  | some fault => .error fault
  | none => .ok (trim (writeStyle none false (stylePieces t)))

end SiteBundle
