import SiteBundle.Text.Basic

/-!
# Faults of code

Code that cannot be read is refused with the byte offset at which the unreadable part starts and
with what is wrong there.
-/

namespace SiteBundle

/-- why code of a script or a stylesheet cannot be read -/
inductive Unclosed where
  | comment
  /-- a string of a stylesheet -/
  | string
  /-- a string of a script -/
  | stringLiteral
  | regularExpression
  | templateLiteral
  | templateSubstitution
deriving DecidableEq, Repr

def Unclosed.message : Unclosed → String
  | .comment => "unterminated comment"
  | .string => "unterminated string"
  | .stringLiteral => "unterminated string literal"
  | .regularExpression => "unterminated regular expression"
  | .templateLiteral => "unterminated template literal"
  | .templateSubstitution => "unterminated template substitution"

/-- a fault and the byte offset it starts at -/
structure CodeFault where
  offset : Nat
  unclosed : Unclosed
deriving DecidableEq, Repr

/-- the text behind the closing quote of a string whose opening quote was read, with the string as
written; a backslash takes the next character along, and a line end leaves the string unclosed -/
def quotedRest? (quote : Char) : Text → Option (Text × Text)
  | [] => none
  | ['\\'] => none
  | '\\' :: c :: r => (quotedRest? quote r).map fun p => ('\\' :: c :: p.1, p.2)
  | c :: r =>
    if c = '\n' then none
    else if c = quote then some ([c], r)
    else (quotedRest? quote r).map fun p => (c :: p.1, p.2)

end SiteBundle
