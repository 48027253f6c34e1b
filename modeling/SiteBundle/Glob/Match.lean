import SiteBundle.Glob.Pattern
import SiteBundle.Text.Utf8

/-!
# Matching paths

A path is matched byte by byte.  `acceptsTokens` says what tokens mean: whether they match a
beginning of the bytes whose rest satisfies a condition.
-/

namespace SiteBundle

open Text

/-- whether some end of the bytes satisfies `k` -/
def someEnd (k : List UInt8 → Bool) : List UInt8 → Bool
  | [] => k []
  | b :: r => k (b :: r) || someEnd k r

/-- whether some end behind a slash satisfies `k` -/
def someEndBehindSlash (k : List UInt8 → Bool) : List UInt8 → Bool
  | [] => false
  | b :: r => (b == 0x2F && k r) || someEndBehindSlash k r

/-- whether the bytes begin with `lead` and the rest satisfies `k` -/
def behindLead (k : List UInt8 → Bool) : List UInt8 → List UInt8 → Bool
  | [], s => k s
  | _ :: _, [] => false
  | l :: lead, b :: s => l == b && behindLead k lead s

/-- the byte ranges of a range of characters: all bytes of both ends count, and the last byte of the
lower and the first of the upper end bound a range -/
def rangeBytes (r : Char × Char) : List (UInt8 × UInt8) :=
  let low := Utf8.bytes [r.1]
  let high := Utf8.bytes [r.2]
  let points := fun (bs : List UInt8) => bs.map fun b => (b, b)
  if r.1 = r.2 then points low
  else
    match low.getLast?, high with
    | some a, b :: rest => points low.dropLast ++ (a, b) :: points rest
    | _, _ => []

def classHolds (ranges : List (Char × Char)) (b : UInt8) : Bool :=
  (ranges.flatMap rangeBytes).any fun r => r.1 ≤ b && b ≤ r.2

mutual

/-- whether a token adds nothing to a pattern: a choice without a branch that says anything -/
def GlobToken.isVoid : GlobToken → Bool
  | .choice branches => allVoid branches
  | _ => false

def branchVoid : List GlobToken → Bool
  | [] => true
  | t :: r => t.isVoid && branchVoid r

def allVoid : List (List GlobToken) → Bool
  | [] => true
  | b :: r => branchVoid b && allVoid r

end

mutual

/-- whether the token matches a beginning of the bytes whose rest satisfies `k` -/
def GlobToken.accepts : GlobToken → (List UInt8 → Bool) → List UInt8 → Bool
  | .literal c, k, s => behindLead k (Utf8.bytes [c]) s
  | .anyByte, k, s =>
    match s with
    | [] => false
    | _ :: r => k r
  | .star, k, s => someEnd k s
  | .deepStart, k, s => k s || someEndBehindSlash k s
  | .deepEnd, k, s =>
    match s with
    | [] => false
    | b :: r => b == 0x2F && someEnd k r
  | .deepMiddle, k, s =>
    match s with
    | [] => false
    | b :: r => b == 0x2F && (k r || someEndBehindSlash k r)
  | .oneOf negated ranges, k, s =>
    match s with
    | [] => false
    | b :: r => (classHolds ranges b != negated) && k r
  | .choice branches, k, s => if allVoid branches then k s else acceptsBranch branches k s

/-- whether the tokens match a beginning of the bytes whose rest satisfies `k` -/
def acceptsTokens : List GlobToken → (List UInt8 → Bool) → List UInt8 → Bool
  | [], k, s => k s
  | t :: r, k, s => t.accepts (fun s => acceptsTokens r k s) s

/-- whether one of the branches that are not void does -/
def acceptsBranch : List (List GlobToken) → (List UInt8 → Bool) → List UInt8 → Bool
  | [], _, _ => false
  | b :: r, k, s => (!branchVoid b && acceptsTokens b k s) || acceptsBranch r k s

end

end SiteBundle
