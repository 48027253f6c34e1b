import SiteBundle.Glob.Match
import SiteBundle.Glob.Shape

/-!
# Matching by tables

Trying all rests of a path, star by star, takes long on a path that does not match.  A table says of
every end of the bytes whether it satisfies a condition, from the whole to the empty end, and a
token turns the table of what must follow it into its own in one pass.

* `endTable`           the table of a condition;
* `tokensTable`        the table of tokens, from the table of the condition behind them;
* `tokensTable_endTable`   it is the table of `acceptsTokens`;
* `Glob.describes`     whether the tokens of a pattern match a path;
* `Glob.accepts`       whether a pattern matches a path: a pattern that is told by the file name alone
  does not match a path that ends in `..`, because such a path names no file.
-/

namespace SiteBundle

open Text

/-! ## Tables -/

/-- for every end of the bytes, longest first, whether it satisfies `k` -/
def endTable (k : List UInt8 → Bool) : List UInt8 → List Bool
  | [] => [k []]
  | b :: r => k (b :: r) :: endTable k r

/-- whether an end or a shorter one is in the table -/
def laterTable : List Bool → List Bool
  | [] => []
  | x :: r =>
    let later := laterTable r
    (x || later.headD false) :: later

/-- whether an end starts with a byte of a class and the rest is in the table -/
def stepTable (p : UInt8 → Bool) : List UInt8 → List Bool → List Bool
  | [], _ => [false]
  | _ :: _, [] => []
  | b :: r, _ :: t => (p b && t.headD false) :: stepTable p r t

/-- whether an end is in one of two tables -/
def eitherTable (t u : List Bool) : List Bool := List.zipWith (· || ·) t u

/-- whether an end starts with `lead` and the rest is in the table -/
def leadTable (lead : List UInt8) (s : List UInt8) (t : List Bool) : List Bool :=
  lead.foldr (fun l t => stepTable (l == ·) s t) t

/-- whether an end is in the table, or some end behind a slash in it -/
def deepTable (s : List UInt8) (t : List Bool) : List Bool :=
  eitherTable t (laterTable (stepTable (· == 0x2F) s t))

mutual

/-- the table of a token, from the table of what follows it -/
def GlobToken.table (s : List UInt8) : GlobToken → List Bool → List Bool
  | .literal c, t => leadTable (Utf8.bytes [c]) s t
  | .anyByte, t => stepTable (fun _ => true) s t
  | .star, t => laterTable t
  | .deepStart, t => deepTable s t
  | .deepEnd, t => stepTable (· == 0x2F) s (laterTable t)
  | .deepMiddle, t => stepTable (· == 0x2F) s (deepTable s t)
  | .oneOf negated ranges, t => stepTable (fun b => classHolds ranges b != negated) s t
  | .choice branches, t => if allVoid branches then t else branchTable s branches t

def tokensTable (s : List UInt8) : List GlobToken → List Bool → List Bool
  | [], t => t
  | token :: r, t => token.table s (tokensTable s r t)

/-- the table of the branches that are not void -/
def branchTable (s : List UInt8) : List (List GlobToken) → List Bool → List Bool
  | [], _ => endTable (fun _ => false) s
  | b :: r, t =>
    if branchVoid b then branchTable s r t
    else eitherTable (tokensTable s b t) (branchTable s r t)

end

/-! ## What the tables say -/

theorem headD_endTable (k : List UInt8 → Bool) (s : List UInt8) :
    (endTable k s).headD false = k s := by
  cases s <;> rfl

theorem endTable_congr {k l : List UInt8 → Bool} (h : ∀ s, k s = l s) (s : List UInt8) :
    endTable k s = endTable l s := by
  rw [show k = l from funext h]

theorem laterTable_endTable (k : List UInt8 → Bool) (s : List UInt8) :
    laterTable (endTable k s) = endTable (someEnd k) s := by
  induction s with
  | nil => simp [endTable, laterTable, someEnd]
  | cons b r ih => rw [endTable, laterTable, ih, headD_endTable, endTable, someEnd]

theorem stepTable_endTable (p : UInt8 → Bool) (k : List UInt8 → Bool) (s : List UInt8) :
    stepTable p s (endTable k s) =
      endTable (fun
        | [] => false
        | b :: r => p b && k r) s := by
  induction s with
  | nil => rfl
  | cons b r ih => rw [endTable, stepTable, ih, headD_endTable, endTable]

theorem eitherTable_endTable (k l : List UInt8 → Bool) (s : List UInt8) :
    eitherTable (endTable k s) (endTable l s) = endTable (fun s => k s || l s) s := by
  induction s with
  | nil => rfl
  | cons b r ih =>
    rw [endTable, endTable, endTable, ← ih]
    rfl

theorem leadTable_endTable (lead : List UInt8) (k : List UInt8 → Bool) (s : List UInt8) :
    leadTable lead s (endTable k s) = endTable (behindLead k lead) s := by
  induction lead with
  | nil => exact endTable_congr (fun s => by cases s <;> rfl) s
  | cons l lead ih =>
    have e : leadTable (l :: lead) s (endTable k s) =
        stepTable (l == ·) s (leadTable lead s (endTable k s)) := rfl
    rw [e, ih, stepTable_endTable]
    exact endTable_congr (fun s => by cases s <;> rfl) s

/-- looking behind slashes is looking at the ends that start with one -/
theorem someEndBehindSlash_eq (k : List UInt8 → Bool) (s : List UInt8) :
    someEnd (fun
      | [] => false
      | b :: r => b == 0x2F && k r) s = someEndBehindSlash k s := by
  induction s with
  | nil => rfl
  | cons b r ih => rw [someEnd, ih, someEndBehindSlash]

theorem deepTable_endTable (k : List UInt8 → Bool) (s : List UInt8) :
    deepTable s (endTable k s) = endTable (fun s => k s || someEndBehindSlash k s) s := by
  rw [deepTable, stepTable_endTable, laterTable_endTable, eitherTable_endTable]
  exact endTable_congr (fun s => by rw [someEndBehindSlash_eq]) s

mutual

theorem GlobToken.table_endTable (s : List UInt8) (k : List UInt8 → Bool) :
    ∀ t : GlobToken, t.table s (endTable k s) = endTable (t.accepts k) s
  | .literal c => by
    rw [GlobToken.table, leadTable_endTable]
    exact endTable_congr (fun s => by rw [GlobToken.accepts]) s
  | .anyByte => by
    rw [GlobToken.table, stepTable_endTable]
    exact endTable_congr (fun s => by cases s <;> rfl) s
  | .star => by
    rw [GlobToken.table, laterTable_endTable]
    exact endTable_congr (fun s => by rw [GlobToken.accepts]) s
  | .deepStart => by
    rw [GlobToken.table, deepTable_endTable]
    exact endTable_congr (fun s => by rw [GlobToken.accepts]) s
  | .deepEnd => by
    rw [GlobToken.table, laterTable_endTable, stepTable_endTable]
    exact endTable_congr (fun s => by cases s <;> rfl) s
  | .deepMiddle => by
    rw [GlobToken.table, deepTable_endTable, stepTable_endTable]
    exact endTable_congr (fun s => by cases s <;> rfl) s
  | .oneOf negated ranges => by
    rw [GlobToken.table, stepTable_endTable]
    exact endTable_congr (fun s => by cases s <;> rfl) s
  | .choice branches => by
    rw [GlobToken.table, branchTable_endTable s k branches]
    split
    · next h => exact endTable_congr (fun s => by rw [GlobToken.accepts, if_pos h]) s
    · next h => exact endTable_congr (fun s => by rw [GlobToken.accepts, if_neg h]) s

theorem tokensTable_endTable (s : List UInt8) (k : List UInt8 → Bool) :
    ∀ tokens : List GlobToken,
      tokensTable s tokens (endTable k s) = endTable (acceptsTokens tokens k) s
  | [] => endTable_congr (fun s => by rw [acceptsTokens]) s
  | t :: r => by
    rw [tokensTable, tokensTable_endTable s k r, GlobToken.table_endTable s _ t]
    exact endTable_congr (fun s => by rw [acceptsTokens]) s

theorem branchTable_endTable (s : List UInt8) (k : List UInt8 → Bool) :
    ∀ branches : List (List GlobToken),
      branchTable s branches (endTable k s) = endTable (acceptsBranch branches k) s
  | [] => endTable_congr (fun s => by rw [acceptsBranch]) s
  | b :: r => by
    rw [branchTable, tokensTable_endTable s k b, branchTable_endTable s k r]
    split
    · next h => exact endTable_congr (fun s => by rw [acceptsBranch, h]; rfl) s
    · next h =>
      rw [eitherTable_endTable]
      exact endTable_congr (fun s => by rw [acceptsBranch, Bool.eq_false_iff.mpr h]; rfl) s

end

def acceptsWhole (tokens : List GlobToken) (s : List UInt8) : Bool :=
  (tokensTable s tokens (endTable List.isEmpty s)).headD false

theorem acceptsWhole_eq (tokens : List GlobToken) (s : List UInt8) :
    acceptsWhole tokens s = acceptsTokens tokens List.isEmpty s := by
  rw [acceptsWhole, tokensTable_endTable, headD_endTable]

/-! ## Patterns -/

structure Glob where
  tokens : List GlobToken

namespace Glob

/-- what the pattern says -/
def shape (g : Glob) : GlobShape := .ofTokens g.tokens

/-- whether the tokens match the path; the lone pattern of two stars matches every path -/
def describes (g : Glob) (path : Text) : Bool :=
  match g.tokens with
  | [.deepStart] => true
  | tokens => acceptsWhole tokens (Utf8.bytes path)

def accepts (g : Glob) (path : Text) : Bool :=
  g.describes path && (!g.shape.asksForName || namesFile path)

/-- the tables decide what the tokens mean -/
theorem describes_eq {g : Glob} (h : g.tokens ≠ [.deepStart]) (path : Text) :
    g.describes path = acceptsTokens g.tokens List.isEmpty (Utf8.bytes path) := by
  rw [describes]
  split
  · next e => exact absurd e h
  · exact acceptsWhole_eq g.tokens (Utf8.bytes path)

end Glob

end SiteBundle
