import SiteBundle.Glob.Table

/-!
# Expressions of patterns

A pattern without a simple shape is matched by a regular expression over bytes.

* `Glob.expression`   the expression as text, for messages;
* `Glob.nesting`      how deep it is nested: a sequence, a choice, a group, a repetition and a class
  each count one, and so does a class of several parts once more;
* `maxNesting`        how deep an expression may be nested.
-/

namespace SiteBundle

open Text

/-! ## As text -/

/-- the characters that mean something in an expression -/
def isExpressionSign (b : UInt8) : Bool := "\\.+*?()|[]\x7b\x7d^$#&-~".toUTF8.toList.contains b

/-- a byte as it stands for itself in an expression -/
def byteExpression (b : UInt8) : Text :=
  if 0x80 ≤ b then
    '\\' :: 'x' :: [Nat.digitChar (b.toNat / 16), Nat.digitChar (b.toNat % 16)]
  else if isExpressionSign b then ['\\', Char.ofNat b.toNat]
  else [Char.ofNat b.toNat]

/-- a character as it stands for itself in an expression -/
def charExpression (c : Char) : Text := (Utf8.bytes [c]).flatMap byteExpression

def rangeExpression (r : Char × Char) : Text :=
  if r.1 = r.2 then charExpression r.1 else charExpression r.1 ++ '-' :: charExpression r.2

mutual

def GlobToken.expression : GlobToken → Text
  | .literal c => charExpression c
  | .anyByte => ".".toList
  | .star => ".*".toList
  | .deepStart => "(?:/?|.*/)".toList
  | .deepEnd => "/.*".toList
  | .deepMiddle => "(?:/|/.*/)".toList
  | .oneOf negated ranges =>
    '[' :: (if negated then ['^'] else []) ++ ranges.flatMap rangeExpression ++ [']']
  | .choice branches =>
    match branchExpressions branches with
    | [] => []
    | parts => "(?:".toList ++ join ['|'] parts ++ [')']

def tokensExpression : List GlobToken → Text
  | [] => []
  | t :: r => t.expression ++ tokensExpression r

def branchExpressions : List (List GlobToken) → List Text
  | [] => []
  | b :: r =>
    if branchVoid b then branchExpressions r else tokensExpression b :: branchExpressions r

end

/-- the expression of a pattern, from the beginning of a path to its end -/
def Glob.expression (g : Glob) : Text := "(?-u)^".toList ++ tokensExpression g.tokens ++ ['$']

/-! ## Nesting -/

def GlobToken.parts : GlobToken → Nat
  | .literal c => c.utf8Size
  | .deepEnd => 2
  | .choice branches => if allVoid branches then 0 else 1
  | _ => 1

/-- how much a sequence of tokens is nested by being one: several parts count -/
def sequenceNesting (tokens : List GlobToken) : Nat :=
  if 2 ≤ tokens.foldr (fun t n => t.parts + n) 0 then 1 else 0

/-- how much branches are nested by being a choice: several that are not void count -/
def choiceNesting (branches : List (List GlobToken)) : Nat :=
  if 2 ≤ (branches.filter fun b => !branchVoid b).length then 1 else 0

mutual

def GlobToken.nesting : GlobToken → Nat
  | .literal _ => 0
  | .anyByte => 0
  | .star => 1
  | .deepStart => 4
  | .deepEnd => 1
  | .deepMiddle => 4
  | .oneOf _ ranges => if (ranges.flatMap rangeBytes).length = 1 then 1 else 2
  | .choice branches =>
    if allVoid branches then 0 else 1 + choiceNesting branches + branchesNesting branches

/-- how deep the tokens of a sequence are nested, the sequence not counted -/
def tokensNesting : List GlobToken → Nat
  | [] => 0
  | t :: r => max t.nesting (tokensNesting r)

/-- how deep the sequences of branches are nested -/
def branchesNesting : List (List GlobToken) → Nat
  | [] => 0
  | b :: r => max (sequenceNesting b + tokensNesting b) (branchesNesting r)

end

def Glob.nesting (g : Glob) : Nat := 1 + tokensNesting g.tokens

def maxNesting : Nat := 250

end SiteBundle
