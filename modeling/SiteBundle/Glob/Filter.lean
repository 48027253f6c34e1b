import SiteBundle.Glob.Expression
import SiteBundle.Text.Blank

/-!
# Lists of patterns

A list of patterns matches a path when one of them does.  A pattern of a list is first widened: it
also matches everything below what it names, and one without a slash matches at any depth.

* `widened`            the patterns that one pattern of a list stands for;
* `BadPattern`         why a list cannot be used;
* `PathFilter.read`    reads a list; first every pattern must be readable, and then no expression may
  be nested too deep;
* `PathFilter.accepts`   whether a list matches a path.
-/

namespace SiteBundle

open Text

/-- without leading `./`, however often it is there -/
def dropDotSlash : Text → Text
  | '.' :: '/' :: r => dropDotSlash r
  | t => t

/-- without slashes at both ends -/
def trimSlashes (t : Text) : Text := trimEndBy (· == '/') (t.dropWhile (· == '/'))

/-- the patterns that a pattern of a list stands for -/
def widened (pattern : Text) : List Text :=
  let core := trimSlashes (dropDotSlash (trim pattern))
  let below := "/**".toList
  let anyDepth := "**/".toList
  if core.isEmpty then []
  else if core.contains '/' then [core, core ++ below]
  else [core, core ++ below, anyDepth ++ core, anyDepth ++ core ++ below]

/-- why a list of patterns cannot be used -/
inductive BadPattern where
  /-- a pattern cannot be read: as given, as widened, and why -/
  | unreadable (pattern widened : Text) (fault : GlobFault)
  /-- an expression is nested too deep: its place among the expressions, which are tried together -/
  | tooDeep (place : Nat)
  /-- an expression that is tried by itself, where a path has the right extension, is nested too
  deep -/
  | tooDeepWithExtension (expression : Text)
deriving DecidableEq

def BadPattern.messages : BadPattern → List String
  | .unreadable pattern widened fault =>
    ["invalid glob pattern '" ++ .ofList pattern ++ "'",
      "error parsing glob '" ++ .ofList widened ++ "': " ++ fault.message]
  | .tooDeep place =>
    ["failed to build glob matcher", "error parsing pattern " ++ toString place]
  | .tooDeepWithExtension expression =>
    ["failed to build glob matcher",
      "error parsing glob '" ++ .ofList expression ++ "': error parsing pattern 0"]

structure PathFilter where
  globs : List Glob

def PathFilter.nothing : PathFilter := ⟨[]⟩

def readWidened (pattern : Text) : Except BadPattern (List Glob) :=
  (widened pattern).mapM fun w =>
    match globTokens w with
    | .ok tokens => .ok ⟨tokens⟩
    | .error fault => .error (.unreadable pattern w fault)

/-- an expression that is nested too deep; those that are tried by themselves come first -/
def tooDeep? (globs : List Glob) : Option BadPattern :=
  let isDeep := fun (g : Glob) => maxNesting < g.nesting
  match globs.find? fun g => g.shape = .expressionWithExtension && isDeep g with
  | some g => some (.tooDeepWithExtension g.expression)
  | none => ((globs.filter (·.shape = .expression)).findIdx? isDeep).map .tooDeep

/-- reads a list of patterns; the first one that cannot be read is reported -/
def PathFilter.read (patterns : List Text) : Except BadPattern PathFilter := do
  let globs := (← patterns.mapM readWidened).flatten
  match tooDeep? globs with
  | some fault => .error fault
  | none => .ok ⟨globs⟩

def PathFilter.accepts (f : PathFilter) (path : Text) : Bool := f.globs.any (·.accepts path)

end SiteBundle
