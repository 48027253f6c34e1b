import SiteBundle.Glob.Pattern

/-!
# Shapes of patterns

Most patterns say something simple: one path, one file name at any depth, one extension, what a path
begins or ends with.  `GlobShape.ofTokens` sorts a pattern into the first of these shapes that it
has.

The shape matters twice.  A pattern that is told by the file name (`GlobShape.asksForName`) is not
asked of a path without one (`namesFile`), and only the patterns without a simple shape are turned
into expressions, which must not be nested too deep.
-/

namespace SiteBundle

open Text

/-- what a pattern says about the paths it matches -/
inductive GlobShape where
  /-- any directories, and then this file name -/
  | fileName
  /-- this path -/
  | path
  /-- a file name with this extension -/
  | extension
  /-- a path that begins so -/
  | beginning
  /-- a path that ends so -/
  | ending
  /-- a path that fits an expression and has a file name with this extension -/
  | expressionWithExtension
  /-- a path that fits an expression -/
  | expression
deriving DecidableEq, Repr

/-- whether the file name of a path is looked at -/
def GlobShape.asksForName : GlobShape → Bool
  | .fileName => true
  | .extension => true
  | .expressionWithExtension => true
  | _ => false

/-- whether the token is a character of a class -/
def GlobToken.isLiteral (p : Char → Bool) : GlobToken → Bool
  | .literal c => p c
  | _ => false

def allLiteral (tokens : List GlobToken) : Bool := tokens.all (·.isLiteral fun _ => true)

/-- without the directories that may lead a pattern -/
def dropDeepStart : List GlobToken → List GlobToken
  | .deepStart :: r => r
  | tokens => tokens

/-- whether any directories lead and a file name follows -/
def saysFileName : List GlobToken → Bool
  | .deepStart :: r => !r.isEmpty && r.all (·.isLiteral (· != '/'))
  | _ => false

/-- whether there is one star and then an extension -/
def saysExtension (tokens : List GlobToken) : Bool :=
  match dropDeepStart tokens with
  | .star :: .literal '.' :: r => r.all (·.isLiteral fun c => c != '.' && c != '/')
  | _ => false

/-- whether a star or everything below follows characters -/
def saysBeginning (tokens : List GlobToken) : Bool :=
  match tokens.getLast? with
  | some .star => 2 ≤ tokens.length && allLiteral tokens.dropLast
  | some .deepEnd => allLiteral tokens.dropLast
  | _ => false

/-- whether the tokens are characters that a path may end with; a lone slash is not enough -/
def isEnding : List GlobToken → Bool
  | [] => false
  | [.literal '/'] => false
  | tokens => allLiteral tokens

/-- whether characters follow any directories, a star or both -/
def saysEnding : List GlobToken → Bool
  | .deepStart :: .star :: r => isEnding r
  | .deepStart :: r => !r.isEmpty && allLiteral r
  | .star :: r => isEnding r
  | _ => false

/-- whether the tokens, last first, are characters of a file name back to a dot -/
def endsInExtension : List GlobToken → Bool
  | .literal c :: r => c == '.' || (c != '/' && endsInExtension r)
  | _ => false

def GlobShape.ofTokens (tokens : List GlobToken) : GlobShape :=
  if saysFileName tokens then .fileName
  else if !tokens.isEmpty && allLiteral tokens then .path
  else if saysExtension tokens then .extension
  else if saysBeginning tokens then .beginning
  else if saysEnding tokens then .ending
  else if endsInExtension tokens.reverse then .expressionWithExtension
  else .expression

/-- whether a path has a file name: it is not empty and its last step does not lead upwards -/
def namesFile (path : Text) : Bool :=
  !path.isEmpty && (splitOn '/' path).getLast? != some ['.', '.']

end SiteBundle
