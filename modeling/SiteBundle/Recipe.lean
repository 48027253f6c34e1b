import SiteBundle.Family
import SiteBundle.Script.Compact
import SiteBundle.Style.Compact
import SiteBundle.Style.Tidy
import SiteBundle.Style.Vendor

/-!
# Recipes: what is done to the code of a bundle

A recipe says which transforms a bundle's code goes through; bundles of files handled one by one are
shared only between equal recipes.

* `Target`        the language level scripts are lowered to;
* `Recipe`        the switches;
* `Transform`     one transform;
* `Recipe.transforms`, `runTransforms`   the transforms of a family in order, and their effect.

No transform for a language level is built in: lowering leaves code as it is.
-/

namespace SiteBundle

open Text

/-- the language level that scripts are lowered to -/
inductive Target where
  | off
  | es5
  | es2015
  | es2017
  | es2020
  | esNext
deriving DecidableEq, Repr

namespace Target

def enabled (t : Target) : Bool := t != .off

def label : Target → String
  | .off => "off"
  | .es5 => "es5"
  | .es2015 => "es2015"
  | .es2017 => "es2017"
  | .es2020 => "es2020"
  | .esNext => "esnext"

def all : List Target := [.off, .es5, .es2015, .es2017, .es2020, .esNext]

/-- the words a level may be given by -/
def words : Target → List String
  | .off => ["off", "none", "false"]
  | .es5 => ["es5"]
  | .es2015 => ["es2015", "es6"]
  | .es2017 => ["es2017"]
  | .es2020 => ["es2020"]
  | .esNext => ["esnext", "latest"]

/-- a word as it is compared -/
def normalise (word : String) : String := .ofList (lower (trim word.toList))

/-- the level of a word, in either case and with white space around it -/
def ofWord? (word : String) : Option Target :=
  all.find? fun t => t.words.contains (normalise word)

end Target

/-- the transforms a bundle's code goes through -/
structure Recipe where
  minifyScript : Bool
  /-- whether a script is wrapped in a function that is called at once -/
  iifeScript : Bool
  transpileScript : Target
  minifyCss : Bool
  /-- whether a stylesheet is tidied -/
  optimizeCss : Bool
  autoprefixCss : Bool
  /-- whether the code is made safe for the element it is written into; that is done where it is
  written, not by a transform -/
  sanitize : Bool
deriving DecidableEq, Repr

/-- the recipe that does nothing -/
def Recipe.plain : Recipe := ⟨false, false, .off, false, false, false, false⟩

/-- one transform of code -/
inductive Transform where
  | transpile (target : Target)
  | wrap
  | minifyScript
  | vendorCopies
  | optimizeCss
  | minifyCss
deriving DecidableEq, Repr

def Recipe.transforms (r : Recipe) : Family → List Transform
  | .script =>
    (if r.transpileScript.enabled then [.transpile r.transpileScript] else []) ++
      (if r.iifeScript then [.wrap] else []) ++ if r.minifyScript then [.minifyScript] else []
  | .style =>
    (if r.autoprefixCss then [.vendorCopies] else []) ++
      (if r.optimizeCss then [.optimizeCss] else []) ++ if r.minifyCss then [.minifyCss] else []

/-- code inside a function that is called at once -/
def wrapScript (code : Text) : Text :=
  "(function()\x7b\n".toList ++ code ++ "\n\x7d)();".toList

def Transform.run : Transform → Text → Except CodeFault Text
  | .transpile _, code => .ok code
  | .wrap, code => .ok (wrapScript code)
  | .minifyScript, code => compactScript code
  | .vendorCopies, code => .ok (addVendorPrefixes code)
  | .optimizeCss, code => .ok (tidyStyle code)
  | .minifyCss, code => compactStyle code

/-- several transforms one after the other, up to the first that fails: those that were begun, and
their effect -/
def runTransforms : List Transform → Text → List Transform × Except CodeFault Text
  | [], code => ([], .ok code)
  | t :: ts, code =>
    match t.run code with
    | .error fault => ([t], .error fault)
    | .ok code =>
      let (begun, result) := runTransforms ts code
      (t :: begun, result)

def Recipe.prepare (r : Recipe) (f : Family) (code : Text) : Except CodeFault Text :=
  (runTransforms (r.transforms f) code).2

end SiteBundle
