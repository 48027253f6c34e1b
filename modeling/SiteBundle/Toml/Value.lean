import SiteBundle.Text.Basic

/-!
# TOML values

A TOML document is a table.  Numbers and dates occur in no option, so of them only the written form
is kept.
-/

namespace SiteBundle

/-- a TOML value; a table lists its keys in the order they were set -/
inductive Toml where
  | string (t : Text)
  | boolean (b : Bool)
  | number (written : Text)
  | date (written : Text)
  | array (items : List Toml)
  | table (entries : List (Text × Toml))
deriving Repr

namespace Toml

/-- the value of a key among the entries of a table -/
def lookup? (key : Text) (entries : List (Text × Toml)) : Option Toml :=
  (entries.find? (·.1 == key)).map (·.2)

end Toml
end SiteBundle
