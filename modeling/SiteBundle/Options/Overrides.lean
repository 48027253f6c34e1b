import SiteBundle.Glob.Filter
import SiteBundle.Options.Basic

/-!
# Options for some paths

Options may hold layers that are meant for some paths only, each under a pattern.  `Overrides.read`
reads the patterns, and `Overrides.resolve` lays every layer whose pattern matches a path over the
options, in the order of the patterns.
-/

namespace SiteBundle

/-- layers with the patterns of the paths they are meant for -/
structure Overrides where
  entries : List (PathFilter × Layer)

namespace Overrides

def nothing : Overrides := ⟨[]⟩

/-- reads the patterns; the first one that cannot be read is reported -/
def read (layers : List (Text × Layer)) : Except BadPattern Overrides :=
  (layers.mapM fun l => (PathFilter.read [l.1]).map fun filter => (filter, l.2)).map fun entries =>
    ⟨entries⟩

def layersFor (o : Overrides) (path : Text) : List Layer :=
  (o.entries.filter fun e => e.1.accepts path).map (·.2)

/-- the options for a path -/
def resolve (o : Overrides) (base : Options) (path : Text) : Options :=
  (o.layersFor path).foldl Options.overlay base

end Overrides
end SiteBundle
