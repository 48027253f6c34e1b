import SiteBundle.Failure
import SiteBundle.Options.Table
import SiteBundle.Toml.Read
import SiteBundle.Toml.Write

/-!
# Where options come from

The options of a run are layers laid over the defaults, each over those before it: the user's own
file, the file of the project, and the environment.  A file that is not there sets nothing.

* `Options.ofText`, `Options.text`   options as TOML;
* `Layer.ofFile`                     the layer that a file holds;
* `OptionSources`, `Options.load`    all layers.
-/

namespace SiteBundle

open Text

/-- a layer as TOML, read -/
def readLayer (t : Text) : Except Failure Layer :=
  match (Toml.read? t).bind fun entries => Layer.ofToml? (.table entries) with
  | some layer => .ok layer
  | none => .error (.of .unreadableOptions)

def Options.ofText (t : Text) : Except Failure Options :=
  during "failed to parse TOML config" ((readLayer t).map Options.defaults.overlay)

def Options.text (o : Options) : Text := Toml.documentText o.toTable

def Layer.ofFile (d : Disk) (path : Text) : Except Failure Layer := do
  let t ← during ("failed to read config file: " ++ shown path) (onDisk (d.readText (d.steps path)))
  during ("failed to parse TOML config: " ++ shown path) (readLayer t)

/-- the layer that a file holds if it is there -/
def Layer.ofFileIfThere (d : Disk) (path : Text) : Except Failure Layer :=
  if d.leadsTo path then Layer.ofFile d path else .ok .empty

/-- the layers over the defaults -/
structure OptionSources where
  /-- the files, in the order they are laid over each other -/
  files : List Text
  /-- the source directory that the environment names -/
  src : Option Text
  /-- the output directory that the environment names -/
  dist : Option Text

/-- a layer that sets the two directories -/
def Layer.ofDirectories (src dist : Option Text) : Layer :=
  (Layer.empty.setField? .src src).setField? .dist dist

def OptionSources.layers (s : OptionSources) (d : Disk) : Except Failure (List Layer) := do
  let files ← s.files.mapM (Layer.ofFileIfThere d)
  return files ++ [.ofDirectories s.src s.dist]

/-- the options from all sources -/
def Options.load (d : Disk) (s : OptionSources) : Except Failure Options :=
  (s.layers d).map fun layers => layers.foldl Options.overlay Options.defaults

end SiteBundle
