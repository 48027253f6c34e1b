import SiteBundle.Bundle.Registry
import SiteBundle.Options.Overrides

/-!
# Files handled one by one

Besides what markup refers to, files of the site can be transformed on their own, each in its place:
scripts, modules with everything they import, and stylesheets.  The options select them.

* `Chooser`               a selection whose patterns are read;
* `Site.handledFiles`     the selected files, and how each is handled;
* `Site.handleFile`       gives one file its transformed content;
* `Site.processHandled`   all of them, the selection made before the first is handled.
-/

namespace SiteBundle

/-- how a file is handled on its own -/
inductive Handling where
  | script
  | module
  | style
deriving DecidableEq, Repr

def Handling.family : Handling → Family
  | .script => .script
  | .module => .script
  | .style => .style

/-- a selection and its patterns, read -/
structure Chooser where
  selection : Selection
  filter : PathFilter

namespace Chooser

def read (s : Selection) : Except BadPattern Chooser :=
  match s with
  | .matching patterns => (PathFilter.read patterns).map fun filter => ⟨s, filter⟩
  | s => .ok ⟨s, .nothing⟩

/-- whether a file is selected -/
def chooses (c : Chooser) (path : Text) (necessary : Bool) : Bool :=
  match c.selection with
  | .nothing => false
  | .necessary => necessary
  | .everything => true
  | .matching _ => c.filter.accepts path

end Chooser

/-- what is handled on its own, and the options for some of it -/
structure HandlingRules where
  scripts : Chooser
  modules : Chooser
  styles : Chooser
  overrides : Overrides

namespace HandlingRules

def read (o : Options) : Except BadPattern HandlingRules := do
  let scripts ← Chooser.read (o.get .handledScriptFiles)
  let modules ← Chooser.read (o.get .handledModuleFiles)
  let styles ← Chooser.read (o.get .handledCssFiles)
  let overrides ← Overrides.read (o.overrides .handled)
  return ⟨scripts, modules, styles, overrides⟩

def handling? (r : HandlingRules) (extension path : Text) (necessary : Bool) : Option Handling :=
  if Tree.isScript extension && r.modules.chooses path necessary then some .module
  else if Tree.isScript extension && r.scripts.chooses path necessary then some .script
  else if Tree.isStyle extension && r.styles.chooses path necessary then some .style
  else none

end HandlingRules

def onPatterns {α : Type} : Except BadPattern α → Except Failure α
  | .ok a => .ok a
  | .error b => .error (.of (.badPattern b))

namespace Site

/-- how one file is handled -/
def handlingOf? (s : Site) (r : HandlingRules) (ignore : PathFilter) (id : NodeId) :
    Option Handling :=
  let path := s.tree.relativePath id
  match s.tree.file id with
  | .error _ => none
  | .ok state =>
    if state.generated || ignore.accepts path then none
    else r.handling? (s.tree.extension id) path state.necessary

def handledFiles (s : Site) (r : HandlingRules) (ignore : PathFilter) :
    List (NodeId × Handling) :=
  s.tree.files.filterMap fun id => (s.handlingOf? r ignore id).map fun h => (id, h)

/-- the code that a file is handled with, and the files it comes from -/
def handledCode (id : NodeId) (handling : Handling) : Work Graph := do
  match handling with
  | .module => rollUpModule id
  | _ =>
    let s ← get
    return ⟨← lift (s.tree.readText s.disk id), [id]⟩

/-- gives a file its transformed content -/
def handleFile (id : NodeId) (handling : Handling) (o : Options) : Work Unit := do
  let family := handling.family
  let recipe := o.recipe family false
  let g ← handledCode id handling
  let bundle ← match (← get).findIndividual? family g.files recipe with
    | some existing => pure existing
    | none => do
      let code ← prepare recipe family g.code
      createOrReuse ⟨family, g.files, code, recipe, .inPlace id⟩
  addMembership bundle (g.files.filter (· != id))
  let b ← lift ((← get).bundle bundle)
  changeTree fun t => t.setContent id b.code

def processHandled (ignore : PathFilter) : Work Nat := do
  let s ← get
  let rules ← lift (onPatterns (HandlingRules.read s.options))
  let files := s.handledFiles rules ignore
  files.forM fun (id, handling) => do
    let path := s.tree.relativePath id
    inActivity ("failed to process " ++ shown path)
      (handleFile id handling (rules.overrides.resolve s.options path))
  return files.length

end Site
end SiteBundle
