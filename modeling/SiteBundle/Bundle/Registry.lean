import SiteBundle.Module.RollUp
import SiteBundle.Options.Basic
import SiteBundle.Tree.Address

/-!
# The bundles of a site

While the documents of a site are processed one after the other, everything they share is kept in
one `Site`: the tree, the bundles made so far, the modules rolled up so far, and a journal of the
transforms and roll-ups that were begun.

* `Bundle`               code made from sources, and the node it is written to if there is one;
* `Site.createOrReuse`   the bundle for a request: an equal one that is there, or a new one;
* `Site.ensureReal`      gives a bundle a file;
* `Site.rollUpModule`    a module with everything it imports, rolled up once;
* `Site.markNecessary`   notes that markup still refers to a file.

Bundles from markup are equal when their code is; bundles of files handled one by one are equal when
sources and recipe are.  Bundles are only ever added, and a bundle that has a file keeps it.
-/

namespace SiteBundle

open Text

inductive Placement where
  /-- into the markup -/
  | inline
  /-- into a file of the bundle directory -/
  | bundleDirectory
  /-- into the file that it was made from -/
  | inPlace (file : NodeId)
deriving DecidableEq, Repr

/-- what a bundle was made for -/
inductive Provenance where
  | markup
  | individual
deriving DecidableEq, Repr

/-- a bundle -/
structure Bundle where
  /-- its number -/
  id : BundleId
  name : Text
  family : Family
  /-- the code, not yet made safe for an element -/
  code : Text
  sources : List NodeId
  recipe : Recipe
  provenance : Provenance
  /-- only written into documents so far -/
  isVirtual : Bool
  /-- the node that the code is written to -/
  node : Option NodeId
deriving DecidableEq

namespace Bundle

def fileName (b : Bundle) : Text := b.name ++ b.family.extension

end Bundle

structure Request where
  family : Family
  sources : List NodeId
  code : Text
  recipe : Recipe
  placement : Placement

/-- a rolled-up module, its files given by their nodes; files outside the site are left out -/
structure Graph where
  code : Text
  files : List NodeId
deriving DecidableEq

/-- something that was begun -/
inductive Event where
  | transform (t : Transform)
  | rollUp (entry : Place)
  | rollUpInline (base : Place)
deriving DecidableEq

/-- everything that the documents of a site share -/
structure Site where
  options : Options
  disk : Disk
  tree : Tree
  bundles : List Bundle
  /-- the bundle directory, once it was needed -/
  bundleDir : Option NodeId
  /-- the modules rolled up so far, by their files -/
  modules : List (NodeId × Graph)
  journal : List Event
  /-- an endless supply of random numbers, and how many of them were used -/
  dice : Nat → Nat
  thrown : Nat

/-- work on a site; what was done before a failure stays done -/
abbrev Work := ExceptT Failure (StateM Site)

namespace Site

/-- a site at the beginning -/
def ofTree (options : Options) (disk : Disk) (tree : Tree) (dice : Nat → Nat) : Site :=
  ⟨options, disk, tree, [], none, [], [], dice, 0⟩

/-- a result that does not depend on changes -/
def lift {α : Type} (r : Except Failure α) : Work α :=
  match r with
  | .ok a => pure a
  | .error f => throw f

def inActivity {α : Type} (activity : String) (w : Work α) : Work α :=
  tryCatch w fun f => throw (f.within activity)

def changeTree (f : Tree → Except Failure Tree) : Work Unit := do
  let s ← get
  let tree ← lift (f s.tree)
  set { s with tree }

def note (events : List Event) : Work Unit :=
  modify fun s => { s with journal := s.journal ++ events }

def bundle (s : Site) (id : BundleId) : Except Failure Bundle :=
  match s.bundles[id]? with
  | some b => .ok b
  | none => .error (.of (.internal ("bundle " ++ toString id ++ " does not exist")))

/-! ## Names -/

/-- twelve hexadecimal digits -/
def hexName (n : Nat) : Text :=
  (List.range 12).map fun i => Nat.digitChar (n / Nat.pow 16 (11 - i) % 16)

/-- the first of the names with the numbers from `n` on that begins no name of a bundle; among one
more names than bundles there is one -/
def freshName (bundles : List Bundle) (n : Nat) : Text :=
  let names := (List.range (bundles.length + 1)).map fun i => hexName ((n + i) % Nat.pow 16 12)
  (names.find? fun name => !bundles.any fun b => name.isPrefixOf b.name).getD (hexName n)

def markupCount (bundles : List Bundle) (f : Family) : Nat :=
  (bundles.filter fun b => b.provenance == .markup && b.family == f).length

def newName (f : Family) : Work Text := do
  let s ← get
  if s.options.get .randomBundleNames then
    set { s with thrown := s.thrown + 1 }
    return freshName s.bundles (s.dice s.thrown)
  else return (toString (markupCount s.bundles f)).toList

/-! ## Bundles -/

/-- the bundle directory, made when it is first needed -/
def bundleDirectory : Work NodeId := do
  let s ← get
  match s.bundleDir with
  | some dir => return dir
  | none =>
    let name := s.options.get .bundleDirectory
    let found := (s.tree.childNamed? Tree.root name).filter fun id => !s.tree.isFile id
    match found with
    | some dir =>
      set { s with bundleDir := some dir }
      return dir
    | none =>
      let (tree, dir) := s.tree.addFolder Tree.root name
      set { s with tree, bundleDir := some dir }
      return dir

/-- the bundle of a handled file with these sources and this recipe -/
def findIndividual? (s : Site) (f : Family) (sources : List NodeId) (r : Recipe) :
    Option BundleId :=
  (s.bundles.find? fun b =>
    b.provenance == .individual && b.family == f && b.sources == sources && b.recipe == r).map (·.id)

/-- the bundle from markup with this code -/
def findMarkup? (s : Site) (f : Family) (code : Text) : Option BundleId :=
  (s.bundles.find? fun b => b.provenance == .markup && b.family == f && b.code == code).map (·.id)

/-- gives a bundle a new file in the bundle directory -/
def materialize (id : BundleId) : Work NodeId := do
  let dir ← bundleDirectory
  let s ← get
  let b ← lift (s.bundle id)
  let (tree, node) := s.tree.addFile dir b.fileName b.code
  set { s with tree, bundles := s.bundles.set id { b with isVirtual := false, node := some node } }
  return node

/-- the file of a bundle, made if there is none -/
def ensureReal (id : BundleId) : Work NodeId := do
  let b ← lift ((← get).bundle id)
  match b.node with
  | some node => return node
  | none => materialize id

/-- the bundle that a request would repeat -/
def existing? (s : Site) (r : Request) : Option BundleId :=
  match r.placement with
  | .inPlace _ => s.findIndividual? r.family r.sources r.recipe
  | _ => s.findMarkup? r.family r.code

def addBundle (r : Request) : Work BundleId := do
  let (name, provenance, node) ← match r.placement with
    | .inPlace file => do
      let s ← get
      pure (s.tree.relativePath file, Provenance.individual, some file)
    | _ => do pure (← newName r.family, Provenance.markup, none)
  let s ← get
  let id := s.bundles.length
  let b : Bundle := ⟨id, name, r.family, r.code, r.sources, r.recipe, provenance,
    r.placement == .inline, node⟩
  set { s with bundles := s.bundles ++ [b] }
  return id

/-- the bundle for a request -/
def createOrReuse (r : Request) : Work BundleId := do
  match (← get).existing? r with
  | some id =>
    if r.placement = .bundleDirectory then let _ ← ensureReal id
    return id
  | none =>
    let id ← addBundle r
    if r.placement = .bundleDirectory then let _ ← materialize id
    return id

def addMembership (id : BundleId) (sources : List NodeId) : Work Unit :=
  sources.forM fun source => changeTree fun t => t.addMembership source id

/-! ## Code -/

/-- code prepared by a recipe -/
def prepare (r : Recipe) (f : Family) (code : Text) : Work Text := do
  let (begun, result) := runTransforms (r.transforms f) code
  note (begun.map .transform)
  match result with
  | .ok code => return code
  | .error fault => throw (.of (.code f fault))

def graphOf (t : Tree) (r : RolledUp) : Graph := ⟨r.code, r.files.filterMap t.nodeAt?⟩

/-- the module in a file, rolled up once -/
def rollUpModule (entry : NodeId) : Work Graph := do
  let s ← get
  match s.modules.find? (·.1 == entry) with
  | some (_, g) => return g
  | none =>
    let place := s.tree.place entry
    note [.rollUp place]
    let r ← lift (during ("failed to resolve module " ++ shown (Place.text place))
      (rollUpFile s.disk place))
    let g := graphOf s.tree r
    modify fun s => { s with modules := s.modules ++ [(entry, g)] }
    return g

/-- the module written in a document, rolled up -/
def rollUpBody (code : Text) (dir : NodeId) (document : Text) : Work Graph := do
  let s ← get
  let place := s.tree.place dir
  note [.rollUpInline place]
  let r ← lift (during ("failed to resolve inline module in " ++ shown document)
    (rollUpInline s.disk place code))
  return graphOf s.tree r

/-- work whose failure does not matter, as long as every offset was in its bounds -/
def attempt {α : Type} (w : Work α) : Work (Option α) :=
  tryCatch (some <$> w) fun f =>
    match f.cause with
    | .outOfBounds => throw f
    | _ => pure none

/-- notes that markup still refers to a file and, for a module, to all it imports; a module that
cannot be rolled up counts alone -/
def markNecessary (file : NodeId) (module_ : Bool) : Work Unit := do
  changeTree fun t => t.markNecessary file
  if module_ then
    match ← attempt (rollUpModule file) with
    | some g => g.files.forM fun f => changeTree fun t => t.markNecessary f
    | none => pure ()

end Site
end SiteBundle
