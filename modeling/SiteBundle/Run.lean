import SiteBundle.Bundle.Page
import SiteBundle.Output.Plan
import SiteBundle.Tree.Scan

/-!
# A whole run

A run reads the source directory, bundles every document, handles the files that are handled on
their own, and puts the result in the place of the output directory.  It answers with a report.

* `Report`, `BundleSummary`   what a run produced;
* `Site.ofDisk`               the site of a source directory;
* `Site.run`                  everything behind reading the source directory;
* `bundleSite`                a run from its options.

Nothing is written before everything to be written is known.
-/

namespace SiteBundle

/-- a bundle in a report -/
structure BundleSummary where
  name : Text
  family : Family
  provenance : Provenance
  isVirtual : Bool
  /-- the path in the output; a bundle written into documents has none -/
  path : Option Text
  sources : List Text

/-- what a run produced -/
structure Report where
  /-- the documents, in the order they were bundled -/
  documents : List Text
  bundles : List BundleSummary
  handledFiles : Nat
  filesWritten : Nat
  output : Text

namespace Site

/-- the site of the source directory -/
def ofDisk (o : Options) (disk : Disk) (dice : Nat → Nat) : Except Failure Site := do
  let src : Text := o.get .src
  let filter : TreeFilter := ⟨o.get .ignoreGit, o.get .ignoreDsStore, some (o.get .dist)⟩
  let tree ← during ("failed to read source tree " ++ shown src) (Tree.scan disk src filter)
  return .ofTree o disk tree dice

def documents (s : Site) (ignore : PathFilter) : List NodeId :=
  s.tree.files.filter fun id =>
    Tree.isMarkup (s.tree.extension id) && !ignore.accepts (s.tree.relativePath id)

def summary (s : Site) (b : Bundle) : BundleSummary where
  name := match b.provenance with
    | .individual => b.name
    | .markup => b.fileName
  family := b.family
  provenance := b.provenance
  isVirtual := b.isVirtual
  path := b.node.map s.tree.relativePath
  sources := b.sources.map s.tree.relativePath

/-- puts the entries in the place of the output directory -/
def write (entries : List OutputEntry) : Work Unit := do
  let s ← get
  let dist : Text := s.options.get .dist
  let (result, disk) := (replaceOutput dist (Place.text s.tree.top) entries).run.run s.disk
  set { s with disk }
  lift (during ("failed to write " ++ shown dist) result)

/-- bundles, handles and writes everything -/
def run : Work Report := do
  let o := (← get).options
  let ignore ← lift (onPatterns (PathFilter.read (o.get .ignore)))
  let keep ← lift (onPatterns (PathFilter.read (o.get .keep)))
  let overrides ← lift (onPatterns (Overrides.read (o.overrides .markup)))
  let documents := (← get).documents ignore
  documents.forM fun id => processMarkup id overrides
  let handledFiles ← processHandled ignore
  let s ← get
  let entries := s.plan ignore keep
  write entries
  return {
    documents := documents.map s.tree.relativePath
    bundles := s.bundles.map s.summary
    handledFiles
    filesWritten := OutputEntry.fileCount entries
    output := o.get .dist }

end Site

/-- a run: the disk behind it, and the report or the reason why it failed -/
def bundleSite (o : Options) (disk : Disk) (dice : Nat → Nat) : Disk × Except Failure Report :=
  match ensureSeparate disk (o.get .dist) (o.get .src) with
  | .error f => (disk, .error f)
  | .ok () =>
    match Site.ofDisk o disk dice with
    | .error f => (disk, .error f)
    | .ok s =>
      let (result, s) := Site.run.run.run s
      (s.disk, result)

end SiteBundle
