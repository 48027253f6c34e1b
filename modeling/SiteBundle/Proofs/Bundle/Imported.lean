import SiteBundle.Proofs.Bundle.Handled
import SiteBundle.Proofs.Bundle.Proper
import SiteBundle.Proofs.Disk.Confined
import SiteBundle.Proofs.Module.Order
import SiteBundle.Proofs.Output.Planned
import SiteBundle.Proofs.Tree.Mirrored

/-!
# What modules import is kept

When scripts are not bundled, a page goes on referring to its modules, and they to what they import.
Every source file that such a module leads to is noted as necessary (`importedFiles_kept`), so it is in
the output unless an ignore pattern matches it.

Modules are rolled up once and remembered.  What is remembered of a module is what rolling it up again
would give (`Site.Remembers`): its place never changes, and a source file is found at its place however
much the tree has grown.

A module that is written in the page has no file to be noted, and what it imports is not noted either
(`inlineModule_not_kept`).
-/

namespace SiteBundle

open Site Text

section
variable {o : Options} {disk : Disk} {dice : Nat → Nat} {s₀ s t u : Site} {id entry : NodeId}
  {written placed : NodeId → Prop}

/-! ## steps -/

/-- whatever is done to a site, what is noted stays noted -/
theorem Site.Step.kept (hst : Step written placed s t) : s.Kept t := by
  cases hst with
  | mark hf htree hgain => exact .of_grown (.modifyFile .refl hgain htree)
  | @write id content tree hid htree =>
    exact .of_grown (.modifyFile (f := fun st => { st with override := some content }) .refl
      (fun _ h => h) htree)
  | find hnone hn =>
    exact ⟨rfl, rfl, .refl .refl _, fun dir hdir => nomatch hnone.symm.trans hdir⟩
  | make hnone hfile =>
    exact ⟨rfl, rfl, .add .refl _ _ _, fun dir hdir => nomatch hnone.symm.trans hdir⟩
  | file hdir hb hnode => exact ⟨rfl, rfl, .add .refl _ _ _, fun _ hd => hd⟩
  | _ => exact ⟨rfl, rfl, .refl .refl _, fun _ hd => hd⟩

theorem Site.Steps.kept (hst : Steps written placed s t) : s.Kept t :=
  hst.keeps (I := s.Kept) (fun _ _ hstep h => h.trans hstep.kept) (.refl s)

theorem Stepwise.kept {α : Type} {w : Work α} {a : α} (h : Stepwise anyNode anyNode w)
    (hw : Yields w s a t) : s.Kept t := (h.of_yields hw).kept

theorem Site.Kept.place (h : s.Kept t) (hid : id < s.tree.nodes.size) :
    t.tree.place id = s.tree.place id := by
  unfold Tree.place Tree.relativePath
  rw [h.grown.top, Tree.names_of_grown h.grown hid]

/-! ## source files -/

/-- a module that is rolled up lists files of the disk: those that it leads to -/
theorem files_of_rollUpFile (hdisk : disk.Sound) {path : Place} {r : RolledUp}
    (hr : rollUpFile disk path = .ok r) : OnDisk disk r.files ∧ ∀ q, q ∈ r.files ↔
      Relation.ReflTransGen (ModuleImports disk) (Place.normalised [] path) q := by
  have hordered := ordered_rollUpFile hdisk path
  have hresults := results_rollUpFile disk path
  rw [hr] at hordered hresults
  obtain ⟨listed, rest, h, -⟩ := hordered
  exact ⟨hresults, h.complete⟩

section
variable (hdisk : disk.Proper) (hstart : ofDisk o disk dice = .ok s₀)
  (hid : s₀.tree.isFile id = true)
include hdisk hstart hid

/-- a source file has a plain place, which its names lead to -/
theorem Site.place_source :
    s₀.tree.place id = s₀.tree.top ++ s₀.tree.names id ∧ (s₀.tree.place id).Plain := by
  obtain ⟨tree, hscan, rfl⟩ := ofDisk_eq_ok hstart
  obtain ⟨st, hst⟩ := Tree.isFile_iff.mp hid
  obtain ⟨-, -, hmirror⟩ := Tree.mirrors_scan hdisk.sound hscan
  obtain ⟨⟨content, hfile⟩, -⟩ := hmirror id st hst
  have hrooted := (Tree.folders_scan hdisk.sound hscan).1
  have hroot : id ≠ Tree.root := by
    rintro rfl
    exact nomatch (Tree.isFile_eq_false hrooted.isFolder_root).symm.trans hid
  have hnames : ∀ name ∈ tree.top ++ tree.names id, IsEntryName name := by
    have hne := Tree.names_ne_nil hrooted (Tree.lt_of_isFile hid) hroot
    exact hdisk.names _ (Disk.mem_of_get? (List.append_ne_nil_of_right_ne_nil _ hne) hfile)
  have hplace : tree.place id = tree.top ++ tree.names id :=
    Tree.place_eq fun name hname => hnames name (List.mem_append_right _ hname)
  exact ⟨hplace, fun name hname => (hnames name (hplace ▸ hname)).1⟩

/-- a source file is found at its place, however much the tree has grown -/
theorem Site.nodeAt?_source (hst : s₀.Kept s) : s.tree.nodeAt? (s₀.tree.place id) = some id := by
  obtain ⟨hplace, hplain⟩ := place_source hdisk hstart hid
  obtain ⟨tree, hscan, rfl⟩ := ofDisk_eq_ok hstart
  obtain ⟨-, honce, -⟩ := Tree.mirrors_scan hdisk.sound hscan
  rw [hplace] at hplain ⊢
  exact Tree.nodeAt?_names (Tree.folders_scan hdisk.sound hscan).1 hst.grown honce
    (Tree.lt_of_isFile hid) hplain

/-- what can be rolled up is a node: every other number has the place of the source directory -/
theorem Site.lt_of_rollUpFile (hst : s₀.Kept s) {r : RolledUp}
    (hr : rollUpFile s.disk (s.tree.place entry) = .ok r) : entry < s.tree.nodes.size := by
  refine Nat.lt_of_not_le fun hle => ?_
  obtain ⟨hplace, hplain⟩ := place_source hdisk hstart hid
  obtain ⟨tree, hscan, rfl⟩ := ofDisk_eq_ok hstart
  obtain ⟨hrooted, hfolder⟩ := Tree.folders_scan hdisk.sound hscan
  have hnone : s.tree.node? entry = none := Array.getElem?_eq_none hle
  have htop : s.tree.place entry = tree.top := by
    unfold Tree.place Tree.relativePath
    rw [Tree.names, hnone, hst.grown.top]
    exact List.append_nil _
  have hplainTop : tree.top.Plain := by
    rw [hplace] at hplain
    exact (Place.plain_append.mp hplain).1
  have hisFolder : disk.isFolder tree.top = true := by
    have h := hfolder id Tree.root hid hrooted.isFolder_root
    rwa [Tree.names_root hrooted, List.append_nil] at h
  -- a module is a file, and there the disk has a folder
  rw [htop, hst.disk] at hr
  obtain ⟨hfiles, hreached⟩ := files_of_rollUpFile hdisk.sound hr
  have hmem : tree.top ∈ r.files := by
    refine (hreached tree.top).mpr ?_
    rw [Place.normalised_plain hplainTop]
    exact .refl
  obtain ⟨content, hfile⟩ := Disk.isFile_iff.mp (hfiles _ hmem).1
  rw [Disk.isFolder_iff, hfile] at hisFolder
  cases hisFolder

end

/-! ## remembered modules -/

/-- what is remembered of a module is what rolling it up again would give, as far as the source file is
concerned -/
def Site.Remembers (s₀ : Site) (id : NodeId) (s : Site) : Prop :=
  ∀ m ∈ s.modules, m.1 < s.tree.nodes.size ∧ ∃ r, rollUpFile s.disk (s.tree.place m.1) = .ok r ∧
    (s₀.tree.place id ∈ r.files → id ∈ m.2.files)

theorem Site.Remembers.of_kept (h : Remembers s₀ id s) (hst : s.Kept t)
    (hmodules : t.modules = s.modules) : Remembers s₀ id t := by
  intro m hm
  obtain ⟨hlt, r, hr, hfiles⟩ := h m (hmodules ▸ hm)
  refine ⟨Nat.lt_of_lt_of_le hlt hst.grown.size_le, r, ?_, hfiles⟩
  rwa [hst.disk, hst.place hlt]

section
variable (hdisk : disk.Proper) (hstart : ofDisk o disk dice = .ok s₀)
  (hid : s₀.tree.isFile id = true)
include hdisk hstart hid

theorem mem_graphOf (hst : s₀.Kept s) {r : RolledUp} (hmem : s₀.tree.place id ∈ r.files) :
    id ∈ (graphOf s.tree r).files :=
  List.mem_filterMap.mpr ⟨_, hmem, nodeAt?_source hdisk hstart hid hst⟩

theorem Site.Steps.remembers (hst : Steps written placed s₀ s) : Remembers s₀ id s := by
  have hkept := hst.keeps (I := fun u => s₀.Kept u ∧ Remembers s₀ id u) (fun u v huv ⟨hu, h⟩ => ?_)
    ⟨.refl s₀, ?_⟩
  · exact hkept.2
  · have huv' := huv.kept
    refine ⟨hu.trans huv', ?_⟩
    cases huv with
    | @keep entry r hr =>
      intro m hm
      rcases List.mem_append.mp hm with hm | hm
      · exact h m hm
      · have hlt := lt_of_rollUpFile hdisk hstart hid hu hr
        rw [List.mem_singleton.mp hm]
        exact ⟨hlt, r, hr, mem_graphOf hdisk hstart hid hu⟩
    | _ => exact h.of_kept huv' rfl
  · obtain ⟨tree, -, rfl⟩ := ofDisk_eq_ok hstart
    exact fun m hm => absurd hm List.not_mem_nil

/-! ## noting a module -/

omit hdisk hstart hid in
/-- files that are noted one after the other -/
theorem isNecessary_of_noting {files : List NodeId} (hmem : id ∈ files)
    (hw : Yields (files.forM fun f => changeTree fun t => t.markNecessary f) s ⟨⟩ t) :
    t.tree.IsNecessary id := by
  obtain ⟨before, after, rfl⟩ := List.append_of_mem hmem
  obtain ⟨u, -, hw⟩ := yields_forM_append.mp hw
  obtain ⟨_, v, hnote, hrest⟩ := yields_bind.mp hw
  have hnoted : Ends (changeTree fun t => t.markNecessary id) u
      (fun _ v => v.tree.IsNecessary id) fun _ _ => True := by
    refine ends_changeTree.mpr ?_
    cases htree : u.tree.markNecessary id with
    | error f => trivial
    | ok tree =>
      obtain ⟨st, -, hst⟩ := Tree.file_of_modifyFile htree
      exact ⟨_, hst, rfl⟩
  exact (Stepwise.kept (stepwise_forM fun f _ => stepwise_noteNecessary f) hrest).isNecessary
    (hnoted.of_yields hnote)

/-- a module that can be rolled up is rolled up, or was; the source file is among its files -/
theorem ends_rollUpModule (hst : Steps anyNode anyNode s₀ s) {r : RolledUp}
    (hr : rollUpFile s.disk (s.tree.place entry) = .ok r) (hmem : s₀.tree.place id ∈ r.files) :
    Ends (rollUpModule entry) s (fun g _ => id ∈ g.files) fun _ _ => False := by
  unfold rollUpModule
  rw [ends_bind, ends_get]
  cases hfound : s.modules.find? (·.1 == entry) with
  | some m =>
    obtain ⟨-, r', hr', hfiles⟩ :=
      hst.remembers hdisk hstart hid m (List.mem_of_find?_eq_some hfound)
    have hentry := List.find?_some hfound
    rw [beq_iff_eq.mp hentry] at hr'
    obtain rfl := Except.ok.inj (hr.symm.trans hr')
    exact hfiles hmem
  | none =>
    dsimp only
    rw [ends_bind, ends_note, ends_bind, ends_lift, hr]
    exact mem_graphOf hdisk hstart hid hst.kept hmem

/-- noting a module notes the source files that it leads to -/
theorem isNecessary_of_markNecessary (hst : Steps anyNode anyNode s₀ s) {r : RolledUp}
    (hr : rollUpFile s.disk (s.tree.place entry) = .ok r) (hmem : s₀.tree.place id ∈ r.files)
    (hw : Yields (markNecessary entry true) s ⟨⟩ t) : t.tree.IsNecessary id := by
  have hlt := lt_of_rollUpFile hdisk hstart hid hst.kept hr
  unfold markNecessary at hw
  obtain ⟨_, u, hnote, hw⟩ := yields_bind.mp hw
  rw [if_pos rfl] at hw
  obtain ⟨found, v, hattempt, hw⟩ := yields_bind.mp hw
  have hsu : Steps anyNode anyNode s u :=
    (stepwise_noteNecessary entry).of_yields hnote
  -- the module keeps its place
  rw [← hsu.kept.disk, ← hsu.kept.place hlt] at hr
  have hattempts : Ends (attempt (rollUpModule entry)) u
      (fun found _ => ∃ g, found = some g ∧ id ∈ g.files) fun _ _ => False := by
    unfold attempt
    refine ends_tryCatch.mpr (ends_map.mpr ?_)
    exact (ends_rollUpModule hdisk hstart hid (hst.trans hsu) hr hmem).mono
      (fun g _ hg => ⟨g, rfl, hg⟩) fun _ _ he => he.elim
  obtain ⟨g, rfl, hg⟩ := hattempts.of_yields hattempt
  exact isNecessary_of_noting hg hw

/-! ## pages -/

/-- a page whose scripts are not bundled notes what its modules lead to -/
theorem isNecessary_of_bundleFamily {p q p' : Page} (hst : Steps anyNode anyNode s₀ s)
    (hq : Yields (p.withoutMissing (p.options.policy .script)) s q s)
    (hoff : (p.options.policy .script).bundle = false) {a : Asset}
    (ha : a ∈ q.assets (p.options.policy .script) s.tree) (hmodule : a.module = true)
    (hsource : a.source = .file entry) {r : RolledUp}
    (hr : rollUpFile s.disk (s.tree.place entry) = .ok r) (hmem : s₀.tree.place id ∈ r.files)
    (hw : Yields (p.bundleFamily .script) s p' t) : t.tree.IsNecessary id := by
  have hlt := lt_of_rollUpFile hdisk hstart hid hst.kept hr
  unfold Page.bundleFamily at hw
  obtain ⟨q', s', hq', hw⟩ := yields_bind.mp hw
  obtain ⟨rfl, rfl⟩ := hq.unique hq'
  rw [yields_get_bind] at hw
  obtain ⟨_, u, huntouched, hw⟩ := yields_bind.mp hw
  rw [if_pos (by rw [hoff]; rfl)] at hw
  obtain ⟨_, v, hassets, hw⟩ := yields_bind.mp hw
  obtain ⟨-, rfl⟩ := yields_pure.mp hw
  -- the loop comes to the module from a site where it has its place still
  obtain ⟨before, after, hsplit⟩ := List.append_of_mem ha
  rw [show (q.classified _ s.tree).filterMap (·.asset?) = before ++ a :: after from hsplit] at hassets
  obtain ⟨w, hbefore, hassets⟩ := yields_forM_append.mp hassets
  obtain ⟨_, x, hmark, hafter⟩ := yields_bind.mp hassets
  have hsw : Steps anyNode anyNode s w := by
    refine (Stepwise.of_yields (stepwise_forM fun file _ => stepwise_markNecessary file false)
      huntouched).trans (Stepwise.of_yields (stepwise_forM fun a _ => ?_) hbefore)
    split
    · exact stepwise_markNecessary _ _
    · exact stepwise_pure _
  rw [← hsw.kept.disk, ← hsw.kept.place hlt] at hr
  dsimp only at hmark
  rw [hsource, hmodule] at hmark
  have hnoted := isNecessary_of_markNecessary hdisk hstart hid (hst.trans hsw) hr hmem hmark
  refine (Stepwise.kept (stepwise_forM fun a _ => ?_) hafter).isNecessary hnoted
  split
  · exact stepwise_markNecessary _ _
  · exact stepwise_pure _

end

/-! ## documents -/

/-- the markup file is left with a module script that refers to the module at `place` -/
def Site.LeavesModule (s : Site) (file : NodeId) (overrides : Overrides) (place : Place) : Prop :=
  ∃ p t q, Yields (scriptPage file overrides) s p t ∧
    Yields (p.withoutMissing (p.options.policy .script)) t q t ∧
    (p.options.policy .script).bundle = false ∧
    ∃ a ∈ q.assets (p.options.policy .script) t.tree, a.module = true ∧
      ∃ entry, a.source = .file entry ∧ place = t.tree.place entry

section
variable {file : NodeId} {overrides : Overrides} {p : Page}

theorem stepwise_scriptPage (file : NodeId) (overrides : Overrides) :
    Stepwise written placed (scriptPage file overrides) := by
  unfold scriptPage openPage
  refine stepwise_bind (stepwise_get_bind fun s => stepwise_bind (stepwise_lift _) fun _ =>
    stepwise_bind (stepwise_lift _) fun _ => stepwise_pure _) fun p => ?_
  exact stepwise_bind (stepwise_bundleFamily p _) fun p => stepwise_advance p _

/-- all that documents do, they do in steps -/
theorem Site.Reached.steps (hstart : ofDisk o disk dice = .ok s₀) (h : Reached o disk dice s) :
    Steps anyNode anyNode s₀ s := by
  induction h with
  | start h =>
    obtain rfl := Except.ok.inj (hstart.symm.trans h)
    exact .refl _
  | @step s file overrides _ _ ih =>
    have hwork : Stepwise anyNode anyNode (processMarkup file overrides) :=
      (stepwise_processMarkup file overrides).mono (fun _ _ => trivial) fun _ h => h.elim
    exact ih.trans (hwork.steps s)

/-- a markup file is processed by a pass over its scripts, and what that leaves is kept -/
theorem exists_scripts (hp : Yields (scriptPage file overrides) s p u)
    (hw : Yields (processMarkup file overrides) s ⟨⟩ t) :
    ∃ q v, Yields (p.bundleFamily .script) u q v ∧ v.Kept t := by
  unfold scriptPage at hp
  unfold processMarkup at hw
  obtain ⟨p₁, s₁, hopen, hp⟩ := yields_bind.mp hp
  obtain ⟨p₁', s₁', hopen', hw⟩ := yields_bind.mp hw
  obtain ⟨rfl, rfl⟩ := hopen.unique hopen'
  obtain ⟨p₂, s₂, hbundled, hw⟩ := yields_bind.mp hw
  unfold Page.bundled at hbundled
  obtain ⟨p₃, s₃, hstyles, hadvance⟩ := yields_bind.mp hp
  obtain ⟨p₃', s₃', hstyles', hbundled⟩ := yields_bind.mp hbundled
  obtain ⟨rfl, rfl⟩ := hstyles.unique (yields_inActivity.mp hstyles')
  obtain ⟨p₄, s₄, hadvance', hbundled⟩ := yields_bind.mp hbundled
  obtain ⟨rfl, rfl⟩ := hadvance.unique hadvance'
  obtain ⟨q, v, hscripts, hrest⟩ := yields_bind.mp hbundled
  refine ⟨q, v, yields_inActivity.mp hscripts, ?_⟩
  -- what comes behind the pass
  obtain ⟨p₅, s₅, hpolyfill, hw⟩ := yields_bind.mp hw
  obtain ⟨p₆, s₆, hminified, hw⟩ := yields_bind.mp hw
  obtain ⟨p₇, s₇, hfinal, hset⟩ := yields_bind.mp hw
  have hwrite : Stepwise anyNode anyNode (changeTree fun t => t.setContent file p₇.document.text) :=
    (stepwise_setContent file _).mono (fun _ _ => trivial) fun _ h => h
  exact ((Stepwise.kept (stepwise_advance q _) hrest).trans
    (Stepwise.kept (stepwise_withPolyfill p₂) hpolyfill)).trans
    (((Stepwise.kept (stepwise_minified p₅) hminified).trans
      (Stepwise.kept (stepwise_advance p₆ _) hfinal)).trans (hwrite.kept hset))

/-- a file that is noted is not dropped by an action that keeps what is necessary -/
theorem isDropped_of_necessary {ignore keep : PathFilter} (hnecessary : s.tree.IsNecessary id)
    (haction : s.fileAction? (s.tree.extension id) = some .keepNecessary)
    (hignore : ignore.accepts (s.tree.relativePath id) = false) :
    s.isDropped ignore keep id = false := by
  obtain ⟨st, hst, hnec⟩ := hnecessary
  unfold isDropped
  dsimp only
  rw [hignore, if_neg Bool.false_ne_true, hst]
  split
  · rfl
  · have hsurvives : s.survives id st = true := by
      unfold survives
      rw [haction]
      exact Bool.or_eq_true_iff.mpr (.inr hnec)
    dsimp only
    rw [hsurvives]
    rfl

/-- **What the modules of a page import is kept.**  When a markup file is left with a module script and
the module can be rolled up, every source file that the module leads to is necessary afterwards, the
module itself included.  Whatever documents and handled files follow, the file is in the output then,
unless an ignore pattern matches it. -/
theorem importedFiles_kept {place : Place} {r : RolledUp} (hdisk : disk.Proper)
    (hstart : ofDisk o disk dice = .ok s₀) (hs : Reached o disk dice s)
    (hfile : s.tree.isFile file = true) (hwork : Yields (processMarkup file overrides) s ⟨⟩ t)
    (hmodule : s.LeavesModule file overrides place) (hr : rollUpFile disk place = .ok r)
    (hid : s₀.tree.isFile id = true)
    (hreach : (ModuleEntry.file place).Reaches disk (s₀.tree.place id)) :
    t.tree.IsNecessary id ∧ ∀ (later : List NodeId) (laterOverrides : Overrides) (u v : Site)
      (n : Nat) (patterns : List Text) (ignore keep : PathFilter),
      (∀ k ∈ later, t.tree.isFile k = true) →
      Yields (later.forM fun k => processMarkup k laterOverrides) t ⟨⟩ u →
      PathFilter.read patterns = .ok ignore → Yields (processHandled ignore) u n v →
      v.fileAction? (v.tree.extension id) = some .keepNecessary →
      ignore.accepts (v.tree.relativePath id) = false →
      v.outputEntry id ∈ v.plan ignore keep := by
  have hst := hs.steps hstart
  have hnecessary : t.tree.IsNecessary id := by
    obtain ⟨p, w, q, hp, hq, hoff, a, ha, hm, entry, hsource, rfl⟩ := hmodule
    have hsw : Steps anyNode anyNode s₀ w :=
      hst.trans ((stepwise_scriptPage file overrides).of_yields hp)
    obtain ⟨q', x, hpass, hkept⟩ := exists_scripts hp hwork
    have hmem : s₀.tree.place id ∈ r.files := ((files_of_rollUpFile hdisk.sound hr).2 _).mpr hreach
    have hdisk' : w.disk = disk := by
      obtain ⟨tree, -, rfl⟩ := ofDisk_eq_ok hstart
      exact hsw.kept.disk
    exact hkept.isNecessary (isNecessary_of_bundleFamily hdisk hstart hid hsw hq hoff ha hm hsource
      (hdisk'.symm ▸ hr) hmem hpass)
  refine ⟨hnecessary, fun later laterOverrides u v n patterns ignore keep hlater hdocuments hignore
    hhandled haction hnot => ?_⟩
  have hsound := hs.sound hdisk.sound hfile
  obtain ⟨ht, -, -⟩ := (safely_processMarkup hsound hfile overrides).of_yields hwork
  obtain ⟨hu, htu, -⟩ := (safely_processMarkups ht hlater laterOverrides).of_yields hdocuments
  obtain ⟨hv, huv⟩ := kept_processHandled hu hhandled
  have hnecessary' := (htu.trans huv).isNecessary hnecessary
  have hisFile : v.tree.isFile id = true := by
    obtain ⟨st, hst, -⟩ := hnecessary'
    exact Tree.isFile_iff.mpr ⟨st, hst⟩
  exact outputEntry_mem_plan hv.rooted hignore hisFile
    (isDropped_of_necessary hnecessary' haction hnot)

end
end

/-! ## a page with both kinds of modules -/

namespace Unbundled

/-- a module with a file and one without -/
def markup : Text :=
  "<script type=\"module\" src=\"m.js\"></script><script type=\"module\">import './own.js';</script>".toList

def disk : Disk where
  entries := [(["src".toList], .folder),
    (["src".toList, "index.html".toList], .file (Utf8.bytes markup)),
    (["src".toList, "lib.js".toList], .file []),
    (["src".toList, "m.js".toList], .file (Utf8.bytes "import './lib';".toList)),
    (["src".toList, "own.js".toList], .file [])]
  cwd := []

/-- scripts are not bundled, and kept when they are necessary -/
def options : Options := Options.defaults.overlay
  (((Layer.empty.setField .bundleScript false).setField .scriptFileAction .keepNecessary).setField
    .minifyMarkup false)

def tree : Tree where
  top := ["src".toList]
  nodes := #[⟨[], none, .folder⟩, ⟨"index.html".toList, some 0, .file Tree.freshFile⟩,
    ⟨"lib.js".toList, some 0, .file Tree.freshFile⟩, ⟨"m.js".toList, some 0, .file Tree.freshFile⟩,
    ⟨"own.js".toList, some 0, .file Tree.freshFile⟩]

def site : Site := .ofTree options disk tree fun _ => 0

theorem proper_disk : disk.Proper where
  sound := ⟨by decide, by decide⟩
  names := by
    unfold IsEntryName
    decide
  cwd := nofun

theorem ofDisk_disk : Site.ofDisk options disk (fun _ => 0) = .ok site := by
  have htop : disk.locate "src".toList = .ok ["src".toList] := by decide +kernel
  have hsorted : (disk.inside ["src".toList]).Pairwise fun a b => !Place.lt b.1 a.1 := by
    decide +kernel
  exact ofDisk_of_pairwise htop hsorted rfl rfl

def page : Page := ⟨"index.html".toList, 1, Tree.root, options, .ofText markup false⟩

def scriptPage : Page := { page with document := { page.document with stage := .styleElementsBundled } }

def policy : Policy := scriptPage.options.policy .script

/-- what evaluation says about the page -/
theorem evaluated_page : (site.tree.readText site.disk 1).toOption = some markup ∧
    site.tree.relativePath 1 = "index.html".toList ∧
    page.document.elements .link = [] ∧ page.document.elements .style = [] ∧
    scriptPage.dropped policy site.tree = [] ∧ (scriptPage.assets policy site.tree).map
      (fun a => (a.module, a.source, a.element.body)) =
        [(true, .file 3, []), (true, .inline, "import './own.js';".toList)] := by
  -- lists of characters are evaluated faster than literals
  unfold policy scriptPage page site disk markup
  repeat rw [String.toList_ofList]
  decide +kernel

theorem yields_page : Yields (openPage 1 .nothing) site page site := by
  obtain ⟨htext, hpath, -⟩ := evaluated_page
  have hopen := yields_openPage_of_readText rfl (eq_ok_of_toOption htext) .nothing
  rw [hpath] at hopen
  exact hopen

theorem yields_scriptPage : Yields (Site.scriptPage 1 .nothing) site scriptPage site := by
  obtain ⟨-, -, hlinks, hstyles, -⟩ := evaluated_page
  exact yields_scriptPage_of_nil yields_page hlinks hstyles rfl

/-- both elements are assets -/
theorem exists_asset {x : Bool × Source × Text}
    (hx : x ∈ [(true, Source.file 3, []), (true, .inline, "import './own.js';".toList)]) :
    ∃ a ∈ scriptPage.assets policy site.tree, a.module = x.1 ∧ a.source = x.2.1 ∧
      a.element.body = x.2.2 := by
  obtain ⟨-, -, -, -, -, hassets⟩ := evaluated_page
  obtain ⟨a, ha, rfl⟩ := List.mem_map.mp (hassets ▸ hx)
  exact ⟨a, ha, rfl, rfl, rfl⟩

/-- the site behind the page -/
def processed : Site := (scriptPage.behindStyles 1 site).2

/-- what evaluation says about the work and the modules -/
theorem evaluated_work : (scriptPage.behindStyles 1 site).1.toOption = some ⟨⟩ ∧
    (rollUpFile disk (site.tree.place 3)).toOption.map (·.files) =
      some [["src".toList, "lib.js".toList], ["src".toList, "m.js".toList]] ∧
    (rollUpInline disk (site.tree.place Tree.root) "import './own.js';".toList).toOption.map
      (·.files) = some [["src".toList, "own.js".toList]] ∧
    site.tree.place 2 = ["src".toList, "lib.js".toList] ∧
    site.tree.place 4 = ["src".toList, "own.js".toList] ∧
    (processed.tree.file 4).toOption = some Tree.freshFile := by
  decide +kernel

theorem yields_processMarkup : Yields (processMarkup 1 .nothing) site ⟨⟩ processed := by
  obtain ⟨-, -, hlinks, hstyles, -⟩ := evaluated_page
  exact yields_processMarkup_of_nil yields_page hlinks hstyles rfl
    (yields_of_toOption evaluated_work.1)

theorem leavesModule : site.LeavesModule 1 .nothing (site.tree.place 3) := by
  obtain ⟨-, -, -, -, hdropped, -⟩ := evaluated_page
  obtain ⟨a, ha, hmodule, hsource, -⟩ := exists_asset List.mem_cons_self
  exact ⟨scriptPage, site, scriptPage, yields_scriptPage, yields_withoutMissing hdropped, rfl, a, ha,
    hmodule, 3, hsource, rfl⟩

end Unbundled

open Unbundled in
/-- the module of the page imports the library -/
theorem importedFiles_kept_library : disk.Proper ∧
    Site.ofDisk options disk (fun _ => 0) = .ok site ∧ site.tree.isFile 1 = true ∧
    Yields (processMarkup 1 .nothing) site ⟨⟩ processed ∧
    site.LeavesModule 1 .nothing (site.tree.place 3) ∧ site.tree.isFile 2 = true ∧
    (ModuleEntry.file (site.tree.place 3)).Reaches disk (site.tree.place 2) ∧
    processed.tree.IsNecessary 2 := by
  obtain ⟨-, hfile, -, hplace, -⟩ := evaluated_work
  obtain ⟨r, hr, hfiles⟩ := Option.map_eq_some_iff.mp hfile
  have hok : rollUpFile disk (site.tree.place 3) = .ok r := eq_ok_of_toOption hr
  have hreach : (ModuleEntry.file (site.tree.place 3)).Reaches disk (site.tree.place 2) := by
    refine ((files_of_rollUpFile proper_disk.sound hok).2 _).mp ?_
    rw [hfiles, hplace]
    exact List.mem_cons_self
  exact ⟨proper_disk, ofDisk_disk, rfl, yields_processMarkup, leavesModule, rfl, hreach,
    (importedFiles_kept proper_disk ofDisk_disk (.start ofDisk_disk) rfl yields_processMarkup
      leavesModule hok rfl hreach).1⟩

open Unbundled in
/-- the module that is written in the page imports a file as well, and that one is not noted -/
theorem inlineModule_not_kept : ∃ s t p u q, Site.ofDisk options disk (fun _ => 0) = .ok s ∧
    Yields (processMarkup 1 .nothing) s ⟨⟩ t ∧ Yields (Site.scriptPage 1 .nothing) s p u ∧
    Yields (p.withoutMissing (p.options.policy .script)) u q u ∧
    (p.options.policy .script).bundle = false ∧
    (∃ a ∈ q.assets (p.options.policy .script) u.tree, a.module = true ∧ a.source = .inline ∧
      ∃ r, rollUpInline disk (u.tree.place q.dir) a.element.body = .ok r ∧
        s.tree.place 4 ∈ r.files) ∧
    s.tree.isFile 4 = true ∧ ¬ t.tree.IsNecessary 4 := by
  obtain ⟨-, -, hinline, -, hplace, hnot⟩ := evaluated_work
  obtain ⟨-, -, -, -, hdropped, -⟩ := evaluated_page
  obtain ⟨r, hr, hfiles⟩ := Option.map_eq_some_iff.mp hinline
  obtain ⟨a, ha, hmodule, hsource, hbody⟩ := exists_asset (List.mem_cons_of_mem _ List.mem_cons_self)
  refine ⟨site, processed, scriptPage, site, scriptPage, ofDisk_disk, yields_processMarkup,
    yields_scriptPage, yields_withoutMissing hdropped, rfl, ⟨a, ha, hmodule, hsource, r, ?_, ?_⟩, rfl,
    ?_⟩
  · rw [hbody]
    exact eq_ok_of_toOption hr
  · rw [hfiles, hplace]
    exact List.mem_cons_self
  · rintro ⟨st, hst, hnecessary⟩
    rw [hst] at hnot
    obtain rfl := Option.some.inj hnot
    exact nomatch hnecessary

end SiteBundle
