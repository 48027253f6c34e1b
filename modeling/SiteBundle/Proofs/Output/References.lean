import SiteBundle.Proofs.Disk.Written
import SiteBundle.Proofs.Output.Prepared

/-!
# References that stay are answered

A run notes every file that some document still refers to when it has been bundled.  What is noted is
never left out, unless an ignore pattern says so or its kind of files is to be removed, so the
reference leads to a file of the output (`hasFile_of_leavesReference`).

One option goes before the note: files that went into a bundle are removed if the options say so
(`Site.RemovesBundled`), whoever else refers to them.
-/

namespace SiteBundle

open Site Text

section
variable {o : Options} {disk : Disk} {dice : Nat → Nat} {s s' t u : Site} {report : Report}
  {ignore keep : PathFilter} {overrides : Overrides} {file id : NodeId}

/-! ## parts of a run -/

theorem Site.options_ofDisk (h : ofDisk o disk dice = .ok s) : s.options = o := by
  obtain ⟨tree, -, rfl⟩ := ofDisk_eq_ok h
  rfl

/-- a run, taken apart: the documents, the files handled on their own, and the output -/
theorem yields_run (hignore : PathFilter.read (s.options.get .ignore) = .ok ignore)
    (hkeep : PathFilter.read (s.options.get .keep) = .ok keep)
    (hoverrides : Overrides.read (s.options.overrides .markup) = .ok overrides) :
    Yields Site.run s report s' ↔ ∃ t u n,
      Yields ((s.documents ignore).forM fun id => processMarkup id overrides) s ⟨⟩ t ∧
      Yields (processHandled ignore) t n u ∧ Yields (write (u.plan ignore keep)) u ⟨⟩ s' ∧
      report = ⟨(s.documents ignore).map u.tree.relativePath, u.bundles.map u.summary, n,
        OutputEntry.fileCount (u.plan ignore keep), s.options.get .dist⟩ := by
  rw [run_eq, yields_bind]
  constructor
  · rintro ⟨⟨r, entries⟩, u, hplanned, h⟩
    obtain ⟨_, _, hwrite, h⟩ := yields_bind.mp h
    obtain ⟨rfl, rfl⟩ := yields_pure.mp h
    obtain ⟨ignore', keep', overrides', hignore', hkeep', hoverrides', t, n, hdocuments, hhandled,
      rfl, rfl⟩ := yields_planned.mp hplanned
    obtain rfl : ignore = ignore' := Except.ok.inj (hignore.symm.trans hignore')
    obtain rfl : keep = keep' := Except.ok.inj (hkeep.symm.trans hkeep')
    obtain rfl : overrides = overrides' := Except.ok.inj (hoverrides.symm.trans hoverrides')
    exact ⟨t, u, n, hdocuments, hhandled, hwrite, rfl⟩
  · rintro ⟨t, u, n, hdocuments, hhandled, hwrite, rfl⟩
    refine ⟨(_, u.plan ignore keep), u, yields_planned.mpr ⟨ignore, keep, overrides, hignore, hkeep,
      hoverrides, t, n, hdocuments, hhandled, rfl, rfl⟩, ?_⟩
    exact yields_bind.mpr ⟨_, s', hwrite, rfl⟩

/-- writing changes the disk only, and leaves the files that are planned -/
theorem of_write {entries : List OutputEntry} (h : Yields (write entries) s ⟨⟩ s') :
    (∃ disk, s' = { s with disk }) ∧ ∀ e ∈ entries, e.isFolder = false →
      s'.disk.HasFile (joinPath (s.options.get .dist) e.path) := by
  rw [Yields, write_eq] at h
  cases hwrote : replaceOutput (s.options.get .dist) (Place.text s.tree.top) entries s.disk with
  | mk result d =>
    rw [hwrote] at h
    obtain ⟨hresult, rfl⟩ := Prod.mk.inj h
    refine ⟨⟨d, rfl⟩, fun e he hfile => ?_⟩
    cases result with
    | ok a => exact hasFile_of_replaceOutput hwrote he hfile
    | error f => cases hresult

/-! ## what is left out -/

/-- the file is removed because it went into a bundle -/
def Site.RemovesBundled (s : Site) (keep : PathFilter) (id : NodeId) : Prop :=
  s.fileAction? (s.tree.extension id) = some .removeBundled ∧
    keep.accepts (s.tree.relativePath id) = false ∧ s.isHandled id = false ∧
    ∃ st, s.tree.file id = .ok st ∧ st.generated = false ∧ st.bundles ≠ []

theorem outputEntry_file {st : FileState} (h : s.tree.file id = .ok st) :
    (s.outputEntry id).path = s.tree.relativePath id ∧ (s.outputEntry id).isFolder = false := by
  have hfile : s.tree.isFile id = true := Tree.isFile_iff.mpr ⟨st, h⟩
  have hentry := isEntry_outputEntry (s := s) (Tree.lt_of_isFile hfile)
  refine ⟨hentry.path, ?_⟩
  rw [hentry.isFolder, hfile]
  rfl

/-- a file that is noted is left out for two reasons only -/
theorem removesBundled_of_isDropped (hid : s.tree.IsNecessary id)
    (hscript : s.options.get .scriptFileAction ≠ .removeAll)
    (hstyle : s.options.get .cssFileAction ≠ .removeAll)
    (hignore : ignore.accepts (s.tree.relativePath id) = false)
    (h : s.isDropped ignore keep id = true) : s.RemovesBundled keep id := by
  obtain ⟨st, hst, hnecessary⟩ := hid
  unfold isDropped at h
  dsimp only at h
  rw [hignore, if_neg Bool.false_ne_true] at h
  split at h
  · exact nomatch h
  · rename_i hkeep
    rw [hst, Bool.not_eq_true', survives, Bool.or_eq_false_iff, Bool.or_eq_false_iff] at h
    obtain ⟨⟨hgenerated, hhandled⟩, haction⟩ := h
    have hremoves : s.fileAction? (s.tree.extension id) ≠ some .removeAll := by
      unfold fileAction?
      intro hremove
      split at hremove
      · exact hscript (Option.some.inj hremove)
      · split at hremove
        · exact hstyle (Option.some.inj hremove)
        · exact nomatch hremove
    cases hfound : s.fileAction? (s.tree.extension id) with
    | none =>
      rw [hfound] at haction
      exact nomatch haction
    | some action =>
      rw [hfound] at haction hremoves
      cases action with
      | removeAll => exact absurd rfl hremoves
      | removeBundled =>
        refine ⟨hfound, Bool.not_eq_true _ ▸ hkeep, hhandled, st, hst, hgenerated, ?_⟩
        have hbundles : st.bundles.isEmpty = false := haction
        exact List.isEmpty_eq_false_iff.mp hbundles
      | keepAll => exact nomatch haction
      | keepNecessary =>
        have hnot : st.necessary = false := haction
        rw [hnecessary] at hnot
        exact nomatch hnot

/-- **References that stay are answered.**  When a run succeeds, what a document still refers to is
in the output, unless an ignore pattern matches it, files of its kind are removed, or it went into a
bundle and such files are removed. -/
theorem hasFile_of_leavesReference {before after : List NodeId} (hdisk : disk.Sound)
    (hstart : ofDisk o disk dice = .ok s) (hrun : Yields Site.run s report s')
    (hscript : o.get .scriptFileAction ≠ .removeAll) (hstyle : o.get .cssFileAction ≠ .removeAll)
    (hignore : PathFilter.read (o.get .ignore) = .ok ignore)
    (hkeep : PathFilter.read (o.get .keep) = .ok keep)
    (hoverrides : Overrides.read (o.overrides .markup) = .ok overrides)
    (hdocuments : s.documents ignore = before ++ file :: after)
    (hbefore : Yields (before.forM fun id => processMarkup id overrides) s ⟨⟩ t)
    (hleft : t.LeavesReference file overrides id)
    (hid : ignore.accepts (s'.tree.relativePath id) = false) :
    s'.disk.HasFile (joinPath (o.get .dist) (s'.tree.relativePath id)) ∨
      s'.RemovesBundled keep id := by
  obtain rfl := options_ofDisk hstart
  have hfiles : ∀ id ∈ before ++ file :: after, s.tree.isFile id = true := fun id hid =>
    isFile_of_mem_documents (hdocuments ▸ hid)
  have hfile : s.tree.isFile file = true :=
    hfiles file (List.mem_append_right _ List.mem_cons_self)
  have hsound : s.Sound := sound_ofDisk hdisk hstart hfile
  obtain ⟨v, w, n, hloop, hhandled, hwrite, -⟩ :=
    (yields_run hignore hkeep hoverrides).mp hrun
  rw [hdocuments] at hloop
  obtain ⟨t', hfirst, hloop⟩ := yields_forM_append.mp hloop
  obtain ⟨-, rfl⟩ := hbefore.unique hfirst
  obtain ⟨_, u, hprocess, hafter⟩ := yields_bind.mp hloop
  -- the sites from one pass to the next
  obtain ⟨ht, hst, -⟩ := (safely_processMarkups hsound
    (fun id hid => hfiles id (List.mem_append_left _ hid)) overrides).of_yields hbefore
  obtain ⟨hu, htu, hnoted⟩ := (safely_processMarkup ht (hst.isFile hfile) overrides).of_yields hprocess
  obtain ⟨hv, huv, -⟩ := (safely_processMarkups hu (fun id hid => (hst.trans htu).isFile (hfiles id
    (List.mem_append_right _ (List.mem_cons_of_mem _ hid)))) overrides).of_yields hafter
  obtain ⟨hw, hvw⟩ := kept_processHandled hv hhandled
  have hnecessary : w.tree.IsNecessary id := (huv.trans hvw).isNecessary (hnoted id hleft)
  have hoptions : w.options = s.options := ((hst.trans htu).trans (huv.trans hvw)).options
  obtain ⟨⟨d, rfl⟩, hwritten⟩ := of_write hwrite
  cases hdropped : w.isDropped ignore keep id with
  | true =>
    exact .inr (removesBundled_of_isDropped hnecessary (hoptions ▸ hscript) (hoptions ▸ hstyle) hid
      hdropped)
  | false =>
    obtain ⟨st, hst, -⟩ := hnecessary
    have hplanned := outputEntry_mem_plan hw.rooted hignore (Tree.isFile_iff.mpr ⟨st, hst⟩) hdropped
    obtain ⟨hpath, hnot⟩ := outputEntry_file hst
    rw [← hoptions, ← hpath]
    exact .inl (hwritten _ hplanned hnot)

end

/-! ## a script that a page and a module share -/

namespace Shared

def markup : Text := "<script nomodule src=\"a.js\"></script>".toList

/-- the page refers to the script for old browsers, and the module imports it for the others -/
def disk : Disk where
  entries := [(["src".toList], .folder), (["src".toList, "a.js".toList], .file []),
    (["src".toList, "index.html".toList], .file (Utf8.bytes markup)),
    (["src".toList, "m.js".toList], .file (Utf8.bytes "import './a.js';".toList))]
  cwd := []

/-- the module is handled on its own; code and markup stay as they are -/
def options : Options := Options.defaults.overlay
  (((Layer.empty.setField .handledModuleFiles (.matching ["m.js".toList])).setField
    .minifyScript false).setField .minifyMarkup false)

def tree : Tree where
  top := ["src".toList]
  nodes := #[⟨[], none, .folder⟩, ⟨"a.js".toList, some 0, .file ⟨none, false, [], false⟩⟩,
    ⟨"index.html".toList, some 0, .file ⟨none, false, [], false⟩⟩,
    ⟨"m.js".toList, some 0, .file ⟨none, false, [], false⟩⟩]

def site : Site := .ofTree options disk tree fun _ => 0

theorem sound_disk : disk.Sound where
  once := by decide
  above := by decide

theorem ofDisk_disk : Site.ofDisk options disk (fun _ => 0) = .ok site := by
  have htop : disk.locate "src".toList = .ok ["src".toList] := by decide +kernel
  have hsorted : (disk.inside ["src".toList]).Pairwise fun a b => !Place.lt b.1 a.1 := by
    decide +kernel
  exact ofDisk_of_pairwise htop hsorted rfl rfl

/-! ### the page -/

def page : Page := ⟨"index.html".toList, 2, Tree.root, options, .ofText markup false⟩

def scriptPage : Page := { page with document := { page.document with stage := .styleElementsBundled } }

/-- what evaluation says about the page -/
theorem evaluated_page : (site.tree.readText site.disk 2).toOption = some markup ∧
    site.tree.relativePath 2 = "index.html".toList ∧ site.documents .nothing = [2] ∧
    page.document.elements .link = [] ∧ page.document.elements .style = [] ∧
    scriptPage.dropped (scriptPage.options.policy .script) site.tree = [] ∧
    (scriptPage.classified (scriptPage.options.policy .script) site.tree).filterMap
      (·.untouchedFile?) = [1] := by
  decide +kernel

theorem documents_site : site.documents .nothing = [2] := evaluated_page.2.2.1

theorem yields_page : Yields (openPage 2 .nothing) site page site := by
  obtain ⟨htext, hpath, -⟩ := evaluated_page
  have hopen := yields_openPage_of_readText rfl (eq_ok_of_toOption htext) .nothing
  rw [hpath] at hopen
  exact hopen

theorem yields_scriptPage : Yields (Site.scriptPage 2 .nothing) site scriptPage site := by
  obtain ⟨-, -, -, hlinks, hstyles, -⟩ := evaluated_page
  exact yields_scriptPage_of_nil yields_page hlinks hstyles rfl

/-- the page still refers to the script -/
theorem leavesReference : site.LeavesReference 2 .nothing 1 := by
  obtain ⟨-, -, -, -, -, hdropped, hfiles⟩ := evaluated_page
  obtain ⟨c, hc, hfile⟩ := List.mem_filterMap.mp (hfiles ▸ List.mem_singleton.mpr rfl)
  exact .inr ⟨scriptPage, site, yields_scriptPage, scriptPage, yields_withoutMissing hdropped, c, hc,
    .inl hfile⟩

/-! ### the run -/

/-- the sites from one pass to the next -/
def processed : Site := (scriptPage.behindStyles 2 site).2

def handled : Site := (processHandled .nothing processed).2

def written : Site := (write (handled.plan .nothing .nothing) handled).2

/-- what evaluation says about the run: each pass succeeds, and the script is not in the output -/
theorem evaluated_run : (scriptPage.behindStyles 2 site).1.toOption = some ⟨⟩ ∧
    (processHandled .nothing processed).1.toOption = some 1 ∧
    (write (handled.plan .nothing .nothing) handled).1.toOption = some ⟨⟩ ∧
    written.disk.find (written.disk.steps
      (joinPath (options.get .dist) (written.tree.relativePath 1))) = .error .notFound := by
  decide +kernel

theorem yields_processMarkup : Yields (processMarkup 2 .nothing) site ⟨⟩ processed := by
  obtain ⟨-, -, -, hlinks, hstyles, -⟩ := evaluated_page
  exact yields_processMarkup_of_nil yields_page hlinks hstyles rfl
    (yields_of_toOption evaluated_run.1)

theorem yields_run_site : ∃ report, Yields Site.run site report written := by
  obtain ⟨-, hhandled, hwrite, -⟩ := evaluated_run
  replace hhandled : Yields (processHandled .nothing) processed 1 handled :=
    yields_of_toOption hhandled
  replace hwrite : Yields (write (handled.plan .nothing .nothing)) handled ⟨⟩ written :=
    yields_of_toOption hwrite
  refine ⟨_, (yields_run rfl rfl rfl).mpr ⟨processed, handled, 1, ?_, hhandled, hwrite, rfl⟩⟩
  rw [documents_site]
  exact yields_bind.mpr ⟨_, processed, yields_processMarkup, yields_pure.mpr ⟨rfl, rfl⟩⟩

end Shared

open Shared in
theorem hasFile_of_leavesReference_shared : ∃ report, disk.Sound ∧
    Site.ofDisk options disk (fun _ => 0) = .ok site ∧ Yields Site.run site report written ∧
    options.get .scriptFileAction ≠ .removeAll ∧ options.get .cssFileAction ≠ .removeAll ∧
    site.documents .nothing = [] ++ 2 :: [] ∧ site.LeavesReference 2 .nothing 1 ∧
    PathFilter.nothing.accepts (written.tree.relativePath 1) = false ∧
    (written.disk.HasFile (joinPath (options.get .dist) (written.tree.relativePath 1)) ∨
      written.RemovesBundled .nothing 1) := by
  obtain ⟨report, hrun⟩ := yields_run_site
  have hpatterns : PathFilter.read [] = .ok .nothing := rfl
  have hoverrides : Overrides.read [] = .ok .nothing := rfl
  have hdocuments : site.documents .nothing = [] ++ 2 :: [] := documents_site
  have hbefore : Yields (([] : List NodeId).forM fun id => processMarkup id .nothing) site ⟨⟩ site :=
    yields_pure.mpr ⟨rfl, rfl⟩
  exact ⟨report, sound_disk, ofDisk_disk, hrun, nofun, nofun, hdocuments, leavesReference, rfl,
    hasFile_of_leavesReference sound_disk ofDisk_disk hrun nofun nofun hpatterns hpatterns hoverrides
      hdocuments hbefore leavesReference rfl⟩

open Shared in
/-- and yet the script of the page is not in the output -/
theorem leavesReference_not_hasFile : ∃ s report s', Site.ofDisk options disk (fun _ => 0) = .ok s ∧
    Yields Site.run s report s' ∧ options.get .scriptFileAction ≠ .removeAll ∧
    options.get .cssFileAction ≠ .removeAll ∧ options.get .ignore = [] ∧
    s.documents .nothing = [2] ∧ s.LeavesReference 2 .nothing 1 ∧
    ¬ s'.disk.HasFile (joinPath (options.get .dist) (s'.tree.relativePath 1)) := by
  obtain ⟨report, hrun⟩ := yields_run_site
  obtain ⟨-, -, -, hmissing⟩ := evaluated_run
  refine ⟨site, report, written, ofDisk_disk, hrun, nofun, nofun, rfl, documents_site,
    leavesReference, ?_⟩
  rintro ⟨p, hp, -⟩
  rw [hmissing] at hp
  exact nomatch hp

end SiteBundle
