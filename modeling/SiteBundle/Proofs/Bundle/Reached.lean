import SiteBundle.Proofs.Bundle.Pages
import SiteBundle.Proofs.Tree.Scanned

/-!
# How processing a markup file fails

The sites that documents lead to from a source directory, one after the other, are sound
(`Site.Reached.sound`): reading the directory gives a sound site, and every document leaves one,
also when it fails.

So processing a markup file fails in four ways only (`processMarkup_excused`).  Two are expected: a
file cannot be read, or code cannot be transformed.  One comes from a module that imports with a
clause whose brace closes before it opens, and one from a bundle directory with the name of a file
that was left out of the tree.  Every other check of the bundler holds by itself.
-/

namespace SiteBundle

open Site Text

/-- the page as its scripts are found in it -/
def Site.scriptPage (file : NodeId) (overrides : Overrides) : Work Page := do
  let p ← openPage file overrides
  let p ← p.bundleFamily .style
  p.advance .styleElementsBundled

/-- what processing a markup file may roll up: the modules on the disk, and the module scripts that
are found in the page -/
def Site.MayRollUp (s : Site) (file : NodeId) (overrides : Overrides) (code : Text) : Prop :=
  (∃ path, readModule s.disk path = .ok code) ∨
    ∃ p t, Yields (scriptPage file overrides) s p t ∧ p.ModuleBody .script t code

/-- an element that the bundler leaves in place in the markup file refers to a file: one of the
stylesheets as the file has them, or one of the scripts as they are found afterwards -/
def Site.LeavesReference (s : Site) (file : NodeId) (overrides : Overrides) (id : NodeId) : Prop :=
  (∃ p t, Yields (openPage file overrides) s p t ∧ p.LeavesReference .style t id) ∨
    ∃ p t, Yields (scriptPage file overrides) s p t ∧ p.LeavesReference .script t id

/-- the sites that markup files lead to, processed one after the other; a file that fails leaves a
site as well -/
inductive Site.Reached (o : Options) (disk : Disk) (dice : Nat → Nat) : Site → Prop where
  | start {s : Site} : ofDisk o disk dice = .ok s → Reached o disk dice s
  | step {s : Site} {file : NodeId} (overrides : Overrides) : Reached o disk dice s →
      s.tree.isFile file = true → Reached o disk dice (processMarkup file overrides s).2

/-- processing a markup file notes every file that it still refers to afterwards -/
theorem safely_processMarkup {s : Site} {file : NodeId} (h : s.Sound)
    (hfile : s.tree.isFile file = true) (overrides : Overrides) :
    Safely (s.MayRollUp file overrides) (processMarkup file overrides) s fun _ t =>
      ∀ id, s.LeavesReference file overrides id → t.tree.IsNecessary id := by
  have hmodules : ∀ path code, readModule s.disk path = .ok code → s.MayRollUp file overrides code :=
    fun path code hread => .inl ⟨path, hread⟩
  unfold processMarkup
  refine safely_bind (safely_openPage h hfile overrides).yields fun p t ht hst ⟨hp, hstage⟩ => ?_
  have hbundled : Safely (s.MayRollUp file overrides) p.bundled t fun q u =>
      q.document.stage = .scriptElementsBundled ∧
        ∀ id, s.LeavesReference file overrides id → u.tree.IsNecessary id := by
    unfold Page.bundled
    rw [← hst.disk] at hmodules
    refine safely_bind (safely_inActivity (safely_bundleFamily hmodules ht
      fun code hcode => absurd hcode not_moduleBody_style).yields) ?_
    rintro q u hu htu ⟨hq, ⟨text, hqtext⟩, hstyles⟩
    have hqstage : q.document.stage.rank < Stage.styleElementsBundled.rank := by
      rw [hqtext]
      exact hstage ▸ (by decide : Stage.exclusionComputed.rank < Stage.styleElementsBundled.rank)
    refine safely_bind (safely_advance hu hqstage).yields fun r v hv huv ⟨hr, hrq⟩ => ?_
    have hpage : Yields (scriptPage file overrides) s r v :=
      yields_bind.mpr ⟨p, t, hp, yields_bind.mpr ⟨q, u, hq, hr⟩⟩
    rw [← htu.disk, ← huv.disk] at hmodules
    refine safely_bind (safely_inActivity (safely_bundleFamily hmodules hv
      fun code hcode => .inr ⟨r, v, hpage, hcode⟩).kept) ?_
    rintro r' w hw - ⟨hvw, ⟨text', hrtext⟩, hscripts⟩
    have hrstage : r'.document.stage.rank < Stage.scriptElementsBundled.rank := by
      rw [hrtext, hrq]
      exact (by decide : Stage.styleElementsBundled.rank < Stage.scriptElementsBundled.rank)
    refine (safely_advance hw hrstage).kept.mono fun x y ⟨hwy, hx⟩ => ⟨by rw [hx], fun id hid => ?_⟩
    refine hwy.isNecessary ?_
    rcases hid with ⟨p', t', hp', hleft⟩ | ⟨r', v', hr', hleft⟩
    · obtain ⟨rfl, rfl⟩ := hp.unique hp'
      exact hvw.isNecessary (huv.isNecessary (hstyles id hleft))
    · obtain ⟨rfl, rfl⟩ := hpage.unique hr'
      exact hscripts id hleft
  refine safely_bind hbundled fun q u hu htu ⟨hq, hleft⟩ => ?_
  have hqstage : q.document.stage.rank < Stage.polyfillInserted.rank := by
    rw [hq]
    decide
  refine safely_bind (safely_withPolyfill hu hqstage) fun q v hv huv hq => ?_
  refine safely_bind (safely_minified hv (Nat.lt_of_le_of_lt hq (by decide)))
    fun q w hw hvw hq => ?_
  refine safely_bind (safely_advance hw (Nat.lt_of_le_of_lt hq (by decide))) fun q x hx hwx _ => ?_
  have hux := huv.trans (hvw.trans hwx)
  refine (safely_modifyFile (f := fun st => { st with override := some q.document.text }) hx
    (.inl ((hst.trans (htu.trans hux)).isFile hfile)) fun _ h => h).kept.mono fun _ y ⟨hxy, _⟩ => ?_
  exact fun id hid => (hux.trans hxy).isNecessary (hleft id hid)

/-! ## a document in parts -/

/-- what is done to a page behind the pass over its stylesheets -/
def Page.behindStyles (p : Page) (file : NodeId) : Work Unit := do
  let p ← Site.inActivity ("failed to bundle scripts of " ++ shown p.path) (p.bundleFamily .script)
  let p ← p.advance .scriptElementsBundled
  let p ← p.withPolyfill
  let p ← p.minified
  let p ← p.advance .finalized
  changeTree fun t => t.setContent file p.document.text

/-- what is done to a page behind the passes over its elements -/
def Page.behindScripts (p : Page) (file : NodeId) : Work Unit := do
  let p ← p.advance .scriptElementsBundled
  let p ← p.withPolyfill
  let p ← p.minified
  let p ← p.advance .finalized
  changeTree fun t => t.setContent file p.document.text

section
variable {s t u : Site} {file : NodeId} {overrides : Overrides} {p q : Page}

theorem yields_advance {next : Stage} (h : p.document.stage.rank < next.rank) :
    Yields (p.advance next) s { p with document := { p.document with stage := next } } s := by
  unfold Page.advance Document.advance?
  rw [if_neg (Nat.not_le.mpr h)]
  exact yields_pure.mpr ⟨rfl, rfl⟩

theorem yields_processMarkup_of_parts (hopen : Yields (openPage file overrides) s p s)
    (hstyles : Yields (p.bundleFamily .style) s q u)
    (hstage : q.document.stage.rank < Stage.styleElementsBundled.rank)
    (hrest : Yields (Page.behindStyles
      { q with document := { q.document with stage := .styleElementsBundled } } file) u ⟨⟩ t) :
    Yields (processMarkup file overrides) s ⟨⟩ t := by
  obtain ⟨r, v, hscripts, hrest⟩ := yields_bind.mp hrest
  obtain ⟨r', v', hadvance, hrest⟩ := yields_bind.mp hrest
  refine yields_bind.mpr ⟨p, s, hopen, yields_bind.mpr ⟨r', v', ?_, hrest⟩⟩
  refine yields_bind.mpr ⟨q, u, hstyles.inActivity _, ?_⟩
  exact yields_bind.mpr ⟨_, u, yields_advance hstage, yields_bind.mpr ⟨r, v, hscripts, hadvance⟩⟩

/-- a page without scripts -/
theorem yields_behindStyles_of_nil (hscripts : p.document.elements .script = [])
    (hrest : Yields (p.behindScripts file) s ⟨⟩ t) : Yields (p.behindStyles file) s ⟨⟩ t := by
  obtain ⟨q, u, hadvance, hrest⟩ := yields_bind.mp hrest
  exact yields_bind.mpr ⟨p, s, (yields_bundleFamily (f := .script) hscripts).inActivity _,
    yields_bind.mpr ⟨q, u, hadvance, hrest⟩⟩

/-! ### pages without stylesheets -/

theorem yields_scriptPage_of_nil (hopen : Yields (openPage file overrides) s p s)
    (hlinks : p.document.elements .link = []) (hstyles : p.document.elements .style = [])
    (hstage : p.document.stage = .exclusionComputed) : Yields (scriptPage file overrides) s
      { p with document := { p.document with stage := .styleElementsBundled } } s :=
  yields_bind.mpr ⟨p, s, hopen, yields_bind.mpr ⟨p, s,
    yields_bundleFamily (elements_style_of_nil hlinks hstyles), yields_advance (hstage ▸ by decide)⟩⟩

theorem yields_processMarkup_of_nil (hopen : Yields (openPage file overrides) s p s)
    (hlinks : p.document.elements .link = []) (hstyles : p.document.elements .style = [])
    (hstage : p.document.stage = .exclusionComputed)
    (hrest : Yields (Page.behindStyles
      { p with document := { p.document with stage := .styleElementsBundled } } file) s ⟨⟩ t) :
    Yields (processMarkup file overrides) s ⟨⟩ t :=
  yields_processMarkup_of_parts hopen (yields_bundleFamily (elements_style_of_nil hlinks hstyles))
    (hstage ▸ by decide) hrest

end

/-! ## reached sites -/

theorem Site.sound_ofDisk {o : Options} {disk : Disk} {dice : Nat → Nat} {s : Site}
    (hdisk : disk.Sound) (h : ofDisk o disk dice = .ok s) {file : NodeId}
    (hfile : s.tree.isFile file = true) : s.Sound := by
  obtain ⟨tree, hscan, rfl⟩ := ofDisk_eq_ok h
  obtain ⟨hrooted, hfolder⟩ := Tree.folders_scan hdisk hscan
  refine ⟨hrooted, nofun, fun id hid => .inr (hfolder file id hfile hid), fun m hm => ?_,
    fun hb => ?_, fun b hb => ?_⟩
  · exact absurd hm List.not_mem_nil
  · exact absurd (List.mem_of_getElem? hb) List.not_mem_nil
  · exact absurd hb List.not_mem_nil

/-- with a file to process, a reached site is sound -/
theorem Site.Reached.sound {o : Options} {disk : Disk} {dice : Nat → Nat} {s : Site}
    (hdisk : disk.Sound) (h : Reached o disk dice s) {file : NodeId}
    (hfile : s.tree.isFile file = true) : s.Sound := by
  induction h generalizing file with
  | start hstart => exact sound_ofDisk hdisk hstart hfile
  | step overrides _ hbefore ih =>
    have hsafe := safely_processMarkup (ih hbefore) hbefore overrides
    exact Ends.site (Ends.mono hsafe (fun _ _ hq => hq.1) fun _ _ he => he.1)

/-- **Processing a markup file never fails because of the bundler**, but in two ways.  On every site
that markup files lead to, with any overrides, a failure is a file that cannot be read or code that
cannot be transformed; or else an import has a clause whose brace closes before it opens, or the
bundle directory has the name of a file. -/
theorem processMarkup_excused {o : Options} {disk : Disk} {dice : Nat → Nat} {s : Site}
    {file : NodeId} (hdisk : disk.Sound) (h : Reached o disk dice s)
    (hfile : s.tree.isFile file = true) (overrides : Overrides) :
    Ends (processMarkup file overrides) s (fun _ _ => True) fun f t =>
      f.Excused (s.MayRollUp file overrides) t :=
  Ends.mono (safely_processMarkup (h.sound hdisk hfile) hfile overrides) (fun _ _ _ => trivial)
    fun _ _ hf => hf.2.2

/-! ## a page with such an import -/

namespace Backwards

def code : Text := "import \x7d \x7b from './lib.js';".toList

def imported : Import := ⟨"\x7d \x7b".toList, "./lib.js".toList, code⟩

/-- a page with a module script -/
def markup : Text := "<script type=\"module\">".toList ++ code ++ "</script>".toList

/-- the page, and the module that its script imports -/
def disk : Disk where
  entries := [(["src".toList], .folder),
    (["src".toList, "index.html".toList], .file (Utf8.bytes markup)),
    (["src".toList, "lib.js".toList], .file [])]
  cwd := []

def tree : Tree where
  top := ["src".toList]
  nodes := #[⟨[], none, .folder⟩, ⟨"index.html".toList, some 0, .file ⟨none, false, [], false⟩⟩,
    ⟨"lib.js".toList, some 0, .file ⟨none, false, [], false⟩⟩]

def site : Site := .ofTree .defaults disk tree fun _ => 0

theorem sound_disk : disk.Sound where
  once := by decide
  above := by decide

theorem ofDisk_disk : Site.ofDisk .defaults disk (fun _ => 0) = .ok site := by
  have htop : disk.locate "src".toList = .ok ["src".toList] := rfl
  have hsorted : (disk.inside ["src".toList]).Pairwise fun a b => !Place.lt b.1 a.1 := by
    decide +kernel
  exact Site.ofDisk_of_pairwise htop hsorted rfl rfl

end Backwards

open Backwards in
theorem processMarkup_excused_backwards :
    disk.Sound ∧ Site.Reached .defaults disk (fun _ => 0) site ∧ site.tree.isFile 1 = true ∧
      Ends (processMarkup 1 .nothing) site (fun _ _ => True) fun f t =>
        f.Excused (site.MayRollUp 1 .nothing) t :=
  ⟨sound_disk, .start ofDisk_disk, rfl,
    processMarkup_excused sound_disk (.start ofDisk_disk) rfl .nothing⟩

namespace Backwards

theorem pieces_code : pieces importAt? code = [.found 0 imported] := rfl

def page : Page :=
  ⟨"index.html".toList, 1, Tree.root, .defaults, .ofText markup false⟩

theorem names_file : tree.names 1 = ["index.html".toList] := by
  rw [Tree.names]
  show tree.names 0 ++ _ = _
  rw [Tree.names]
  rfl

theorem place_root : tree.place Tree.root = ["src".toList] := by
  unfold Tree.place Tree.relativePath
  rw [Tree.names]
  rfl

theorem yields_openPage : Yields (openPage 1 .nothing) site page site := by
  have hpath : site.tree.relativePath 1 = "index.html".toList := congrArg (join ['/']) names_file
  have hplace : site.tree.place 1 = ["src".toList, "index.html".toList] := by
    unfold Tree.place
    rw [hpath]
    rfl
  have hread : site.tree.readText site.disk 1 = .ok markup := by
    have hbytes : site.disk.readBytes ["src".toList, "index.html".toList] =
        .ok (Utf8.bytes markup) := rfl
    unfold Tree.readText
    show during _ (onDisk (site.disk.readBytes (site.tree.place 1))) >>= _ = _
    rw [hplace, hbytes]
    show Except.ok _ = _
    refine congrArg Except.ok ?_
    decide +kernel
  unfold openPage
  show Yields (Site.lift (during _ (site.tree.readText site.disk 1)) >>= _) site _ site
  rw [hread, hpath]
  rfl


theorem results_empty (closed : List Place) (path : Place) (r : RollUp) :
    RollUp.module disk closed path [] r = { r with next := r.next + 1 }.close path r.next [] := by
  rw [RollUp.module]
  rfl

theorem ends_rollUp : Ends (rollUpBody code Tree.root page.path) site (fun _ _ => False)
    fun f _ => f.cause = .outOfBounds := by
  have hlocate : locate? disk (["src".toList] ++ [inlineName]).dropLast imported.specifier =
      some ["src".toList, "lib.js".toList] := rfl
  have hread : readModule disk ["src".toList, "lib.js".toList] = .ok [] := by
    have hbytes : disk.readText ["src".toList, "lib.js".toList] = .ok [] := rfl
    unfold readModule
    rw [hbytes]
    rfl
  have hmem : ["src".toList, "lib.js".toList] ∈ disk.files.erase (["src".toList] ++ [inlineName]) := by
    decide +kernel
  have hrollUp : Results (rollUpInline disk ["src".toList] code) (fun _ => False)
      fun f => f.cause = .outOfBounds := by
    unfold rollUpInline
    dsimp only
    rw [results_bind, RollUp.module, pieces_code, results_bind, List.foldlM_cons, results_bind]
    dsimp only
    rw [hlocate]
    simp only [dif_pos hmem, hread, bind, Except.bind, results_empty]
    rfl
  unfold rollUpBody
  rw [ends_bind, ends_get]
  show Ends (lift (during _ (rollUpInline disk (tree.place Tree.root) code)) >>= _) _ _ _
  rw [place_root, ends_bind, ends_lift]
  cases hr : rollUpInline disk ["src".toList] code with
  | ok r =>
    rw [hr] at hrollUp
    exact hrollUp
  | error f =>
    rw [hr] at hrollUp
    exact hrollUp

def scriptPage : Page := { page with document := { page.document with stage := .styleElementsBundled } }

def script : Asset :=
  ⟨⟨.script, 0, ⟨"<script type=\"module\">".toList, code, "</script>".toList⟩⟩, .inline, true, false,
    true⟩

theorem elements_style : Family.style.elements page.document = [] :=
  elements_style_of_nil rfl rfl

theorem ends_scripts : Ends (scriptPage.bundleFamily .script) site (fun _ _ => False)
    fun f _ => f.cause = .outOfBounds := by
  have hdropped : scriptPage.dropped (scriptPage.options.policy .script) site.tree = [] := rfl
  have hmarks : (scriptPage.classified (scriptPage.options.policy .script) site.tree).filterMap
      (·.untouchedFile?) = [] := rfl
  have hassets : (scriptPage.classified (scriptPage.options.policy .script) site.tree).filterMap
      (·.asset?) = [script] := rfl
  have hmodule : Ends (scriptPage.moduleText (scriptPage.options.policy .script) script) site
      (fun _ _ => False) fun f _ => f.cause = .outOfBounds := by
    have hblank : allBlank script.element.body = false := rfl
    unfold Page.moduleText
    show Ends (if allBlank script.element.body = true then pure [] else _) _ _ _
    rw [hblank]
    exact ends_bind.mpr (ends_rollUp.mono (fun _ _ h => h.elim) fun _ _ h => h)
  have hsegments : segments? scriptPage.document (scriptPage.options.policy .script).position
      [script] = some [⟨[script], scriptPage.document.anchorOffset ⟨.body, .stop⟩, false⟩] := by
    show some (anchoredSegments _ _ _) = _
    rw [anchoredSegments_singleton _ _ rfl]
  unfold Page.bundleFamily
  refine ends_bind.mpr (ends_of_yields (yields_withoutMissing hdropped) ?_)
  refine ends_bind.mpr (ends_get.mpr ?_)
  dsimp only
  rw [hmarks, hassets]
  refine ends_bind.mpr (ends_of_yields (yields_pure.mpr ⟨rfl, rfl⟩) ?_)
  rw [show (scriptPage.options.policy .script).bundle = true from rfl,
    if_neg (by decide : ¬ (!true) = true), if_neg (nofun : ¬ [script].isEmpty = true)]
  unfold Page.withBundles
  rw [hsegments]
  refine ends_bind.mpr ?_
  show Ends ([[(⟨.module, [script]⟩ : Group)]].mapM _) _ _ _
  rw [List.mapM_cons]
  refine ends_bind.mpr (ends_bind.mpr ?_)
  rw [List.mapM_cons]
  exact ends_bind.mpr (hmodule.mono (fun _ _ h => h.elim) fun _ _ h => h)

end Backwards

open Backwards in
/-- and yet processing the first page steps out of bounds -/
theorem processMarkup_backwards_outOfBounds :
    ∃ s, Site.ofDisk .defaults disk (fun _ => 0) = .ok s ∧ s.tree.isFile 1 = true ∧
      Tree.isMarkup (s.tree.extension 1) = true ∧
      Ends (processMarkup 1 .nothing) s (fun _ _ => False) fun f _ => f.cause = .outOfBounds := by
  have hadvance : Yields (page.advance .styleElementsBundled) site scriptPage site := rfl
  refine ⟨site, ofDisk_disk, rfl, by decide +kernel, ?_⟩
  unfold processMarkup
  refine ends_bind.mpr (ends_of_yields yields_openPage ?_)
  refine ends_bind.mpr ?_
  unfold Page.bundled
  refine ends_bind.mpr (ends_inActivity.mpr (ends_of_yields (yields_bundleFamily elements_style) ?_))
  refine ends_bind.mpr (ends_of_yields hadvance ?_)
  exact ends_bind.mpr (ends_inActivity.mpr (ends_scripts.mono (fun _ _ h => h.elim) fun _ _ h => h))

end SiteBundle
