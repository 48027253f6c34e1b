import SiteBundle.Proofs.Bundle.Merged
import SiteBundle.Proofs.Output.Contents

/-!
# Merged stylesheets in the output

A stylesheet that is merged from others is written to a file of the bundle directory, and its
references are read from there.  They lead where they led from the sheets that were merged, and none is
lost or added (`prepareRun_keepsReferences`).

* `Site.PlansSheet`       a bundle with its code is planned, in a certain directory;
* `directoryNames_path`   the directory of a file is the bundle directory, as it is rewritten for.

The bundle directory is named in steps that lead down.  Sheets are rewritten for it as if every step of
its name was a folder on the way, so a step that stays, or goes up, leads them astray
(`prepareRun_movesReference`).
-/

namespace SiteBundle

open Site Text

/-! ## directories -/

theorem directoryNames_append_slash (t u : Text) :
    directoryNames (t ++ '/' :: u) = directoryNames t ++ directoryNames u := pathPieces_append_slash t u

theorem directoryNames_trimSlashes (dir : Text) :
    directoryNames (trimSlashes dir) = directoryNames dir := by
  have hfront : ∀ t : Text, directoryNames (t.dropWhile (· == '/')) = directoryNames t := by
    intro t
    induction t with
    | nil => rfl
    | cons c t ih =>
      by_cases hc : c = '/'
      · subst hc
        exact ih.trans (directoryNames_append_slash [] t).symm
      · rw [List.dropWhile_cons_of_neg (by rwa [beq_iff_eq])]
  have hback : ∀ t : Text, directoryNames (trimEndBy (· == '/') t) = directoryNames t := by
    intro t
    induction t using List.reverseRecOn with
    | nil => rfl
    | append_singleton t c ih =>
      by_cases hc : c = '/'
      · subst hc
        rw [trimEndBy_concat_of t rfl, ih, directoryNames_append_slash]
        exact (List.append_nil _).symm
      · have hkept : (c == '/') = false := beq_eq_false_iff_ne.mpr hc
        exact congrArg directoryNames (trimEndBy_concat (p := (· == '/')) t hkept)
  rw [trimSlashes, hback, hfront]

/-- steps without a name stay where they are -/
theorem foldlM_step?_filter (steps : List Text) (up : List Text) :
    (steps.filter (!·.isEmpty)).foldlM step? up = steps.foldlM step? up := by
  induction steps generalizing up with
  | nil => rfl
  | cons step steps ih =>
    cases step with
    | nil => exact ih up
    | cons c r =>
      rw [List.filter_cons_of_pos rfl, List.foldlM_cons, List.foldlM_cons]
      exact congrArg (step? up (c :: r) >>= ·) (funext ih)

/-- a path leads to the directory of a file when everything on the way has a name -/
theorem walkSteps?_directory {dir name : Text} (hname : '/' ∉ name)
    (h : ∀ name ∈ directoryNames dir, isPlainName name = true) :
    walkSteps? [] (splitOn '/' (join ['/'] [dir, name])).dropLast = some (directoryNames dir) := by
  have hjoin : join ['/'] [dir, name] = dir ++ '/' :: name := List.append_assoc dir ['/'] name
  rw [hjoin, splitOn_append, splitOn_of_not_mem hname, List.dropLast_concat, walkSteps?,
    ← foldlM_step?_filter]
  rw [← directoryNames, foldlM_step?_names h, List.reverse_nil, List.append_nil, Option.map_some,
    List.reverse_reverse]

/-! ## planned sheets -/

/-- a stylesheet with this code is written to a file of the directory, unless an ignore pattern matches
the file -/
def Site.PlansSheet (s : Site) (ignore : PathFilter) (dir : List Text) (entries : List OutputEntry)
    (code : Text) : Prop :=
  ∃ b ∈ s.bundles, b.family = .style ∧ ∃ node, b.node = some node ∧
    walkSteps? [] (splitOn '/' (s.tree.relativePath node)).dropLast = some dir ∧
    (ignore.accepts (s.tree.relativePath node) = false →
      .write (s.tree.relativePath node) code ∈ entries)

section
variable {s₀ s t : Site} {o : Options} {disk : Disk} {dice : Nat → Nat} {p : Prepared}
  {ignore keep : PathFilter} {patterns : List Text} {overrides : Overrides} {file : NodeId}
  {before after : List NodeId} {page : Page} {members : List Asset} {sheets : List Sheet} {code : Text}

/-- a stylesheet bundle with a file is planned -/
theorem Site.HasSheet.plansSheet (h : s.HasSheet code) (hfrom : From s₀ s) (hs : s.tree.Rooted)
    (hnames : s.Unslashed) (hignore : PathFilter.read patterns = .ok ignore)
    (hdir : ∀ name ∈ directoryNames (s.options.get .bundleDirectory), isPlainName name = true) :
    s.PlansSheet ignore (directoryNames (s.options.get .bundleDirectory)) (s.plan ignore keep) code := by
  obtain ⟨b, hb, hm, hstyle, rfl, node, hnode⟩ := h
  have hslash : '/' ∉ b.fileName := by
    refine fun hmem => (List.mem_append.mp hmem).elim (hnames b hb hm) ?_
    rw [hstyle]
    decide
  refine ⟨b, hb, hstyle, node, hnode, ?_, fun hignored => ?_⟩
  · rw [Tree.relativePath, hfrom.names_file hs hb hm hnode]
    exact walkSteps?_directory hslash hdir
  · obtain ⟨st, hst, hcode, hsurvives⟩ := hfrom.survives_of_markup hb hm hnode
    rw [plan_eq_map hs hignore, ← outputEntry_of_some hst hcode]
    exact List.mem_map_of_mem (selected_of_survives hs hst hsurvives hignored)

/-! ## runs -/

/-- **References of stylesheets that are merged lead where they led.**  When a run is prepared, the
stylesheets that a page merges are one sheet of the plan, and the references that are found in it are
theirs, one for one: read from the directory that the sheet is written to, each leads to the place that
it led to from its own sheet, with the same query and fragment. -/
theorem prepareRun_keepsReferences (hdisk : disk.Sound) (hsite : ofDisk o disk dice = .ok s₀)
    (hprepared : prepareRun o disk dice = .ok p)
    (hignore : PathFilter.read (o.get .ignore) = .ok ignore)
    (hoverrides : Overrides.read (o.overrides .markup) = .ok overrides)
    (hnames : o.get .randomBundleNames = true → p.site.bundles.length ≤ nameCount)
    (hdir : ∀ name ∈ directoryNames (o.get .bundleDirectory), isPlainName name = true)
    (hdocuments : s₀.documents ignore = before ++ file :: after)
    (hbefore : Yields (before.forM fun id => processMarkup id overrides) s₀ ⟨⟩ s)
    (hopen : Yields (openPage file overrides) s page s) (hmerges : page.MergesSheets s members)
    (hplain : (page.options.recipe .style false).transforms .style = [])
    (hsheets : List.Forall₂ (s.IsSheet page.dir) members sheets)
    (hportable : ∀ x ∈ sheets, x.Portable (trimSlashes (o.get .bundleDirectory))) :
    ∃ code, (allBlank code = true ∨
        p.site.PlansSheet ignore (directoryNames (o.get .bundleDirectory)) p.entries code) ∧
      ∀ w : Way, List.Forall₂ (fun x r => x.2.Keeps (directoryNames x.1.dir)
        (directoryNames (o.get .bundleDirectory)) r) (sheets.flatMap (·.references w))
        (foundIn (fun _ => w.find?) code) := by
  obtain ⟨s₀', -, hsite', hplanned, -⟩ := prepareRun_eq_ok_iff.mp hprepared
  obtain rfl : s₀ = s₀' := Except.ok.inj (hsite.symm.trans hsite')
  have hfrom := from_planned hsite hplanned hnames
  obtain ⟨hoptions, hfresh⟩ : s₀.options = o ∧ s₀.bundles = [] := by
    obtain ⟨tree, -, rfl⟩ := ofDisk_eq_ok hsite
    exact ⟨rfl, rfl⟩
  obtain ⟨ignore', keep, overrides', hignore', -, hoverrides', u, n, hall, hhandled, hentries, -⟩ :=
    yields_planned.mp hplanned
  rw [hoptions] at hignore' hoverrides'
  obtain rfl : ignore = ignore' := Except.ok.inj (hignore.symm.trans hignore')
  obtain rfl : overrides = overrides' := Except.ok.inj (hoverrides.symm.trans hoverrides')
  -- the sites from one part of the run to the next
  have hfiles : ∀ id ∈ s₀.documents ignore, s₀.tree.isFile id = true := fun _ => isFile_of_mem_documents
  have hs₀ : s₀.Sound := sound_ofDisk hdisk hsite
    (hfiles file (hdocuments ▸ List.mem_append_right before List.mem_cons_self))
  have hbeforeFiles : ∀ id ∈ before, s₀.tree.isFile id = true := fun id hid =>
    hfiles id (hdocuments ▸ List.mem_append_left _ hid)
  obtain ⟨hs, -, -⟩ := (safely_processMarkups hs₀ hbeforeFiles overrides).of_yields hbefore
  obtain ⟨hu, -, -⟩ := (safely_processMarkups hs₀ hfiles overrides).of_yields hall
  obtain ⟨ht, -⟩ := kept_processHandled hu hhandled
  have hbeforeSteps := steps_documents hbeforeFiles hbefore
  have hplannedSteps := stepwise_planned.of_yields hplanned
  rw [hdocuments] at hall
  obtain ⟨s', hbefore', hall⟩ := yields_forM_append.mp hall
  obtain ⟨-, rfl⟩ := hbefore.unique hbefore'
  obtain ⟨_, t, hfile, hafter⟩ := yields_bind.mp hall
  have hnumbered : s.Numbered := by
    refine hbeforeSteps.numbered fun hb => ?_
    rw [hfresh] at hb
    exact nomatch hb
  have hsame : s.options = o := hbeforeSteps.base.2.1.trans hoptions
  have hlast : p.site.options = o := hplannedSteps.base.2.1.trans hoptions
  have hmade := hasSheet_of_processMarkup hnumbered hs.rooted hopen hmerges hplain hsheets hfile
  rw [hsame] at hmade
  refine ⟨mergedSheet (trimSlashes (o.get .bundleDirectory)) sheets, hmade.imp_right fun hsheet => ?_, ?_⟩
  · have hrest : Steps anyNode anyNode t u := by
      refine (stepwise_forM fun id _ => ?_).of_yields hafter
      exact (stepwise_processMarkup id overrides).mono (fun _ _ => trivial) fun _ _ => trivial
    have hkept := (hsheet.of_steps hrest).of_steps (steps_processHandled hhandled)
    have hunslashed : p.site.Unslashed := by
      refine hplannedSteps.unslashed fun b hb => ?_
      rw [hfresh] at hb
      exact nomatch hb
    have hplans : p.site.PlansSheet ignore (directoryNames (p.site.options.get .bundleDirectory))
        (p.site.plan ignore keep) (mergedSheet (trimSlashes (o.get .bundleDirectory)) sheets) :=
      hkept.plansSheet hfrom ht.rooted hunslashed hignore (hlast.symm ▸ hdir)
    rwa [hlast, ← hentries] at hplans
  · intro w
    have hkeeps := keeps_mergedSheet hportable w
    rwa [directoryNames_trimSlashes] at hkeeps

end

/-! ## a sheet in another folder -/

namespace LinkedSheet

def markup : Text := "<link rel=\"stylesheet\" href=\"css/a.css\">".toList

/-- a sheet with a reference of each kind -/
def code : Text := "@import 'b.css';li\x7blist-style:url(i.png)\x7d".toList

def disk : Disk where
  entries := [(["src".toList], .folder), (["src".toList, "css".toList], .folder),
    (["src".toList, "css".toList, "a.css".toList], .file (Utf8.bytes code)),
    (["src".toList, "index.html".toList], .file (Utf8.bytes markup))]
  cwd := []

/-- stylesheets are not transformed -/
def options (dir : Text) : Options := Options.defaults.overlay
  ((((Layer.empty.setField .minifyCss false).setField .minifyMarkup false).setField
    .randomBundleNames false).setField .bundleDirectory dir)

/-- a bundle directory that is a name, and one with a step that stays -/
def dirs : List Text := ["bundles".toList, "./bundles".toList]

def tree : Tree where
  top := ["src".toList]
  nodes := #[⟨[], none, .folder⟩, ⟨"css".toList, some 0, .folder⟩,
    ⟨"a.css".toList, some 1, .file Tree.freshFile⟩, ⟨"index.html".toList, some 0, .file Tree.freshFile⟩]

variable {dir : Text}

def site (dir : Text) : Site := .ofTree (options dir) disk tree fun _ => 0

theorem sound_disk : disk.Sound := ⟨by decide, by decide⟩

theorem locate_disk : disk.locate "src".toList = .ok ["src".toList] ∧
    (disk.locate "dist".toList).toOption = none := ⟨rfl, rfl⟩

theorem ofDisk_disk (dir : Text) : Site.ofDisk (options dir) disk (fun _ => 0) = .ok (site dir) := by
  have hsorted : (disk.inside ["src".toList]).Pairwise fun a b => !Place.lt b.1 a.1 := by decide
  exact ofDisk_of_pairwise locate_disk.1 hsorted rfl rfl

/-! ### the page -/

def page (dir : Text) : Page := ⟨"index.html".toList, 3, Tree.root, options dir, .ofText markup false⟩

def policy (dir : Text) : Policy := (options dir).policy .style

def asset : Asset := ⟨⟨.link, 0, ⟨markup, [], []⟩⟩, .file 2, false, false, false⟩

/-- what becomes of the element, and the site with the bundle -/
def replaced (dir : Text) : Except Failure Text × Site :=
  (page dir).replacement (policy dir) ⟨.merged false false, [asset]⟩ (site dir)

def reference (dir : Text) : Text :=
  "<link rel=\"stylesheet\" href=\"./".toList ++ (dir ++ "/0.css\">".toList)

def scriptPage (dir : Text) : Page :=
  { (page dir).withText (reference dir) with document :=
    { ((page dir).withText (reference dir)).document with stage := .styleElementsBundled } }

def processed (dir : Text) : Site := ((scriptPage dir).behindScripts 3 (replaced dir).2).2

def handled (dir : Text) : Site := (processHandled .nothing (processed dir)).2

def merged (dir : Text) : Text := mergedSheet dir [⟨"css".toList, code⟩]

def entries (dir : Text) : List OutputEntry := [.write "index.html".toList (reference dir),
  .folder dir, .write (dir ++ "/0.css".toList) (merged dir)]

/-- what evaluation says about the page -/
theorem evaluated_page : ∀ dir ∈ dirs,
    ((site dir).tree.readText disk 3).toOption = some markup ∧
    ((site dir).tree.readText disk 2).toOption = some code ∧
    (page dir).dropped (policy dir) tree = [] ∧
    ((page dir).classified (policy dir) tree).filterMap (·.untouchedFile?) = [] ∧
    (page dir).assets (policy dir) tree = [asset] ∧
    (page dir).document.anchorOffset ⟨.head, .stop⟩ = 40 ∧
    (replaced dir).1.toOption = some (reference dir) ∧
    (replacing markup [(⟨[asset], 40, false⟩, reference dir)]).cuts = [(0, 40)] ∧
    (Draft.scrapsFrom [(0, 40)] [(Draft.effectivePlace [(0, 40)] 40,
      ((⟨[asset], 40, false⟩ : Segment), reference dir))] 0 markup).flatMap
        (Scrap.text fun x : Segment × Text => x.2) = reference dir ∧
    (scriptPage dir).document.elements .script = [] := by
  decide +kernel

/-- where the page is, and where the sheet is -/
theorem evaluated_tree : tree.relativePath 3 = "index.html".toList ∧
    ((tree.parent? 2).map tree.relativePath).getD [] = "css".toList := by
  decide +kernel

theorem yields_page (hdir : dir ∈ dirs) :
    Yields (openPage 3 .nothing) (site dir) (page dir) (site dir) := by
  obtain ⟨htext, -⟩ := evaluated_page dir hdir
  have hpath : (site dir).tree.relativePath 3 = "index.html".toList := evaluated_tree.1
  have hopen := yields_openPage_of_readText rfl (eq_ok_of_toOption htext) .nothing
  rw [hpath] at hopen
  exact hopen

theorem segments?_page (hdir : dir ∈ dirs) :
    segments? (page dir).document (policy dir).position ((page dir).assets (policy dir) tree) =
      some [⟨[asset], 40, false⟩] := by
  obtain ⟨-, -, -, -, hassets, hanchor, -⟩ := evaluated_page dir hdir
  rw [hassets, ← hanchor]
  exact congrArg some (anchoredSegments_singleton _ _ rfl)

/-- the sheet is merged, alone -/
theorem mergesSheets_page (hdir : dir ∈ dirs) : (page dir).MergesSheets (site dir) [asset] := by
  obtain ⟨-, -, hdropped, -⟩ := evaluated_page dir hdir
  exact ⟨rfl, rfl, page dir, _, _, false, false, yields_withoutMissing hdropped, segments?_page hdir,
    List.mem_singleton_self _, List.mem_singleton_self _⟩

theorem isSheet_asset (hdir : dir ∈ dirs) :
    List.Forall₂ ((site dir).IsSheet (page dir).dir) [asset] [⟨"css".toList, code⟩] := by
  obtain ⟨-, hcode, -⟩ := evaluated_page dir hdir
  have hparent : (((site dir).tree.parent? 2).map (site dir).tree.relativePath).getD [] =
      "css".toList := evaluated_tree.2
  rw [← hparent]
  exact .cons (.file rfl (eq_ok_of_toOption hcode)) .nil

theorem bundleFamily_page (hdir : dir ∈ dirs) : Yields ((page dir).bundleFamily .style) (site dir)
    ((page dir).withText (reference dir)) (replaced dir).2 := by
  obtain ⟨-, -, hdropped, hmarks, hassets, hanchor, hblock, hcuts, htext, -⟩ := evaluated_page dir hdir
  exact bundleFamily_of_single rfl (yields_withoutMissing hdropped) hmarks hassets rfl rfl hanchor rfl
    (yields_of_toOption hblock) hcuts htext

/-! ### the run -/

/-- what evaluation says about the run -/
theorem evaluated_run : ∀ dir ∈ dirs,
    ((scriptPage dir).behindScripts 3 (replaced dir).2).1.toOption = some ⟨⟩ ∧
    (processHandled .nothing (processed dir)).1.toOption = some 0 ∧
    (site dir).documents .nothing = [3] ∧ (handled dir).plan .nothing .nothing = entries dir ∧
    (handled dir).tree.top = ["src".toList] := by
  decide +kernel

theorem yields_processMarkup (hdir : dir ∈ dirs) :
    Yields (processMarkup 3 .nothing) (site dir) ⟨⟩ (processed dir) := by
  obtain ⟨-, -, -, -, -, -, -, -, -, hscripts⟩ := evaluated_page dir hdir
  have hstage : Stage.exclusionComputed.rank < Stage.styleElementsBundled.rank := by decide
  refine yields_processMarkup_of_parts (yields_page hdir) (bundleFamily_page hdir) hstage ?_
  exact yields_behindStyles_of_nil hscripts (yields_of_toOption (evaluated_run dir hdir).1)

def report (dir : Text) : Report := ⟨((site dir).documents .nothing).map (handled dir).tree.relativePath,
  (handled dir).bundles.map (handled dir).summary, 0, OutputEntry.fileCount (entries dir),
  (options dir).get .dist⟩

theorem prepareRun_disk (hdir : dir ∈ dirs) : prepareRun (options dir) disk (fun _ => 0) =
    .ok ⟨handled dir, report dir, entries dir⟩ := by
  obtain ⟨-, hhandled, hdocuments, hplan, -⟩ := evaluated_run dir hdir
  have hseparate : ∀ src : Text, ensureSeparate disk "dist".toList src = .ok () := by
    intro src
    unfold ensureSeparate
    cases h : disk.locate "dist".toList with
    | error f => rfl
    | ok top =>
      have hdist := locate_disk.2
      rw [h] at hdist
      exact nomatch hdist
  refine prepareRun_eq_ok_iff.mpr ⟨site dir, hseparate _, ofDisk_disk dir, yields_planned.mpr ⟨.nothing,
    .nothing, .nothing, rfl, rfl, rfl, processed dir, 0, ?_, yields_of_toOption hhandled, hplan.symm,
    rfl⟩, hseparate _⟩
  rw [hdocuments]
  exact yields_bind.mpr ⟨⟨⟩, processed dir, yields_processMarkup hdir, yields_pure.mpr ⟨rfl, rfl⟩⟩

/-! ### the references -/

def references : List (Way × Reference) :=
  [(.sheet, ⟨['\''], "b.css".toList⟩), (.url, ⟨[], "i.png".toList⟩)]

theorem legible_code : Legible code references := by
  have himport : ¬ Occurs "url(".toList "@import 'b.css'".toList := fun h => by
    obtain ⟨c, hc, hu⟩ := h.exists_mem (l := 'u') (by decide)
    exact absurd hu ((by decide : ∀ c ∈ "@import 'b.css'".toList, foldChar c ≠ 'u') c hc)
  have hurl : ¬ Occurs "@import".toList "url(i.png)".toList := fun h => by
    obtain ⟨c, hc, hat⟩ := h.exists_mem (l := '@') (by decide)
    exact absurd hat ((by decide : ∀ c ∈ "url(i.png)".toList, foldChar c ≠ '@') c hc)
  have htail : Legible ("\x7d".toList ++ []) [] := .behind (by decide) .nil
  have hstyle : Legible (";li\x7blist-style:".toList ++ ("url(i.png)".toList ++ "\x7d".toList))
      [(.url, ⟨[], "i.png".toList⟩)] := .behind (by decide) (.found rfl hurl htail)
  exact .found (w := .sheet) rfl himport hstyle

/-- the names on the way to what the sheet refers to -/
def names : List Text := ["css".toList, "b.css".toList, "i.png".toList]

theorem admits_name {w : Way} {r : Reference} (hr : ∀ q ∈ r.quote, isQuote q = true) :
    ∀ name ∈ names, r.Admits w name := by
  have hplain : ∀ name ∈ names, (isPlainName name = true ∧ '/' ∉ name) ∧ trim name = name ∧
      ∀ c ∈ name, (isSuffixStart c = false ∧ c ≠ ':') ∧ isQuote c = false ∧
        (c ≠ ')' ∧ isBlank c = false) ∧ foldChar c ≠ '(' ∧ foldChar c ≠ '@' := by decide
  intro name hname
  obtain ⟨hentry, htight, hall⟩ := hplain name hname
  refine ⟨⟨hentry, htight, fun c hc => (hall c hc).1⟩, fun q hq hmem => ?_,
    fun _ => ⟨fun c hc => (hall c hc).2.2.1, fun c hc => (hall c (List.mem_of_mem_head? hc)).2.1⟩,
    fun hoccurs => ?_⟩
  · exact nomatch (hr q hq).symm.trans (hall q hmem).2.1
  · cases w with
    | url =>
      obtain ⟨c, hc, hat⟩ := hoccurs.exists_mem (l := '@') (by decide)
      exact (hall c hc).2.2.2.2 hat
    | sheet =>
      obtain ⟨c, hc, hparen⟩ := hoccurs.exists_mem (l := '(') (by decide)
      exact (hall c hc).2.2.2.1 hparen

theorem portable_code : (⟨"css".toList, code⟩ : Sheet).Portable "bundles".toList where
  legible := ⟨_, legible_code⟩
  admits := by
    intro _ w r hr _ place suffix hplace
    have hmem : (w, r) ∈ references := by
      rw [legible_code.foundIn] at hr
      exact mem_ofWay.mp hr
    have hall : ∀ x ∈ references, (∀ q ∈ x.2.quote, isQuote q = true) ∧
        ∀ y ∈ resolve? ["css".toList] x.2.url, y.1 ≠ ["bundles".toList] ∧ ∀ name ∈ y.1, name ∈ names := by
      decide
    obtain ⟨hquote, hresolved⟩ := hall _ hmem
    obtain ⟨hne, hnames⟩ := hresolved _ hplace
    exact ⟨hne, fun name hname => admits_name hquote name (hnames name hname)⟩

end LinkedSheet

open LinkedSheet in
/-- a sheet of another folder, merged for the bundle directory -/
theorem prepareRun_keepsReferences_linked : disk.Sound ∧
    Site.ofDisk (options "bundles".toList) disk (fun _ => 0) = .ok (site "bundles".toList) ∧
    Yields (openPage 3 .nothing) (site "bundles".toList) (page "bundles".toList)
      (site "bundles".toList) ∧
    (page "bundles".toList).MergesSheets (site "bundles".toList) [asset] ∧
    (⟨"css".toList, code⟩ : Sheet).Portable "bundles".toList ∧ ∃ p,
      prepareRun (options "bundles".toList) disk (fun _ => 0) = .ok p ∧ ∃ merged,
        (allBlank merged = true ∨ p.site.PlansSheet .nothing ["bundles".toList] p.entries merged) ∧
        ∀ w : Way, List.Forall₂ (fun x r => x.2.Keeps (directoryNames x.1.dir) ["bundles".toList] r)
          ([⟨"css".toList, code⟩].flatMap (Sheet.references w)) (foundIn (fun _ => w.find?) merged) := by
  have hdir : "bundles".toList ∈ dirs := List.mem_cons_self
  refine ⟨sound_disk, ofDisk_disk _, yields_page hdir, mergesSheets_page hdir, portable_code, _,
    prepareRun_disk hdir, ?_⟩
  have hdocuments : (site "bundles".toList).documents .nothing = [] ++ 3 :: [] :=
    (evaluated_run _ hdir).2.2.1
  exact prepareRun_keepsReferences sound_disk (ofDisk_disk _) (prepareRun_disk hdir) rfl rfl nofun
    (by decide) hdocuments (yields_pure.mpr ⟨rfl, rfl⟩) (yields_page hdir) (mergesSheets_page hdir) rfl
    (isSheet_asset hdir) fun x hx => List.mem_singleton.mp hx ▸ portable_code

open LinkedSheet in
/-- with a step that stays, the directory is one folder and the sheet is rewritten for two; the address
that it gets leads out of the output -/
theorem prepareRun_movesReference : ∃ p merged r,
    prepareRun (options "./bundles".toList) disk (fun _ => 0) = .ok p ∧
    (page "./bundles".toList).MergesSheets (site "./bundles".toList) [asset] ∧
    .write "./bundles/0.css".toList merged ∈ p.entries ∧
    walkSteps? [] (splitOn '/' "./bundles/0.css".toList).dropLast = some ["bundles".toList] ∧
    foundIn (fun _ => Way.url.find?) code = [⟨[], "i.png".toList⟩] ∧
    resolve? ["css".toList] "i.png".toList = some (["css".toList, "i.png".toList], []) ∧
    foundIn (fun _ => Way.url.find?) merged = [r] ∧ r.url = "../../css/i.png".toList ∧
    resolve? ["bundles".toList] r.url = none := by
  have hdir : "./bundles".toList ∈ dirs := List.mem_cons_of_mem _ List.mem_cons_self
  refine ⟨_, LinkedSheet.merged "./bundles".toList, ⟨[], "../../css/i.png".toList⟩, prepareRun_disk hdir,
    mergesSheets_page hdir, ?_, by decide, rfl, by decide, rfl, rfl, by decide⟩
  exact List.mem_cons_of_mem _ (List.mem_cons_of_mem _ List.mem_cons_self)

end SiteBundle
