import SiteBundle.Proofs.Bundle.Pages
import SiteBundle.Proofs.Bundle.Proper
import SiteBundle.Proofs.Style.Rebased

/-!
# Stylesheets that a page has merged

When the stylesheets of a page are bundled to files, those of one group become one sheet, written for
the bundle directory (`mergedSheet`).  The site has a bundle with it, and the bundle has a file
(`Site.HasSheet`, `hasSheet_of_processMarkup`).  A bundle is never taken out again, so it is there
however the run goes on (`Site.HasSheet.of_steps`).

* `Site.IsSheet`          the sheet that a stylesheet of a page is: a file, or what its element holds;
* `Page.MergesSheets`     a group of stylesheets that becomes one reference.

While a page is bundled nothing is written to, so its sheets stay what they are
(`Site.IsSheet.of_steps`).
-/

namespace SiteBundle

open Site Text

variable {written placed : NodeId → Prop} {s t u : Site} {p : Page} {policy : Policy}

/-! ## bundles with files -/

/-- the code is that of a stylesheet bundle with a file -/
def Site.HasSheet (s : Site) (code : Text) : Prop :=
  ∃ b ∈ s.bundles, b.provenance = .markup ∧ b.family = .style ∧ b.code = code ∧
    ∃ node, b.node = some node

theorem Site.HasSheet.of_grew {code : Text} (h : s.HasSheet code) (hst : s.Grew t) :
    t.HasSheet code := by
  obtain ⟨b, hb, hmarkup, hstyle, hcode, node, hnode⟩ := h
  obtain ⟨i, hi⟩ := List.mem_iff_getElem?.mp hb
  obtain ⟨c, hc, hkeeps⟩ := hst.bundle hi
  exact ⟨c, List.mem_of_getElem? hc, (congrArg (·.provenance) hkeeps.core).trans hmarkup,
    (congrArg (·.family) hkeeps.core).trans hstyle, (congrArg (·.code) hkeeps.core).trans hcode, node,
    hkeeps.node node hnode⟩

theorem Site.HasSheet.of_steps {code : Text} (h : s.HasSheet code) (hst : Steps written placed s t) :
    t.HasSheet code := h.of_grew hst.grew

/-- a bundle gets a file, and no other bundle changes -/
theorem ends_materialize_bundles {i : BundleId} {b : Bundle} (hb : s.bundles[i]? = some b) :
    Ends (materialize i) s (fun node t => t.bundles =
      s.bundles.set i { b with isVirtual := false, node := some node }) fun _ _ => False := by
  unfold materialize
  rw [ends_bind]
  refine (ends_bundleDirectory_steps anyNode anyNode s).mono (fun dir t ⟨_, _, hbundles⟩ => ?_)
    fun _ _ he => he
  simp only [ends_bind, ends_get, ends_lift, bundle_eq_ok_iff.mpr (hbundles ▸ hb), ends_set, ends_pure]
  rw [hbundles]

theorem ends_ensureReal_bundles {i : BundleId} {b : Bundle} (hb : s.bundles[i]? = some b) :
    Ends (ensureReal i) s (fun node t => ∃ c, t.bundles[i]? = some c ∧ b.Keeps c ∧
      c.node = some node) fun _ _ => False := by
  unfold ensureReal
  simp only [ends_bind, ends_get, ends_lift, bundle_eq_ok_iff.mpr hb]
  cases hnode : b.node with
  | some node =>
    rw [ends_pure]
    exact ⟨b, hb, .refl b, hnode⟩
  | none =>
    refine (ends_materialize_bundles hb).mono (fun node t ht => ?_) fun _ _ he => he
    have hlt := (List.getElem?_eq_some_iff.mp hb).1
    exact ⟨{ b with isVirtual := false, node := some node },
      by rw [ht, List.getElem?_set, if_pos rfl, if_pos hlt],
      ⟨rfl, fun _ hn => (by cases hnode.symm.trans hn), fun _ => rfl⟩, rfl⟩

/-- what is asked for in the bundle directory is there, with a file -/
theorem ends_createOrReuse_file {r : Request} (hs : s.Numbered) (hp : r.placement = .bundleDirectory)
    (hf : r.family = .style) :
    Ends (createOrReuse r) s (fun _ t => t.HasSheet r.code) fun _ _ => False := by
  unfold createOrReuse
  rw [ends_bind, ends_get]
  have hexisting : s.existing? r = s.findMarkup? r.family r.code := by rw [existing?, hp]
  cases hex : s.existing? r with
  | some i =>
    rw [hexisting] at hex
    obtain ⟨b, hb, hmarkup, hfamily, hcode⟩ := findMarkup?_eq_some hs hex
    dsimp only
    rw [if_pos hp, ends_bind]
    refine (ends_ensureReal_bundles hb).mono (fun node t ht => ?_) fun _ _ he => he
    obtain ⟨c, hc, hkeeps, hnode⟩ := ht
    exact ⟨c, List.mem_of_getElem? hc, (congrArg (·.provenance) hkeeps.core).trans hmarkup,
      (congrArg (·.family) hkeeps.core).trans (hfamily.trans hf),
      (congrArg (·.code) hkeeps.core).trans hcode, node, hnode⟩
  | none =>
    dsimp only
    rw [ends_bind]
    refine (ends_addBundle r s).mono (fun i t ht => ?_) fun _ _ he => he
    obtain ⟨rfl, name, -, thrown, rfl⟩ := ht
    rw [if_pos hp, ends_bind]
    have hlast : (s.bundles ++ [r.entry s.bundles.length name])[s.bundles.length]? =
        some (r.entry s.bundles.length name) := List.getElem?_concat_length
    refine (ends_materialize_bundles hlast).mono (fun node t ht => ?_) fun _ _ he => he
    have hlt := (List.getElem?_eq_some_iff.mp hlast).1
    have hentry : r.entry s.bundles.length name = ⟨s.bundles.length, name, r.family, r.code,
        r.sources, r.recipe, .markup, false, none⟩ := by
      rw [Request.entry, hp]
      rfl
    refine ⟨_, ht ▸ List.mem_set hlt _, ?_⟩
    rw [hentry]
    exact ⟨rfl, hf, rfl, node, rfl⟩

/-! ## sheets of a page -/

/-- the sheet that a stylesheet of a page in directory `dir` is -/
inductive Site.IsSheet (s : Site) (dir : NodeId) (a : Asset) : Sheet → Prop
  | inline (h : a.source = .inline) : IsSheet s dir a ⟨s.tree.relativePath dir, a.element.body⟩
  | file {id : NodeId} {code : Text} (h : a.source = .file id)
      (hcode : s.tree.readText s.disk id = .ok code) :
      IsSheet s dir a ⟨((s.tree.parent? id).map s.tree.relativePath).getD [], code⟩

section
variable {dir : NodeId} {a : Asset} {x y : Sheet} {members : List Asset} {sheets sheets' : List Sheet}

theorem Site.IsSheet.unique (h : s.IsSheet dir a x) (h' : s.IsSheet dir a y) : x = y := by
  cases h with
  | inline h =>
    cases h' with
    | inline => rfl
    | file h' => exact nomatch h.symm.trans h'
  | file h hcode =>
    cases h' with
    | inline h' => exact nomatch h.symm.trans h'
    | file h' hcode' =>
      obtain rfl := Source.file.inj (h.symm.trans h')
      rw [Except.ok.inj (hcode.symm.trans hcode')]

theorem isSheet_unique (h : List.Forall₂ (s.IsSheet dir) members sheets)
    (h' : List.Forall₂ (s.IsSheet dir) members sheets') : sheets = sheets' := by
  induction h generalizing sheets' with
  | nil =>
    cases h'
    rfl
  | cons hx _ ih =>
    cases h' with
    | cons hy hrest => rw [hx.unique hy, ih hrest]

/-- no step but writing changes what a file holds -/
theorem Site.Steps.sameContent (h : Steps (fun _ => False) placed s t) :
    s.tree.Grown FileState.SameContent t.tree := by
  refine h.keeps (I := fun u => s.tree.Grown FileState.SameContent u.tree) (fun u v huv hu => ?_)
    (.refl .refl _)
  refine hu.trans (fun _ _ _ hab hbc => ⟨hbc.1.trans hab.1, hbc.2.trans hab.2⟩) ?_
  cases huv with
  | mark hf htree _ => exact .modifyFile .refl hf htree
  | write hid _ => exact hid.elim
  | make _ _ => exact .add .refl _ _ _
  | file _ _ _ => exact .add .refl _ _ _
  | _ => exact .refl .refl _

theorem Tree.relativePath_of_grown {R : FileState → FileState → Prop} {tree tree' : Tree} {id : NodeId}
    (h : tree.Grown R tree') (hid : id < tree.nodes.size) :
    tree'.relativePath id = tree.relativePath id := by
  unfold relativePath
  rw [names_of_grown h hid]

/-- the text of a file is what it was -/
theorem readText_of_steps {id : NodeId} {code : Text} (h : Steps (fun _ => False) placed s t)
    (hcode : s.tree.readText s.disk id = .ok code) : t.tree.readText t.disk id = .ok code := by
  obtain ⟨hdisk, -, htop⟩ := h.base
  cases hst : s.tree.file id with
  | error f =>
    rw [Tree.readText, hst] at hcode
    exact nomatch hcode
  | ok st =>
    obtain ⟨name, parent, hn⟩ := Tree.file_eq_ok_iff.mp hst
    obtain ⟨st', hn', hcontent, hmade⟩ := h.sameContent.file hn
    have hst' : t.tree.file id = .ok st' := Tree.file_eq_ok_iff.mpr ⟨name, parent, hn'⟩
    have hplace : t.tree.place id = s.tree.place id := by
      rw [Tree.place, Tree.place, Tree.relativePath_of_grown h.sameContent (Tree.lt_of_node? hn), htop]
    rw [← hcode, Tree.readText, Tree.readText, hst, hst', hdisk, hplace]
    simp only [bind, Except.bind, hcontent, hmade]

theorem Site.IsSheet.of_steps (h : s.IsSheet dir a x) (hst : Steps (fun _ => False) placed s t)
    (hs : s.tree.Rooted) (hdir : dir < s.tree.nodes.size) : t.IsSheet dir a x := by
  cases h with
  | inline h =>
    rw [← Tree.relativePath_of_grown hst.sameContent hdir]
    exact .inline h
  | @file id code h hcode =>
    have hparent : ((t.tree.parent? id).map t.tree.relativePath).getD [] =
        ((s.tree.parent? id).map s.tree.relativePath).getD [] := by
      cases hst' : s.tree.file id with
      | error f =>
        rw [Tree.readText, hst'] at hcode
        exact nomatch hcode
      | ok st =>
        obtain ⟨name, parent, hn⟩ := Tree.file_eq_ok_iff.mp hst'
        obtain ⟨st', hn', -⟩ := hst.sameContent.file hn
        have hp : s.tree.parent? id = parent := by rw [Tree.parent?, hn, Option.bind_some]
        have hp' : t.tree.parent? id = parent := by rw [Tree.parent?, hn', Option.bind_some]
        rw [hp, hp']
        cases parent with
        | none => rfl
        | some k =>
          exact congrArg (fun p => (some p).getD [])
            (Tree.relativePath_of_grown hst.sameContent (hs.parent_lt hp))
    rw [← hparent]
    exact .file h (readText_of_steps hst hcode)

/-! ## merging -/

theorem yields_part (hstyle : policy.family = .style) {part : Text × Option NodeId}
    (hw : Yields (p.part policy a) s part t) : t = s ∧ ∃ x, s.IsSheet p.dir a x ∧
      part.1 = rebaseReferences x.code x.dir (p.sheetDirectory policy s) := by
  have hrelocated : ∀ dir code, p.relocated policy s dir code =
      rebaseReferences code dir (p.sheetDirectory policy s) := by
    intro dir code
    rw [Page.relocated, hstyle]
  unfold Page.part at hw
  rw [yields_get_bind] at hw
  split at hw
  · rename_i hsource
    obtain ⟨rfl, rfl⟩ := yields_pure.mp hw
    exact ⟨rfl, _, .inline hsource, hrelocated _ _⟩
  · rename_i id hsource
    obtain ⟨code, u, hread, hw⟩ := yields_bind.mp hw
    obtain ⟨hcode, rfl⟩ := yields_lift.mp hread
    obtain ⟨rfl, rfl⟩ := yields_pure.mp hw
    exact ⟨rfl, _, .file hsource hcode, hrelocated _ _⟩
  · exact absurd hw not_yields_throw

theorem yields_parts (hstyle : policy.family = .style) {parts : List (Text × Option NodeId)}
    (hw : Yields (members.mapM (p.part policy)) s parts t) : t = s ∧ ∃ sheets,
      List.Forall₂ (s.IsSheet p.dir) members sheets ∧ parts.map (·.1) = sheets.map fun x =>
        rebaseReferences x.code x.dir (p.sheetDirectory policy s) := by
  induction members generalizing parts with
  | nil =>
    rw [List.mapM_nil] at hw
    obtain ⟨rfl, rfl⟩ := yields_pure.mp hw
    exact ⟨rfl, [], .nil, rfl⟩
  | cons a members ih =>
    rw [List.mapM_cons] at hw
    obtain ⟨part, u, hpart, hw⟩ := yields_bind.mp hw
    obtain ⟨rest, v, hrest, hw⟩ := yields_bind.mp hw
    obtain ⟨rfl, rfl⟩ := yields_pure.mp hw
    obtain ⟨rfl, x, hx, hcode⟩ := yields_part hstyle hpart
    obtain ⟨rfl, sheets, hsheets, hcodes⟩ := ih hrest
    exact ⟨rfl, x :: sheets, .cons hx hsheets, by rw [List.map_cons, List.map_cons, hcode, hcodes]⟩

/-- code that no transform changes is put into a bundle with a file -/
theorem hasSheet_of_emit {code text : Text} {sources : List NodeId} {deferred async : Bool}
    (hs : s.Numbered) (hstyle : policy.family = .style) (hinject : policy.inject = false)
    (hplain : (p.options.recipe .style false).transforms .style = [])
    (hw : Yields (p.emit policy code sources deferred async) s text t) : t.HasSheet code := by
  unfold Page.emit at hw
  simp only [hstyle, hinject, Bool.false_and, Bool.false_eq_true, if_false] at hw
  obtain ⟨code', u, hprepare, hrest⟩ := yields_bind.mp hw
  obtain ⟨rfl, hu⟩ : code' = code ∧ u.Numbered := by
    have hprepare := yields_inActivity.mp hprepare
    unfold prepare at hprepare
    rw [hplain] at hprepare
    obtain ⟨_, v, hnote, hprepare⟩ := yields_bind.mp hprepare
    obtain ⟨hcode, rfl⟩ := yields_pure.mp hprepare
    have hnoted : Steps anyNode anyNode s v := (stepwise_note _).of_yields hnote
    exact ⟨hcode.symm, hnoted.numbered hs⟩
  obtain ⟨i, v, hcreate, hrest⟩ := yields_bind.mp hrest
  have hsheet : v.HasSheet code' :=
    (ends_createOrReuse_file (r := ⟨.style, sources, code', _, .bundleDirectory⟩) hu rfl rfl).of_yields
      hcreate
  have hbehind : Steps anyNode anyNode v t := by
    refine Stepwise.of_yields (stepwise_bind (stepwise_addMembership _ _) fun _ =>
      stepwise_get_bind fun s => stepwise_bind (stepwise_lift _) fun b => ?_) hrest
    split
    · exact stepwise_throw _
    · split
      · exact stepwise_pure _
      · exact stepwise_throw _
  exact hsheet.of_steps hbehind

/-- merged stylesheets are blank, or the code of a bundle with a file -/
theorem hasSheet_of_replacement {text : Text} {deferred async : Bool} (hs : s.Numbered)
    (hstyle : policy.family = .style) (hinject : policy.inject = false)
    (hplain : (p.options.recipe .style false).transforms .style = [])
    (hsheets : List.Forall₂ (s.IsSheet p.dir) members sheets)
    (hw : Yields (p.replacement policy ⟨.merged deferred async, members⟩) s text t) :
    allBlank (mergedSheet (trimSlashes (s.options.get .bundleDirectory)) sheets) = true ∨
      t.HasSheet (mergedSheet (trimSlashes (s.options.get .bundleDirectory)) sheets) := by
  unfold Page.replacement at hw
  split at hw
  · exact absurd hw not_yields_throw
  · unfold Page.mergedText at hw
    dsimp only at hw
    obtain ⟨parts, u, hparts, hrest⟩ := yields_bind.mp hw
    obtain ⟨rfl, sheets', hsheets', hcodes⟩ := yields_parts hstyle hparts
    obtain rfl := isSheet_unique hsheets hsheets'
    have hdirectory : p.sheetDirectory policy u = trimSlashes (u.options.get .bundleDirectory) := by
      rw [Page.sheetDirectory, hinject]
      rfl
    rw [hcodes, hdirectory] at hrest
    rw [← mergedSheet] at hrest
    split at hrest
    · rename_i hblank
      exact .inl hblank
    · exact .inr (hasSheet_of_emit hs hstyle hinject hplain hrest)

/-! ## pages -/

/-- the members are stylesheets of the page that become one reference to a file -/
def Page.MergesSheets (p : Page) (s : Site) (members : List Asset) : Prop :=
  (p.options.policy .style).bundle = true ∧ (p.options.policy .style).inject = false ∧
    ∃ q segments gs deferred async, Yields (p.withoutMissing (p.options.policy .style)) s q s ∧
      segments? q.document (p.options.policy .style).position
        (q.assets (p.options.policy .style) s.tree) = some segments ∧
      gs ∈ Family.style.groupsOf [] (segments.map (·.members)) ∧
      ⟨.merged deferred async, members⟩ ∈ gs

/-- sheets that were read on the site `s` are merged on the site `u` -/
theorem hasSheet_of_withBundles {p' : Page} {assets : List Asset} {segments : List Segment}
    {gs : List Group} {deferred async : Bool} (hs : s.Numbered) (htree : s.tree.Rooted)
    (hdir : p.dir < s.tree.nodes.size) (hstyle : policy.family = .style)
    (hinject : policy.inject = false) (hplain : (p.options.recipe .style false).transforms .style = [])
    (hsegments : segments? p.document policy.position assets = some segments)
    (hgs : gs ∈ policy.family.groupsOf [] (segments.map (·.members)))
    (hgroup : ⟨.merged deferred async, members⟩ ∈ gs)
    (hsheets : List.Forall₂ (s.IsSheet p.dir) members sheets)
    (hsu : Steps (fun _ => False) anyNode s u) (hw : Yields (p.withBundles policy assets) u p' t) :
    allBlank (mergedSheet (trimSlashes (s.options.get .bundleDirectory)) sheets) = true ∨
      t.HasSheet (mergedSheet (trimSlashes (s.options.get .bundleDirectory)) sheets) := by
  unfold Page.withBundles at hw
  simp only [hsegments] at hw
  obtain ⟨blocks, v, hblocks, hrest⟩ := yields_bind.mp hw
  obtain rfl : t = v := by
    split at hrest
    · exact (yields_pure.mp hrest).2.symm
    · exact absurd hrest not_yields_throw
  have hgroups : ∀ g ∈ gs, Stepwise (fun _ => False) anyNode (p.replacement policy g) :=
    fun g _ => stepwise_replacement p policy g
  have hlists : ∀ gs ∈ policy.family.groupsOf [] (segments.map (·.members)),
      Stepwise (fun _ => False) anyNode (do return (← gs.mapM (p.replacement policy)).flatten) :=
    fun gs _ => stepwise_bind (stepwise_mapM fun g _ => stepwise_replacement p policy g) fun _ =>
      stepwise_pure _
  obtain ⟨x, block, y', hux, hlist, hyt⟩ := yields_mapM_of_mem hgs hlists hblocks
  obtain ⟨texts, y, htexts, hflat⟩ := yields_bind.mp hlist
  obtain ⟨-, rfl⟩ := yields_pure.mp hflat
  obtain ⟨v, text, v', hxv, hrun, hvy⟩ := yields_mapM_of_mem hgroup hgroups htexts
  -- when the members are merged, they are the sheets that they were
  have hsv := (hsu.trans hux).trans hxv
  have hsame : List.Forall₂ (v.IsSheet p.dir) members sheets :=
    hsheets.imp fun _ _ hx => hx.of_steps hsv htree hdir
  have hmade := hasSheet_of_replacement (hsv.numbered hs) hstyle hinject hplain hsame hrun
  rw [hsv.base.2.1] at hmade
  exact hmade.imp_right fun hsheet => (hsheet.of_steps hvy).of_steps hyt

/-- the directory of an open page is a node -/
theorem dir_lt_of_openPage {file : NodeId} {overrides : Overrides} (htree : s.tree.Rooted)
    (hopen : Yields (openPage file overrides) s p s) : p.dir < s.tree.nodes.size := by
  unfold openPage at hopen
  rw [yields_get_bind] at hopen
  obtain ⟨st, u, hfile, hopen⟩ := yields_bind.mp hopen
  obtain ⟨raw, v, hread, hopen⟩ := yields_bind.mp hopen
  obtain ⟨rfl, -⟩ := yields_pure.mp hopen
  show (s.tree.parent? file).getD Tree.root < s.tree.nodes.size
  cases hp : s.tree.parent? file with
  | none => exact htree.root_lt
  | some k => exact htree.parent_lt hp

theorem hasSheet_of_bundleFamily {p' : Page} (hs : s.Numbered) (htree : s.tree.Rooted)
    (hdir : p.dir < s.tree.nodes.size) (hmerges : p.MergesSheets s members)
    (hplain : (p.options.recipe .style false).transforms .style = [])
    (hsheets : List.Forall₂ (s.IsSheet p.dir) members sheets)
    (hw : Yields (p.bundleFamily .style) s p' t) :
    allBlank (mergedSheet (trimSlashes (s.options.get .bundleDirectory)) sheets) = true ∨
      t.HasSheet (mergedSheet (trimSlashes (s.options.get .bundleDirectory)) sheets) := by
  obtain ⟨hbundle, hinject, q, segments, gs, deferred, async, hwithout, hsegments, hgs, hgroup⟩ :=
    hmerges
  obtain ⟨-, hq, -⟩ := Page.of_withoutMissing hwithout
  unfold Page.bundleFamily at hw
  obtain ⟨q', _, hwithout', hw⟩ := yields_bind.mp hw
  obtain ⟨rfl, rfl⟩ := hwithout.unique hwithout'
  rw [yields_get_bind] at hw
  obtain ⟨_, u, hmarks, hw⟩ := yields_bind.mp hw
  have hsu : Steps (fun _ => False) anyNode s u :=
    (stepwise_forM fun file _ => stepwise_markNecessary file false).of_yields hmarks
  have hqdir : q.dir = p.dir := congrArg (·.dir) hq
  have hqoptions : q.options = p.options := congrArg (·.options) hq
  rw [hbundle] at hw
  replace hw : Yields (if (q.assets (p.options.policy .style) s.tree).isEmpty = true then pure q
    else q.withBundles (p.options.policy .style) (q.assets (p.options.policy .style) s.tree)) u p' t := hw
  split at hw
  · -- without assets there are no groups
    rename_i hempty
    rw [List.isEmpty_iff.mp hempty, segments?_nil] at hsegments
    cases hsegments
    exact absurd hgs List.not_mem_nil
  · exact hasSheet_of_withBundles hs htree (hqdir ▸ hdir) rfl hinject (hqoptions ▸ hplain) hsegments hgs
      hgroup (hqdir ▸ hsheets) hsu hw

/-- **A group of stylesheets that a page merges is the code of a bundle with a file, or blank.** -/
theorem hasSheet_of_processMarkup {file : NodeId} {overrides : Overrides} (hs : s.Numbered)
    (htree : s.tree.Rooted) (hopen : Yields (openPage file overrides) s p s)
    (hmerges : p.MergesSheets s members)
    (hplain : (p.options.recipe .style false).transforms .style = [])
    (hsheets : List.Forall₂ (s.IsSheet p.dir) members sheets)
    (hw : Yields (processMarkup file overrides) s ⟨⟩ t) :
    allBlank (mergedSheet (trimSlashes (s.options.get .bundleDirectory)) sheets) = true ∨
      t.HasSheet (mergedSheet (trimSlashes (s.options.get .bundleDirectory)) sheets) := by
  have hdir : p.dir < s.tree.nodes.size := dir_lt_of_openPage htree hopen
  unfold processMarkup at hw
  obtain ⟨p', _, hopen', hw⟩ := yields_bind.mp hw
  obtain ⟨rfl, rfl⟩ := hopen.unique hopen'
  obtain ⟨q, v, hbundled, hrest⟩ := yields_bind.mp hw
  unfold Page.bundled at hbundled
  obtain ⟨p₁, u, hstyles, hadvanced⟩ := yields_bind.mp hbundled
  refine (hasSheet_of_bundleFamily hs htree hdir hmerges hplain hsheets
    (yields_inActivity.mp hstyles)).imp_right fun hsheet => ?_
  have huv : Steps anyNode anyNode u v := by
    refine Stepwise.of_yields (stepwise_bind (stepwise_advance p₁ _) fun p₂ => ?_) hadvanced
    exact stepwise_bind (stepwise_inActivity (stepwise_bundleFamily p₂ _) _) fun p₃ =>
      stepwise_advance p₃ _
  have hvt : Steps anyNode anyNode v t := by
    refine Stepwise.of_yields (stepwise_bind (stepwise_withPolyfill q) fun q₁ =>
      stepwise_bind (stepwise_minified q₁) fun q₂ => stepwise_bind (stepwise_advance q₂ _) fun q₃ => ?_)
      hrest
    exact (stepwise_setContent file _).mono (fun _ _ => trivial) fun _ h => h
  exact (hsheet.of_steps huv).of_steps hvt

end
end SiteBundle
