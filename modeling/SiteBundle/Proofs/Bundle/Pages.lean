import SiteBundle.Proofs.Bundle.Pass
import SiteBundle.Proofs.Bundle.Requests
import SiteBundle.Proofs.Bundle.Sources
import SiteBundle.Proofs.Markup.Compact

/-!
# The pages of a sound site

The passes over a page fail with an excuse, or not at all (`safely_bundleFamily`): the assets have
the code that their groups ask for, and both plans of a pass fit the text.  What follows the passes
never fails.

The modules on the disk and the module scripts in the page are the sources that a pass rolls up.
-/

namespace SiteBundle

open Site Text

variable {s : Site} {p : Page} {policy : Policy} {blame : Text → Prop}

theorem Site.Kept.sourceStands {t : Site} (h : s.Kept t) {source : Source}
    (hs : source.Stands s.tree) : source.Stands t.tree := by
  cases source with
  | file id => exact h.isFile hs
  | missing url => exact hs
  | inline => exact trivial
  | absolute url => exact trivial

/-! ## code -/

theorem results_readText {t : Tree} {id : NodeId} (disk : Disk) (h : t.isFile id = true) :
    Results (t.readText disk id) (fun _ => True) fun f => ∃ fault, f.cause = .disk fault := by
  obtain ⟨st, hst⟩ := Tree.isFile_iff.mp h
  unfold Tree.readText
  rw [hst, results_bind, results_ok]
  split
  · exact trivial
  · dsimp only
    rw [results_bind, results_during]
    cases disk.readBytes (t.place id) with
    | ok content => exact trivial
    | error fault => exact ⟨fault, rfl⟩

theorem safely_part (h : s.Sound) {a : Asset} (ha : a.source.Stands s.tree)
    (hrel : a.source.isAbsolute = false) :
    Safely blame (p.part policy a) s fun b _ => ∀ id, b.2 = some id → a.source = .file id := by
  unfold Page.part
  rw [safely_get_bind]
  cases hsource : a.source with
  | inline => exact safely_pure h nofun
  | absolute url =>
    rw [hsource] at hrel
    exact nomatch hrel
  | missing url =>
    rw [hsource] at ha
    exact ha.elim
  | file id =>
    rw [hsource] at ha
    refine safely_lift_bind h ((results_readText s.disk ha).mono (fun code _ => ?_) fun f hf => .inl hf)
    exact safely_pure h fun k hk => congrArg Source.file (Option.some.inj hk)

theorem safely_emit (h : s.Sound) {sources : List NodeId} (hsources : ∀ id ∈ sources, s.Stands id)
    (code : Text) (deferred async : Bool) :
    Safely blame (p.emit policy code sources deferred async) s fun _ _ => True := by
  unfold Page.emit
  dsimp only
  refine safely_bind (safely_inActivity (safely_prepare h _ _ _)) fun code t ht hst _ => ?_
  have hplacement : ∀ file, (if policy.inject = true then Placement.inline else .bundleDirectory) =
      .inPlace file → file < t.tree.nodes.size := by
    intro file
    split <;> exact nofun
  refine safely_bind (safely_createOrReuse ht hplacement) fun id u hu htu ⟨b, hb, hnode⟩ => ?_
  refine safely_bind (safely_addMembership hu fun k hk =>
    htu.stands (hst.stands (hsources k hk))) fun _ v hv huv hbundles => ?_
  have hbv : v.bundles[id]? = some b := hbundles ▸ hb
  rw [safely_get_bind]
  refine safely_lift_bind hv ?_
  rw [bundle_eq_ok_iff.mpr hbv, results_ok]
  by_cases hinject : policy.inject = true
  · rw [if_pos hinject]
    exact safely_pure hv trivial
  · rw [if_neg hinject]
    cases hn : b.node with
    | none => exact absurd hn (hnode (if_neg hinject))
    | some node =>
      have hlt := hv.filed b (List.mem_of_getElem? hbv) node hn
      obtain ⟨path, hpath⟩ := Tree.exists_pathBetween? hv.rooted p.file hlt
      dsimp only
      rw [hpath]
      exact safely_pure hv trivial

section
variable (hmodules : ∀ path code, readModule s.disk path = .ok code → blame code)
include hmodules

theorem safely_moduleText (h : s.Sound) {a : Asset} (ha : a.source.Stands s.tree)
    (hrel : a.source.isAbsolute = false) (hbody : a.source = .inline → blame a.element.body) :
    Safely blame (p.moduleText policy a) s fun _ _ => True := by
  unfold Page.moduleText
  cases hsource : a.source with
  | inline =>
    dsimp only
    split
    · exact safely_pure h trivial
    · refine safely_bind (safely_rollUpBody h (hbody hsource) hmodules _ _) fun g t ht _ hg => ?_
      exact safely_emit ht hg _ _ _
  | absolute url =>
    rw [hsource] at hrel
    exact nomatch hrel
  | missing url =>
    rw [hsource] at ha
    exact ha.elim
  | file id =>
    refine safely_bind (safely_rollUpModule h hmodules id) fun g t ht _ hg => ?_
    exact safely_emit ht hg _ _ _

omit hmodules in
theorem safely_mergedText (h : s.Sound) {members : List Asset}
    (hmembers : ∀ a ∈ members, a.source.Stands s.tree)
    (hrel : ∀ a ∈ members, a.source.isAbsolute = false) (deferred async : Bool) :
    Safely blame (p.mergedText policy members deferred async) s fun _ _ => True := by
  unfold Page.mergedText
  have hparts : Safely blame (members.mapM (p.part policy)) s fun parts _ =>
      ∀ b ∈ parts, ∀ id, b.2 = some id → s.tree.isFile id = true := by
    refine safely_mapM h fun a ha t ht hst => ?_
    have hstands := hmembers a ha
    refine (safely_part ht (hst.sourceStands hstands) (hrel a ha)).mono fun b u hb id hid => ?_
    rw [hb id hid] at hstands
    exact hstands
  refine safely_bind hparts fun parts t ht hst hfiles => ?_
  dsimp only
  split
  · exact safely_pure ht trivial
  · refine safely_emit ht (fun id hid => ?_) _ _ _
    obtain ⟨b, hb, hid⟩ := List.mem_filterMap.mp hid
    exact .inl (hst.isFile (hfiles b hb id hid))

theorem safely_replacement (h : s.Sound) {g : Group} (hg : g.Coded)
    (hmembers : ∀ a ∈ g.members, a.source.Stands s.tree)
    (hbody : ∀ a ∈ g.members, a.module = true → a.source = .inline → blame a.element.body) :
    Safely blame (p.replacement policy g) s fun _ _ => True := by
  unfold Page.replacement
  cases hm : g.members with
  | nil => exact absurd hm hg.members
  | cons a r =>
    have ha : a ∈ g.members := hm ▸ List.mem_cons_self
    dsimp only
    cases hk : g.kind with
    | standalone => exact safely_pure h trivial
    | module =>
      exact safely_moduleText hmodules h (hmembers a ha) (hg.relative (by rw [hk]; exact nofun) a ha)
        (hbody a ha (hg.module hk a ha))
    | merged deferred async =>
      rw [hm] at hmembers
      have hrel := hg.relative (by rw [hk]; exact nofun)
      rw [hm] at hrel
      exact safely_mergedText h hmembers hrel deferred async

/-! ## one pass -/

omit hmodules in
theorem exists_withoutMissing (p : Page) (policy : Policy) (s : Site) :
    ∃ q, Yields (p.withoutMissing policy) s q s := by
  unfold Page.withoutMissing
  have hresult := Draft.result?_plan_eq_walk (p.fits_removal policy s.tree)
  simp only [yields_get_bind, Page.missingDraft?_eq]
  by_cases hempty : (p.removal policy s.tree).isEmpty = true
  · rw [if_pos hempty]
    exact ⟨p, yields_pure.mpr ⟨rfl, rfl⟩⟩
  · rw [if_neg hempty]
    dsimp only
    rw [Page.removal, hresult]
    exact ⟨_, yields_pure.mpr ⟨rfl, rfl⟩⟩

theorem safely_withBundles (h : s.Sound) {assets : List Asset} (hscan : Scanned p.document assets)
    (hassets : ∀ a ∈ assets, a.source.Stands s.tree)
    (hbody : ∀ a ∈ assets, a.module = true → a.source = .inline → blame a.element.body) :
    Safely blame (p.withBundles policy assets) s fun q _ => ∃ text, q = p.withText text := by
  obtain ⟨segments, hs, hdealt⟩ := dealt_segments? hscan policy.position
  unfold Page.withBundles
  rw [hs]
  dsimp only
  have hmembers : ∀ m ∈ segments.map (·.members), ∀ a ∈ m, a ∈ assets := by
    intro m hm a ha
    obtain ⟨x, hx, rfl⟩ := List.mem_map.mp hm
    exact (hdealt.sublist x hx).mem ha
  have hcoded := coded_groupsOf policy.family [] (segments.map (·.members))
  refine safely_bind (safely_mapM (P := fun _ => True) h fun gs hgs t ht hst => ?_)
    fun blocks t ht hst _ => ?_
  · refine safely_bind (safely_mapM (P := fun _ => True) ht fun g hg u hu htu => ?_)
      fun texts u hu _ _ => safely_pure hu trivial
    obtain ⟨hgcoded, hgmem⟩ := hcoded gs hgs g hg
    have hsu := hst.trans htu
    have hin : ∀ a ∈ g.members, a ∈ assets := fun a ha => by
      obtain ⟨m, hm, ha⟩ := hgmem a ha
      exact hmembers m hm a ha
    rw [← hsu.disk] at hmodules
    refine safely_replacement hmodules hu hgcoded (fun a ha => ?_) fun a ha => hbody a (hin a ha)
    exact hsu.sourceStands (hassets a (hin a ha))
  · rw [replaceSegments?_eq, result?_replacing (fits_edits hscan hdealt)]
    exact safely_pure ht ⟨_, rfl⟩

omit hmodules in
theorem family_policy (o : Options) (f : Family) : (o.policy f).family = f := by
  cases f <;> rfl

/-- the code of the module scripts that a pass finds in the page -/
def Page.ModuleBody (p : Page) (f : Family) (s : Site) (code : Text) : Prop :=
  ∃ q, Yields (p.withoutMissing (p.options.policy f)) s q s ∧
    ∃ a ∈ q.assets (p.options.policy f) s.tree, a.module = true ∧ a.source = .inline ∧
      a.element.body = code

omit hmodules in
theorem not_moduleBody_style {code : Text} : ¬ p.ModuleBody .style s code := by
  rintro ⟨q, -, a, ha, hmodule, -, -⟩
  rw [Page.not_module_of_style (family_policy _ _) ha] at hmodule
  exact nomatch hmodule

/-- an element of the page that a pass leaves in place refers to the file -/
def Page.StillRefers (p : Page) (policy : Policy) (t : Tree) (id : NodeId) : Prop :=
  ∃ c ∈ p.classified policy t, c.untouchedFile? = some id ∨
    policy.bundle = false ∧ ∃ a, c.asset? = some a ∧ a.source.file? = some id

/-- so does one of the page that the pass starts from, when the missing elements are gone -/
def Page.LeavesReference (p : Page) (f : Family) (s : Site) (id : NodeId) : Prop :=
  ∃ q, Yields (p.withoutMissing (p.options.policy f)) s q s ∧
    q.StillRefers (p.options.policy f) s.tree id

omit hmodules in
theorem Page.leavesReference_iff {f : Family} {q : Page} {id : NodeId}
    (hq : Yields (p.withoutMissing (p.options.policy f)) s q s) :
    p.LeavesReference f s id ↔ q.StillRefers (p.options.policy f) s.tree id := by
  refine ⟨fun ⟨r, hr, h⟩ => ?_, fun h => ⟨q, hq, h⟩⟩
  obtain ⟨rfl, -⟩ := hq.unique hr
  exact h

/-- a loop that notes the files that sources refer to -/
theorem safely_markSources (h : s.Sound) {assets : List Asset}
    (hassets : ∀ a ∈ assets, a.source.Stands s.tree) :
    Safely blame (assets.forM fun a =>
      match a.source.file? with
      | some file => markNecessary file a.module
      | none => pure ()) s fun _ t =>
        ∀ a ∈ assets, ∀ id, a.source.file? = some id → t.tree.IsNecessary id := by
  refine safely_forM_each
    (P := fun (a : Asset) t => ∀ id, a.source.file? = some id → t.tree.IsNecessary id) h
    (fun a t u htu ht id hid => htu.isNecessary (ht id hid)) fun a ha t ht hst => ?_
  have hstands := hst.sourceStands (hassets a ha)
  rw [← hst.disk] at hmodules
  cases hsource : a.source with
  | file id =>
    rw [hsource] at hstands
    refine (safely_markNecessary ht hmodules hstands a.module).mono fun _ u hu k hk => ?_
    rwa [← Option.some.inj hk]
  | inline => exact safely_pure ht nofun
  | absolute url => exact safely_pure ht nofun
  | missing url => exact safely_pure ht nofun

/-- a pass over one family; only the text of the page changes, and what the page still refers to is
noted -/
theorem safely_bundleFamily (h : s.Sound) {f : Family}
    (hbody : ∀ code, p.ModuleBody f s code → blame code) :
    Safely blame (p.bundleFamily f) s fun q t => (∃ text, q = p.withText text) ∧
      ∀ id, p.LeavesReference f s id → t.tree.IsNecessary id := by
  obtain ⟨q, hq⟩ := exists_withoutMissing p (p.options.policy f) s
  obtain ⟨-, hqtext, -⟩ := Page.of_withoutMissing hq
  simp only [Page.leavesReference_iff hq]
  unfold Page.bundleFamily
  refine safely_bind (safely_of_yields hq h (Q := fun a t => a = q ∧ t = s) ⟨rfl, rfl⟩) ?_
  rintro r u - - ⟨hr, hu⟩
  rw [hr, hu, safely_get_bind]
  refine safely_bind (safely_forM_each (P := fun id t => t.tree.IsNecessary id) h
    (fun id t u htu ht => htu.isNecessary ht) fun id hid t ht hst => ?_) fun _ t ht hst huntouched => ?_
  · obtain ⟨c, hc, hfile⟩ := List.mem_filterMap.mp hid
    rw [← hst.disk] at hmodules
    exact safely_markNecessary ht hmodules (hst.isFile (Page.isFile_of_untouched hc hfile)) false
  rw [← hst.disk] at hmodules
  have hassets : ∀ a ∈ q.assets (p.options.policy f) s.tree, a.source.Stands t.tree :=
    fun a ha => hst.sourceStands (Page.stands_of_mem_assets ha)
  have hleft : ∀ {id}, (p.options.policy f).bundle = true →
      q.StillRefers (p.options.policy f) s.tree id → t.tree.IsNecessary id := by
    rintro id hbundle ⟨c, hc, hfile | ⟨hoff, -⟩⟩
    · exact huntouched id (List.mem_filterMap.mpr ⟨c, hc, hfile⟩)
    · rw [hbundle] at hoff
      exact nomatch hoff
  dsimp only
  cases hbundle : (p.options.policy f).bundle with
  | false =>
    refine safely_bind (safely_markSources hmodules ht hassets).kept fun _ u hu _ ⟨htu, hmarked⟩ => ?_
    refine safely_pure hu ⟨⟨_, hqtext⟩, ?_⟩
    rintro id ⟨c, hc, hfile | ⟨-, a, ha, hfile⟩⟩
    · exact htu.isNecessary (huntouched id (List.mem_filterMap.mpr ⟨c, hc, hfile⟩))
    · exact hmarked a (List.mem_filterMap.mpr ⟨c, hc, ha⟩) id hfile
  | true =>
    rw [if_neg (by decide : ¬ (!true) = true)]
    split
    · exact safely_pure ht ⟨⟨_, hqtext⟩, fun id => hleft hbundle⟩
    · refine (safely_withBundles hmodules ht (q.scanned_assets _ _) hassets fun a ha hm hs =>
        hbody _ ⟨q, hq, a, ha, hm, hs, rfl⟩).kept.mono ?_
      rintro r u ⟨htu, text, rfl⟩
      exact ⟨⟨text, by rw [hqtext]; rfl⟩, fun id hid => htu.isNecessary (hleft hbundle hid)⟩

end

theorem yields_withoutMissing {p : Page} {policy : Policy} {s : Site}
    (h : p.dropped policy s.tree = []) : Yields (p.withoutMissing policy) s p s := by
  have hempty : (p.removal policy s.tree).isEmpty = true := by
    rw [Page.removal, h]
    rfl
  unfold Page.withoutMissing
  refine yields_bind.mpr ⟨s, s, yields_get.mpr ⟨rfl, rfl⟩, ?_⟩
  rw [Page.missingDraft?_eq, if_pos hempty]
  exact yields_pure.mpr ⟨rfl, rfl⟩

/-- a document without links and styles has no stylesheets -/
theorem elements_style_of_nil {d : Document} (hlinks : d.elements .link = [])
    (hstyles : d.elements .style = []) : Family.style.elements d = [] := by
  show (d.elements .link ++ d.elements .style).mergeSort _ = []
  rw [hlinks, hstyles]
  exact List.mergeSort_nil

/-- a page without elements of the family stays as it is -/
theorem yields_bundleFamily {p : Page} {f : Family} {s : Site} (h : f.elements p.document = []) :
    Yields (p.bundleFamily f) s p s := by
  have hclassified : p.classified (p.options.policy f) s.tree = [] := by
    unfold Page.classified
    rw [family_policy, h]
    rfl
  have hdropped : p.dropped (p.options.policy f) s.tree = [] := by
    unfold Page.dropped
    rw [hclassified]
    split <;> rfl
  unfold Page.bundleFamily
  refine yields_bind.mpr ⟨p, s, yields_withoutMissing hdropped, ?_⟩
  refine yields_bind.mpr ⟨s, s, yields_get.mpr ⟨rfl, rfl⟩, ?_⟩
  dsimp only
  rw [hclassified]
  refine yields_bind.mpr ⟨⟨⟩, s, yields_pure.mpr ⟨rfl, rfl⟩, ?_⟩
  split
  · exact yields_bind.mpr ⟨⟨⟩, s, yields_pure.mpr ⟨rfl, rfl⟩, yields_pure.mpr ⟨rfl, rfl⟩⟩
  · exact yields_pure.mpr ⟨rfl, rfl⟩

/-! ## a whole document -/

theorem safely_advance (h : s.Sound) {next : Stage} (hnext : p.document.stage.rank < next.rank) :
    Safely blame (p.advance next) s fun q _ =>
      q = { p with document := { p.document with stage := next } } := by
  unfold Page.advance Document.advance?
  rw [if_neg (Nat.not_le.mpr hnext)]
  exact safely_pure h rfl

theorem exists_withPolyfill? (d : Document) (url : Text) :
    ∃ r, d.withPolyfill? url = some r ∧ ∀ d', r = some d' → d'.stage = d.stage := by
  unfold Document.withPolyfill?
  split
  · exact ⟨none, rfl, nofun⟩
  · have hfits : ∀ e ∈ [Edit.insert (d.anchorOffset ⟨.head, .start⟩) (scriptReference url)],
        e.Fits d.text := List.forall_mem_singleton.mpr (isBoundary_anchorOffset d _)
    have hresult := Draft.result?_plan_eq_walk hfits
    refine ⟨_, congrArg (Option.map _) hresult, fun d' hd => ?_⟩
    rw [← Option.some.inj hd]
    rfl

theorem safely_withPolyfill (h : s.Sound)
    (hstage : p.document.stage.rank < Stage.polyfillInserted.rank) :
    Safely blame p.withPolyfill s fun q _ =>
      q.document.stage.rank ≤ Stage.polyfillInserted.rank := by
  unfold Page.withPolyfill
  split
  · exact safely_pure h (Nat.le_of_lt hstage)
  · obtain ⟨r, hr, hd⟩ := exists_withPolyfill? p.document (p.options.get .polyfillUrl)
    rw [hr]
    cases r with
    | none => exact safely_pure h (Nat.le_of_lt hstage)
    | some d =>
      have hnext : d.stage.rank < Stage.polyfillInserted.rank := (hd d rfl).symm ▸ hstage
      exact (safely_advance h hnext).mono fun q t hq => Nat.le_of_eq (by rw [hq])

theorem safely_minified (h : s.Sound)
    (hstage : p.document.stage.rank < Stage.minified.rank) :
    Safely blame p.minified s fun q _ => q.document.stage.rank ≤ Stage.minified.rank := by
  unfold Page.minified
  split
  · exact safely_pure h (Nat.le_of_lt hstage)
  · obtain ⟨t, ht⟩ := exists_compactMarkup? p.document.text p.document.embedded
    rw [show compactMarkup? p.document.text p.document.inert = some t from ht]
    have hadvance : (p.withText t).document.stage.rank < Stage.minified.rank := hstage
    exact (safely_advance h hadvance).mono fun q t hq => Nat.le_of_eq (by rw [hq])

theorem safely_openPage (h : s.Sound) {file : NodeId} (hfile : s.tree.isFile file = true)
    (overrides : Overrides) : Safely blame (openPage file overrides) s fun p _ =>
      p.document.stage = .exclusionComputed := by
  obtain ⟨st, hst⟩ := Tree.isFile_iff.mp hfile
  unfold openPage
  rw [safely_get_bind]
  refine safely_lift_bind h ?_
  rw [hst, results_ok]
  refine safely_lift_bind h (results_during.mpr ((results_readText s.disk hfile).mono
    (fun raw _ => safely_pure h rfl) fun f hf => .inl hf))

theorem yields_openPage_of_readText {file : NodeId} {st : FileState} {raw : Text}
    (hst : s.tree.file file = .ok st) (hraw : s.tree.readText s.disk file = .ok raw)
    (overrides : Overrides) : Yields (openPage file overrides) s
      ⟨s.tree.relativePath file, file, (s.tree.parent? file).getD Tree.root,
        overrides.resolve s.options (s.tree.relativePath file),
        .ofText raw (Tree.isPhp (s.tree.extension file))⟩ s := by
  unfold openPage
  rw [yields_get_bind]
  dsimp only
  rw [yields_lift_bind hst, yields_lift_bind (congrArg (during _) hraw)]
  exact yields_pure.mpr ⟨rfl, rfl⟩

end SiteBundle
