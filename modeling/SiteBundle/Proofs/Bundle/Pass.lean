import SiteBundle.Proofs.Bundle.Classified
import SiteBundle.Proofs.Bundle.Replacing
import SiteBundle.Proofs.Bundle.Work

/-!
# A pass over one family

A pass that succeeds is two plans, one behind the other: the first drops the elements whose files are
missing, the second replaces the assets that are then found (`Pass`, `pass_of_bundleFamily`).  The
work on the site in between decides what stands in the blocks and nothing else.

`bundleFamily_spliced` says what the second plan makes of the text: nothing outside the assets is
lost but layout on lines of their own, and each block stands where its segment says.
-/

namespace SiteBundle

open Text

/-! ## the first plan -/

namespace Page
variable {p q : Page} {policy : Policy} {s s' : Site}

/-- the plan that drops the elements whose files are missing -/
def removal (p : Page) (policy : Policy) (t : Tree) : Draft :=
  .plan p.document.text ((p.dropped policy t).map fun e => (e.bounds p.document.text true).cut)

theorem removes_removal (p : Page) (policy : Policy) (t : Tree) :
    Removes p.document.text (p.dropped policy t) (Draft.covered (p.removal policy t).cuts) := by
  refine Draft.removes_plan (fun e he => stands_of_mem_dropped he) ?_ ?_
  · intro e he
    exact ⟨true, List.mem_map_of_mem he⟩
  · intro start length hc
    obtain ⟨e, he, h⟩ := List.mem_map.mp hc
    exact ⟨e, he, true, h⟩

theorem fits_removal (p : Page) (policy : Policy) (t : Tree) :
    ∀ e ∈ (p.dropped policy t).map fun e => (e.bounds p.document.text true).cut,
      e.Fits p.document.text := by
  intro c hc
  obtain ⟨e, he, rfl⟩ := List.mem_map.mp hc
  exact Draft.fits_cut (stands_of_mem_dropped he) true

theorem missingDraft?_eq (p : Page) (policy : Policy) (t : Tree) : p.missingDraft? policy t =
    if (p.removal policy t).isEmpty then none else some (p.removal policy t) := by
  unfold missingDraft? removal dropped
  cases policy.missingAction with
  | keep => rfl
  | remove =>
    rw [Draft.plan, List.foldl_map]
    show (if (Draft.isEmpty (List.foldl _ _ (List.map _ _))) = true then _ else _) = _
    rw [List.foldl_map]
    rfl

/-- dropping elements changes the text as planned, and nothing else -/
theorem of_withoutMissing (h : Yields (p.withoutMissing policy) s q s') :
    s = s' ∧ q = p.withText q.document.text ∧
      (p.removal policy s.tree).result? = some q.document.text := by
  unfold withoutMissing at h
  obtain ⟨_, _, hget, hrest⟩ := yields_bind.mp h
  obtain ⟨rfl, rfl⟩ := yields_get.mp hget
  rw [missingDraft?_eq] at hrest
  by_cases hempty : (p.removal policy s.tree).isEmpty = true
  · rw [if_pos hempty] at hrest
    obtain ⟨rfl, rfl⟩ := yields_pure.mp hrest
    refine ⟨rfl, rfl, (Draft.result?_of_isEmpty hempty).trans ?_⟩
    exact congrArg some (Draft.base_plan _ _)
  · rw [if_neg hempty] at hrest
    cases hr : (p.removal policy s.tree).result? with
    | none =>
      simp only [hr] at hrest
      exact absurd hrest not_yields_throw
    | some t =>
      simp only [hr] at hrest
      obtain ⟨rfl, rfl⟩ := yields_pure.mp hrest
      exact ⟨rfl, rfl, rfl⟩

/-! ## the second plan -/

theorem length_groupsOf (f : Family) (seen : List NodeId) (members : List (List Asset)) :
    (f.groupsOf seen members).length = members.length := by
  induction members generalizing seen with
  | nil => rfl
  | cons m members ih => exact congrArg (· + 1) (ih _)

/-- each block is what its groups become -/
def Blocks (p : Page) (policy : Policy) (segments : List Segment) (blocks : List Text) : Prop :=
  blocks.length = segments.length ∧
    ∀ x ∈ (policy.family.groupsOf [] (segments.map (·.members))).zip blocks, ∃ t t' texts,
      Yields (x.1.mapM (p.replacement policy)) t texts t' ∧ x.2 = texts.flatten

theorem of_withBundles {assets : List Asset} (h : Yields (p.withBundles policy assets) s q s') :
    ∃ segments blocks, segments? p.document policy.position assets = some segments ∧
      p.Blocks policy segments blocks ∧ q = p.withText q.document.text ∧
      (replacing p.document.text (segments.zip blocks)).result? = some q.document.text := by
  unfold withBundles at h
  cases hs : segments? p.document policy.position assets with
  | none =>
    simp only [hs] at h
    exact absurd h not_yields_throw
  | some segments =>
    simp only [hs] at h
    obtain ⟨blocks, t, hblocks, h⟩ := yields_bind.mp h
    obtain ⟨hlen, hmade⟩ := results_of_mapM hblocks
    rw [length_groupsOf, List.length_map] at hlen
    refine ⟨segments, blocks, rfl, ⟨hlen, fun x hx => ?_⟩, ?_⟩
    · obtain ⟨t, t', hx⟩ := hmade x hx
      obtain ⟨texts, t'', htexts, hx⟩ := yields_bind.mp hx
      exact ⟨t, t'', texts, htexts, (yields_pure.mp hx).1.symm⟩
    · rw [replaceSegments?_eq] at h
      cases hr : (replacing p.document.text (segments.zip blocks)).result? with
      | none =>
        simp only [hr] at h
        exact absurd h not_yields_throw
      | some u =>
        simp only [hr] at h
        obtain ⟨rfl, rfl⟩ := yields_pure.mp h
        exact ⟨rfl, rfl⟩

def replacedAssets (p : Page) (policy : Policy) (t : Tree) : List Asset :=
  if policy.bundle then p.assets policy t else []

theorem scanned_replacedAssets (p : Page) (policy : Policy) (t : Tree) :
    Scanned p.document (p.replacedAssets policy t) := by
  unfold replacedAssets
  split
  · exact scanned_assets p policy t
  · exact ⟨nofun, .nil, .nil⟩

end Page

/-! ## both plans -/

/-- a pass from page `p` to page `p'` on the site `s`: without the elements whose files are missing
the page is `q`, and its segments are replaced by blocks -/
structure Pass (policy : Policy) (s : Site) (p q p' : Page) (segments : List Segment)
    (blocks : List Text) : Prop where
  without : Yields (p.withoutMissing policy) s q s
  without_eq : q = p.withText q.document.text
  removal : (p.removal policy s.tree).result? = some q.document.text
  segments_eq :
    segments? q.document policy.position (q.replacedAssets policy s.tree) = some segments
  made : q.Blocks policy segments blocks
  result_eq : p' = q.withText p'.document.text
  result : (replacing q.document.text (segments.zip blocks)).result? = some p'.document.text

section
variable {p p' : Page} {f : Family} {s s' : Site}

theorem segments?_nil (d : Document) (position : Position) : segments? d position [] = some [] := by
  cases position with
  | inPlace => rfl
  | anchored anchor =>
    show some (anchoredSegments d anchor []) = some []
    rw [anchoredSegments_eq]
    simp [gatheredSegments]

theorem pass_of_nil {policy : Policy} {q : Page} (h1 : Yields (p.withoutMissing policy) s q s)
    (h2 : q.replacedAssets policy s.tree = []) : Pass policy s p q q [] [] where
  without := h1
  without_eq := (Page.of_withoutMissing h1).2.1
  removal := (Page.of_withoutMissing h1).2.2
  segments_eq := h2 ▸ segments?_nil _ _
  made := ⟨rfl, nofun⟩
  result_eq := rfl
  result := Draft.result?_of_isEmpty rfl

theorem pass_of_bundleFamily (h : Yields (p.bundleFamily f) s p' s') :
    ∃ q segments blocks, Pass (p.options.policy f) s p q p' segments blocks := by
  unfold Page.bundleFamily at h
  obtain ⟨q, _, hq, h1⟩ := yields_bind.mp h
  obtain ⟨rfl, heq, hrem⟩ := Page.of_withoutMissing hq
  obtain ⟨_, _, hget, h2⟩ := yields_bind.mp h1
  obtain ⟨rfl, rfl⟩ := yields_get.mp hget
  -- what is noted as necessary changes the site, not the page
  obtain ⟨_, t, _, h3⟩ := yields_bind.mp h2
  cases hb : (p.options.policy f).bundle with
  | false =>
    rw [hb] at h3
    obtain ⟨_, _, _, h4⟩ := yields_bind.mp h3
    obtain ⟨rfl, _⟩ := yields_pure.mp h4
    refine ⟨q, [], [], pass_of_nil hq ?_⟩
    rw [Page.replacedAssets, hb]
    rfl
  | true =>
    rw [hb] at h3
    have hassets : q.replacedAssets (p.options.policy f) s.tree =
        q.assets (p.options.policy f) s.tree := if_pos hb
    replace h3 : Yields (if (q.assets (p.options.policy f) s.tree).isEmpty = true then pure q
      else q.withBundles (p.options.policy f) (q.assets (p.options.policy f) s.tree)) t p' s' := h3
    by_cases hempty : (q.assets (p.options.policy f) s.tree).isEmpty = true
    · rw [if_pos hempty] at h3
      obtain ⟨rfl, _⟩ := yields_pure.mp h3
      exact ⟨q, [], [], pass_of_nil hq (hassets.trans (List.isEmpty_iff.mp hempty))⟩
    · rw [if_neg hempty] at h3
      obtain ⟨segments, blocks, hs, hblocks, hp', hres⟩ := Page.of_withBundles h3
      exact ⟨q, segments, blocks, hq, heq, hrem, hassets ▸ hs, hblocks, hp', hres⟩

theorem Pass.dealt {policy : Policy} {q : Page} {segments : List Segment} {blocks : List Text}
    (h : Pass policy s p q p' segments blocks) :
    Dealt q.document policy.position (q.replacedAssets policy s.tree) segments := by
  obtain ⟨segments', hs, hdealt⟩ :=
    dealt_segments? (q.scanned_replacedAssets policy s.tree) policy.position
  rw [h.segments_eq] at hs
  cases hs
  exact hdealt

/-- a pass fails only when its parts fail: both plans always give a text -/
theorem bundleFamily_of_parts {q : Page} {t : Site} (segments : List Segment) (blocks : List Text)
    (hb : (p.options.policy f).bundle = true)
    (hq : Yields (p.withoutMissing (p.options.policy f)) s q s)
    (hmarks : Yields (((q.classified (p.options.policy f) s.tree).filterMap
      (·.untouchedFile?)).forM fun file => Site.markNecessary file false) s () t)
    (hs : segments? q.document (p.options.policy f).position
      (q.assets (p.options.policy f) s.tree) = some segments)
    (hblocks : Yields (((p.options.policy f).family.groupsOf [] (segments.map (·.members))).mapM
      fun gs => do return (← gs.mapM (q.replacement (p.options.policy f))).flatten) t blocks s') :
    Yields (p.bundleFamily f) s (q.withText
      ((replacedScraps q.document.text (segments.zip blocks)).flatMap (Scrap.text (·.2)))) s' := by
  have hscan := q.scanned_assets (p.options.policy f) s.tree
  obtain ⟨segments', hs', hdealt⟩ := dealt_segments? hscan (p.options.policy f).position
  rw [hs] at hs'
  cases hs'
  have hres := result?_replacing (@fits_edits _ _ _ _ blocks hscan hdealt)
  have hrest : Yields (if (q.assets (p.options.policy f) s.tree).isEmpty = true then pure q
      else q.withBundles (p.options.policy f) (q.assets (p.options.policy f) s.tree)) t (q.withText
        ((replacedScraps q.document.text (segments.zip blocks)).flatMap (Scrap.text (·.2)))) s' := by
    by_cases hempty : (q.assets (p.options.policy f) s.tree).isEmpty = true
    · rw [if_pos hempty]
      rw [List.isEmpty_iff.mp hempty, segments?_nil] at hs
      cases hs
      obtain ⟨hnil, hstate⟩ := yields_pure.mp hblocks
      subst hnil hstate
      have hsame : (replacing q.document.text []).result? = some q.document.text :=
        Draft.result?_of_isEmpty rfl
      rw [List.zip_nil_left, hsame] at hres
      rw [List.zip_nil_left, ← Option.some.inj hres]
      exact yields_pure.mpr ⟨rfl, rfl⟩
    · rw [if_neg hempty]
      unfold Page.withBundles
      simp only [hs]
      refine yields_bind.mpr ⟨blocks, s', hblocks, ?_⟩
      rw [replaceSegments?_eq, hres]
      exact yields_pure.mpr ⟨rfl, rfl⟩
  unfold Page.bundleFamily
  refine yields_bind.mpr ⟨q, s, hq, yields_bind.mpr ⟨s, s, yields_get.mpr ⟨rfl, rfl⟩,
    yields_bind.mpr ⟨(), t, hmarks, ?_⟩⟩⟩
  rw [hb]
  exact hrest

/-- code that goes into a file is replaced by an element that refers to it -/
theorem yields_emit {policy : Policy} {t u v : Site} {code code' path : Text} {sources : List NodeId}
    {id : BundleId} {b : Bundle} {node : NodeId} (deferred async : Bool)
    (hinject : policy.inject = false)
    (hprepare : Yields (Site.prepare (p.options.recipe policy.family false) policy.family code) s
      code' t)
    (hcreate : Yields (Site.createOrReuse ⟨policy.family, sources, code',
      p.options.recipe policy.family false, .bundleDirectory⟩) t id u)
    (hmember : Yields (Site.addMembership id sources) u ⟨⟩ v) (hb : v.bundle id = .ok b)
    (hnode : b.node = some node) (hpath : v.tree.pathBetween? p.file node = some path) :
    Yields (p.emit policy code sources deferred async) s
      (policy.family.referenceText path deferred async) v := by
  unfold Page.emit
  rw [hinject]
  refine yields_bind.mpr ⟨_, _, hprepare.inActivity _, yields_bind.mpr ⟨_, _, hcreate,
    yields_bind.mpr ⟨_, _, hmember, ?_⟩⟩⟩
  rw [yields_get_bind, yields_lift_bind hb, if_neg Bool.false_ne_true, hnode]
  dsimp only
  rw [hpath]
  exact yields_pure.mpr ⟨rfl, rfl⟩

/-- a page with one asset, which goes to an anchor: its element is cut out, and a block takes its place
there -/
theorem bundleFamily_of_single {a : Asset} {g : Group} {anchor : Anchor} {n : Nat} {cut : Nat × Nat}
    {block text : Text} (hb : (p.options.policy f).bundle = true)
    (hmissing : Yields (p.withoutMissing (p.options.policy f)) s p s)
    (hmarks : (p.classified (p.options.policy f) s.tree).filterMap (·.untouchedFile?) = [])
    (hassets : p.assets (p.options.policy f) s.tree = [a]) (hasync : a.async = false)
    (hposition : (p.options.policy f).position = .anchored anchor)
    (hanchor : p.document.anchorOffset anchor = n)
    (hgroups : (p.options.policy f).family.groupsOf [] [[a]] = [[g]])
    (hblock : Yields (p.replacement (p.options.policy f) g) s block s')
    (hcuts : (replacing p.document.text [(⟨[a], n, false⟩, block)]).cuts = [cut])
    (htext : (Draft.scrapsFrom [cut] [(Draft.effectivePlace [cut] n, (⟨[a], n, false⟩, block))] 0
      p.document.text).flatMap (Scrap.text fun r : Segment × Text => r.2) = text) :
    Yields (p.bundleFamily f) s (p.withText text) s' := by
  have hsegments : segments? p.document (p.options.policy f).position [a] =
      some [⟨[a], n, false⟩] := by
    rw [hposition, ← hanchor]
    exact congrArg some (anchoredSegments_singleton _ _ hasync)
  have hscraps : (replacedScraps p.document.text [(⟨[a], n, false⟩, block)]).flatMap
      (Scrap.text (·.2)) = text := by
    rw [← htext]
    unfold replacedScraps placedBlocks blockPlace
    rw [List.map_singleton, Draft.mergedCuts_of_sorted hcuts (List.pairwise_singleton _ _), hcuts]
    rfl
  rw [← hscraps]
  refine bundleFamily_of_parts (t := s) [⟨[a], n, false⟩] [block] hb hmissing ?_ ?_ ?_
  · rw [hmarks]
    rfl
  · rw [hassets]
    exact hsegments
  · show Yields (((p.options.policy f).family.groupsOf [] [[a]]).mapM _) s [block] s'
    rw [hgroups]
    refine yields_bind.mpr ⟨block, s', ?_, rfl⟩
    refine yields_bind.mpr ⟨[block], s', ?_, yields_pure.mpr ⟨List.flatten_singleton, rfl⟩⟩
    exact yields_bind.mpr ⟨block, s', hblock, rfl⟩

/-- **A pass loses and moves nothing outside the assets that it bundles**, but layout on lines that
hold nothing but one of them. -/
theorem bundleFamily_spliced (hb : (p.options.policy f).bundle = true)
    (h : Yields (p.bundleFamily f) s p' s') :
    ∃ q segments blocks scraps removed,
      Yields (p.withoutMissing (p.options.policy f)) s q s ∧
      segments? q.document (p.options.policy f).position
        (q.assets (p.options.policy f) s.tree) = some segments ∧
      q.Blocks (p.options.policy f) segments blocks ∧
      p'.document.text = scraps.flatMap (Scrap.text (·.2)) ∧
      Spliced q.document.text (q.assets (p.options.policy f) s.tree) (segments.zip blocks) scraps
        removed := by
  obtain ⟨q, segments, blocks, hpass⟩ := pass_of_bundleFamily h
  have hassets : q.replacedAssets (p.options.policy f) s.tree =
      q.assets (p.options.policy f) s.tree := if_pos hb
  have hscan := q.scanned_replacedAssets (p.options.policy f) s.tree
  have hres := hpass.result
  rw [result?_replacing (fits_edits hscan hpass.dealt)] at hres
  refine ⟨q, segments, blocks, replacedScraps q.document.text (segments.zip blocks),
    Draft.covered (replacing q.document.text (segments.zip blocks)).cuts, hpass.without, hassets ▸ hpass.segments_eq, hpass.made,
    (Option.some.inj hres).symm, ?_⟩
  rw [← hassets]
  exact spliced_replacing hscan hpass.dealt hpass.made.1

end

/-! ## a page with a template -/

def Site.bare : Site := .ofTree .defaults ⟨[], []⟩ (.empty []) fun _ => 0

/-- a page with a script that is a template and holds the end of a body, and another script -/
def Page.withTemplate : Page :=
  ⟨"index.html".toList, 1, Tree.root, .defaults, .ofText
    "<script type=\"text/template\"></body></script><script src=\"//a/x.js\"></script>".toList
    false⟩

def linkedScript : Asset :=
  ⟨⟨.script, 45, ⟨"<script src=\"//a/x.js\">".toList, [], "</script>".toList⟩⟩,
    .absolute "//a/x.js".toList, false, false, false⟩

/-- it goes to the end of the body that the template holds -/
theorem bundleFamily_withTemplate :
    ∃ p', Yields (Page.withTemplate.bundleFamily .script) .bare p' .bare ∧ p'.document.text =
      "<script type=\"text/template\"><script src=\"//a/x.js\"></script></body></script>".toList := by
  -- lists of characters are evaluated faster than literals
  have hassets : Page.withTemplate.assets (Page.withTemplate.options.policy .script)
      Site.bare.tree = [linkedScript] := by
    unfold Page.withTemplate linkedScript
    repeat rw [String.toList_ofList]
    rfl
  have hmarks : (Page.withTemplate.classified (Page.withTemplate.options.policy .script)
      Site.bare.tree).filterMap (·.untouchedFile?) = [] := by
    unfold Page.withTemplate
    repeat rw [String.toList_ofList]
    rfl
  have hanchor : Page.withTemplate.document.anchorOffset ⟨.body, .stop⟩ = 29 := by
    unfold Page.withTemplate
    repeat rw [String.toList_ofList]
    rfl
  have hcuts : (replacing Page.withTemplate.document.text
      [(⟨[linkedScript], 29, false⟩, linkedScript.element.text)]).cuts = [(45, 77)] := by
    unfold Page.withTemplate linkedScript
    repeat rw [String.toList_ofList]
    rfl
  have htext : (Draft.scrapsFrom [(45, 77)] [(Draft.effectivePlace [(45, 77)] 29,
      ((⟨[linkedScript], 29, false⟩ : Segment), linkedScript.element.text))] 0
      Page.withTemplate.document.text).flatMap (Scrap.text fun r => r.2) =
        "<script type=\"text/template\"><script src=\"//a/x.js\"></script></body></script>".toList := by
    unfold Page.withTemplate linkedScript
    repeat rw [String.toList_ofList]
    decide +kernel
  exact ⟨_, bundleFamily_of_single rfl rfl hmarks hassets rfl rfl hanchor rfl rfl hcuts htext, rfl⟩

/-- the block is all that the page gets, and the linked script all that it loses -/
theorem bundleFamily_spliced_withTemplate :
    ∃ p', (Page.withTemplate.options.policy .script).bundle = true ∧
      Yields (Page.withTemplate.bundleFamily .script) .bare p' .bare ∧
      ∃ (q : Page) (segments : List Segment) (blocks : List Text) (scraps : _) (removed : _),
        Yields (Page.withTemplate.withoutMissing (Page.withTemplate.options.policy .script)) .bare q
          .bare ∧
        p'.document.text = scraps.flatMap (Scrap.text (·.2)) ∧
        Spliced q.document.text (q.assets (Page.withTemplate.options.policy .script) Site.bare.tree)
          (segments.zip blocks) scraps removed := by
  obtain ⟨p', h, _⟩ := bundleFamily_withTemplate
  obtain ⟨q, segments, blocks, scraps, removed, hq, _, _, htext, hspliced⟩ :=
    bundleFamily_spliced rfl h
  exact ⟨p', rfl, h, q, segments, blocks, scraps, removed, hq, htext, hspliced⟩

end SiteBundle
