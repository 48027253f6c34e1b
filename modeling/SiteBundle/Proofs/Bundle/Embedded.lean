import SiteBundle.Proofs.Bundle.Untouched
import SiteBundle.Proofs.Markup.Inert

/-!
# What a pass does to blocks of an embedded language

Nothing that begins inside a block is taken for an element, but an element may begin before a block
and hold it, and an anchor may be the tag of an element whose attributes hold it.  A pass carries a
block over whole in all other cases, and only in these (`bundleFamily_carries_blocks`); the blocks
that it carries keep their order.
-/

namespace SiteBundle

open Text

/-- the blocks of a page -/
def Page.IsBlock (p : Page) (r : InertRange) (u : Text) : Prop :=
  r ∈ p.document.inert ∧ r.kind = .embedded ∧ slice? r.start r.stop p.document.text = some u

theorem mem_rangesOfKind_of_embedded {t : Text} {embedded : Bool} {r : InertRange}
    (h : r ∈ inertRanges t embedded) (hk : r.kind = .embedded) : r ∈ rangesOfKind .embedded [] t := by
  unfold inertRanges at h
  rcases List.mem_append.mp h with h | h
  · cases embedded with
    | false => exact absurd h List.not_mem_nil
    | true => exact h
  · rw [(spans_of_mem_rangesOfKind h).1] at hk
    exact nomatch hk

theorem stretch_of_isBlock {p : Page} {r : InertRange} {u : Text} (h : p.IsBlock r u) :
    Stretch.Stands p.document.text ⟨r.start, u⟩ ∧ r.stop = r.start + size u := by
  obtain ⟨hr, _, hu⟩ := h
  obtain ⟨v, hv, hstop⟩ := stands_of_mem_inertRanges hr
  have hslice : slice? r.start (r.start + size v) p.document.text = some v := slice?_of_stands hv
  rw [hstop, hslice] at hu
  obtain rfl := Option.some.inj hu
  exact ⟨hv, hstop⟩

theorem exists_isBlock {p : Page} {r : InertRange} (h : r ∈ p.document.inert)
    (hk : r.kind = .embedded) : ∃ u, p.IsBlock r u := by
  obtain ⟨u, hu, hstop⟩ := stands_of_mem_inertRanges h
  exact ⟨u, h, hk, hstop ▸ slice?_of_stands hu⟩

/-- the later of two blocks lies behind all of the earlier one -/
theorem stop_le_start_of_blocks {p : Page} {r r' : InertRange} {u u' : Text} (h : p.IsBlock r u)
    (h' : p.IsBlock r' u') (hlt : r.start < r'.start) : r.stop ≤ r'.start := by
  have hpair := pairwise_rangesOfKind .embedded [] p.document.text
  have hr := mem_rangesOfKind_of_embedded h.1 h.2.1
  have hr' := mem_rangesOfKind_of_embedded h'.1 h'.2.1
  have hstop' := (stretch_of_isBlock h').2
  obtain ⟨i, hi, rfl⟩ := List.mem_iff_getElem.mp hr
  obtain ⟨j, hj, rfl⟩ := List.mem_iff_getElem.mp hr'
  rcases Nat.lt_trichotomy i j with hij | rfl | hji
  · exact List.pairwise_iff_getElem.mp hpair i j hi hj hij
  · exact absurd hlt (Nat.lt_irrefl _)
  · have hle := List.pairwise_iff_getElem.mp hpair j i hj hi hji
    omega

/-- **What a pass carries over of the blocks.**  A block stays as it is when the missing elements are
dropped exactly if none of them meets it; and then, when the assets are replaced, exactly if none of
them meets it at its new offset and nothing goes to an anchor inside it.  A block that stays is in the
result, in no asset, and before the blocks that stood behind it. -/
theorem bundleFamily_carries_blocks {p p' : Page} {f : Family} {s s' : Site}
    (h : Yields (p.bundleFamily f) s p' s') :
    ∃ q segments blocks, Pass (p.options.policy f) s p q p' segments blocks ∧
      (∀ r ∈ p.document.inert, r.kind = .embedded → ∃ u, p.IsBlock r u) ∧
      (∀ r u, p.IsBlock r u →
        ((∃ a, (p.removal (p.options.policy f) s.tree).Carries u r.start a) ↔
          ∀ m ∈ p.dropped (p.options.policy f) s.tree, ¬ Stretch.Meets ⟨r.start, u⟩ m) ∧
        ∀ a, (p.removal (p.options.policy f) s.tree).Carries u r.start a →
          ((∃ a', (replacing q.document.text (segments.zip blocks)).Carries u a a') ↔
            (∀ x ∈ q.replacedAssets (p.options.policy f) s.tree,
              ¬ Stretch.Meets ⟨a, u⟩ x.element) ∧
            ¬ Stretch.AnchoredInside q.document (p.options.policy f).position
              (segments.zip blocks) ⟨a, u⟩) ∧
          ∀ a', (replacing q.document.text (segments.zip blocks)).Carries u a a' →
            ∃ front back, p'.document.text = front ++ (u ++ back) ∧ size front = a') ∧
      ∀ r u r' u', p.IsBlock r u → p.IsBlock r' u' → r.start < r'.start → ∀ a a' b b',
        (p.removal (p.options.policy f) s.tree).Carries u r.start a →
        (p.removal (p.options.policy f) s.tree).Carries u' r'.start b →
        (replacing q.document.text (segments.zip blocks)).Carries u a a' →
        (replacing q.document.text (segments.zip blocks)).Carries u' b b' →
        a' + size u ≤ b' := by
  obtain ⟨q, segments, blocks, hpass⟩ := pass_of_bundleFamily h
  have hscan := q.scanned_replacedAssets (p.options.policy f) s.tree
  refine ⟨q, segments, blocks, hpass, fun r hr hk => exists_isBlock hr hk, fun r u hu => ?_,
    fun r u r' u' hu hu' hlt a a' b b' ha hb ha' hb' => ?_⟩
  · obtain ⟨hstands, -⟩ := stretch_of_isBlock hu
    refine ⟨removal_carries_stretch_iff hstands, fun a ha => ?_⟩
    have hmoved : Stretch.Stands q.document.text ⟨a, u⟩ :=
      Draft.stands_at_of_carries (p.fits_removal _ _) (inserts_removal p _ _) hstands ha
        hpass.removal
    refine ⟨replacing_carries_stretch_iff hscan hpass.dealt hpass.made.1 hmoved, fun a' ha' => ?_⟩
    exact Draft.append_of_carries (fits_edits hscan hpass.dealt) ha' hpass.result
  · obtain ⟨hstands, hstop⟩ := stretch_of_isBlock hu
    obtain ⟨hstands', -⟩ := stretch_of_isBlock hu'
    obtain ⟨c, v, hc, -⟩ := hstands.begins
    obtain ⟨c', v', hc', -⟩ := hstands'.begins
    have hne : u ≠ [] := by
      rw [show u = _ from hc]
      exact List.cons_ne_nil _ _
    have hne' : u' ≠ [] := by
      rw [show u' = _ from hc']
      exact List.cons_ne_nil _ _
    have hbehind := stop_le_start_of_blocks hu hu' hlt
    rw [hstop] at hbehind
    have hmid : a + size u ≤ b := ha.ordered Draft.ascending_kept_plan hb hne hne' hbehind
    exact ha'.ordered Draft.ascending_kept_plan hb' hne hne' hmid

/-! ## a page with two blocks -/

namespace TwoBlocks

def options : Options :=
  .overlay .defaults (((Layer.empty.setField .minifyScript false).setField .iifeScript false).setField
    .randomBundleNames false)

def site : Site :=
  .ofTree options .empty ((Tree.empty []).addSource Tree.root "index.php".toList).1 fun _ => 0

/-- a block beside a script, and a block inside it -/
def page : Page :=
  ⟨"index.php".toList, 1, Tree.root, options, .ofText
    "<?php a(); ?><script>b(\"<?= 1 ?>\");</script>".toList true⟩

def script : Asset :=
  ⟨⟨.script, 13, ⟨"<script>".toList, "b(\"<?= 1 ?>\");".toList, "</script>".toList⟩⟩,
    .inline, false, false, false⟩

def request : Request :=
  ⟨.script, [], script.element.body, options.recipe .script false, .bundleDirectory⟩

/-- the site with the bundle that the script becomes -/
def bundled : Site := (Site.createOrReuse request site).2

def reference : Text := "<script src=\"./bundles/0.js\"></script>".toList

theorem pathBetween?_bundled : bundled.tree.pathBetween? 1 3 = some "./bundles/0.js".toList := by
  have hroot : bundled.tree.ancestry 0 = [0] := by
    rw [Tree.ancestry]
    rfl
  have hfolder : bundled.tree.ancestry 2 = [0, 2] := by
    rw [Tree.ancestry]
    show bundled.tree.ancestry 0 ++ [2] = [0, 2]
    rw [hroot]
    rfl
  show bundled.tree.pathFromDirectory? 0 3 = _
  unfold Tree.pathFromDirectory?
  rw [hroot, show (bundled.tree.parent? 3).getD Tree.root = 2 from rfl, hfolder]
  rfl

theorem yields_replacement : Yields (page.replacement (options.policy .script)
    ⟨.merged false false, [script]⟩) site reference bundled := by
  have hprepare : Yields (Site.prepare (page.options.recipe (options.policy .script).family false)
      (options.policy .script).family script.element.body) site script.element.body site := rfl
  have hcreate : Yields (Site.createOrReuse request) site 0 bundled := rfl
  have hfiled : bundled.bundle 0 = .ok ⟨0, "0".toList, .script, script.element.body, [],
      options.recipe .script false, .markup, false, some 3⟩ := rfl
  have hemit : Yields (page.emit (options.policy .script) script.element.body [] false false) site
      reference bundled :=
    yields_emit false false rfl hprepare hcreate rfl hfiled rfl pathBetween?_bundled
  exact hemit

/-- the script goes into a file, with the block inside it -/
theorem bundleFamily_page : ∃ p', Yields (page.bundleFamily .script) site p' bundled ∧
    p'.document.text = "<?php a(); ?><script src=\"./bundles/0.js\"></script>".toList := by
  -- lists of characters are evaluated faster than literals
  have hassets : page.assets (page.options.policy .script) site.tree = [script] := by
    unfold page script
    repeat rw [String.toList_ofList]
    rfl
  have hmarks : (page.classified (page.options.policy .script) site.tree).filterMap
      (·.untouchedFile?) = [] := by
    unfold page
    repeat rw [String.toList_ofList]
    rfl
  have hanchor : page.document.anchorOffset ⟨.body, .stop⟩ = 44 := by
    unfold page
    repeat rw [String.toList_ofList]
    rfl
  have hcuts : (replacing page.document.text [(⟨[script], 44, false⟩, reference)]).cuts =
      [(13, 44)] := by
    unfold page script reference
    repeat rw [String.toList_ofList]
    rfl
  have htext : (Draft.scrapsFrom [(13, 44)] [(Draft.effectivePlace [(13, 44)] 44,
      ((⟨[script], 44, false⟩ : Segment), reference))] 0 page.document.text).flatMap
        (Scrap.text fun r => r.2) =
          "<?php a(); ?><script src=\"./bundles/0.js\"></script>".toList := by
    unfold page script reference
    repeat rw [String.toList_ofList]
    rfl
  exact ⟨_, bundleFamily_of_single rfl rfl hmarks hassets rfl rfl hanchor rfl yields_replacement hcuts
    htext, rfl⟩

theorem isBlock_inside : page.IsBlock ⟨24, 32, .embedded⟩ "<?= 1 ?>".toList :=
  ⟨by decide +kernel, rfl, by decide +kernel⟩

end TwoBlocks

open TwoBlocks in
/-- no missing element is dropped from the page, so the block inside the script is carried to where it
was -/
theorem bundleFamily_carries_blocks_twoBlocks :
    ∃ p', Yields (page.bundleFamily .script) site p' bundled ∧
      page.IsBlock ⟨24, 32, .embedded⟩ "<?= 1 ?>".toList ∧
      ∃ a, (page.removal (page.options.policy .script) site.tree).Carries "<?= 1 ?>".toList 24 a := by
  obtain ⟨p', h, -⟩ := bundleFamily_page
  obtain ⟨q, segments, blocks, -, -, hcarries, -⟩ := bundleFamily_carries_blocks h
  have hdropped : page.dropped (page.options.policy .script) site.tree = [] := by decide +kernel
  refine ⟨p', h, isBlock_inside, (hcarries _ _ isBlock_inside).1.mpr ?_⟩
  rw [hdropped]
  exact nofun

open TwoBlocks in
/-- and yet it does not stay in the page: the script is replaced, and the block is in its bundle -/
theorem block_moved_twoBlocks :
    ∃ p', Yields (page.bundleFamily .script) site p' bundled ∧ page.document.embedded = true ∧
      page.IsBlock ⟨24, 32, .embedded⟩ "<?= 1 ?>".toList ∧
      ¬ "<?= 1 ?>".toList <:+: p'.document.text ∧
      ∃ b ∈ bundled.bundles, "<?= 1 ?>".toList <:+: b.code := by
  obtain ⟨p', h, htext⟩ := bundleFamily_page
  have hbundle : ∃ b ∈ bundled.bundles, "<?= 1 ?>".toList <:+: b.code := by decide +kernel
  refine ⟨p', h, rfl, isBlock_inside, ?_, hbundle⟩
  rw [htext]
  decide +kernel

end SiteBundle
