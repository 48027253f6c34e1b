import SiteBundle.Proofs.Bundle.Pass
import SiteBundle.Proofs.Markup.Carried

/-!
# What a pass does to the other elements

Scanning and searching for anchors look at the whole text, so an asset, a missing element or an
anchor can lie inside another element: inside a script that is a template, say.  Exactly then a pass
does not carry that element over whole (`bundleFamily_carries`).
-/

namespace SiteBundle

open Text

/-! ## the first plan -/

theorem inserts_removal (p : Page) (policy : Policy) (t : Tree) :
    (p.removal policy t).inserts = [] := by
  refine List.filterMap_eq_nil_iff.mpr fun e he => ?_
  rw [Page.removal, Draft.plan_eq] at he
  obtain ⟨m, _, rfl⟩ := List.mem_map.mp (List.mem_filter.mp he).1
  rfl

theorem removal_carries_stretch_iff {p : Page} {policy : Policy} {t : Tree} {x : Stretch}
    (hx : x.Stands p.document.text) :
    (∃ a, (p.removal policy t).Carries x.text x.start a) ↔
      ∀ m ∈ p.dropped policy t, ¬ x.Meets m := by
  have h := Draft.plan_carries_iff (p.fits_removal policy t) hx (p.removes_removal policy t)
  refine h.trans (and_iff_left fun i hi => ?_)
  rw [← Page.removal, inserts_removal] at hi
  cases hi

theorem removal_carries_iff {p : Page} {policy : Policy} {t : Tree} {e : Element}
    (he : e.Stands p.document.text) :
    (∃ a, (p.removal policy t).Carries e.text e.start a) ↔
      ∀ m ∈ p.dropped policy t, ¬ e.Meets m :=
  removal_carries_stretch_iff he.stretch

/-! ## the second plan -/

section
variable {d : Document} {position : Position} {assets : List Asset} {segments : List Segment}
  {blocks : List Text}

theorem mem_inserts_replacing {t : Text} {replaced : List (Segment × Text)} {i : Nat × Text} :
    i ∈ (replacing t replaced).inserts ↔
      ∃ r ∈ replaced, r.2 ≠ [] ∧ i = (blockPlace t replaced r, r.2) := by
  rw [inserts_replacing, List.mem_filter, placedBlocks, List.map_map, List.mem_map]
  constructor
  · rintro ⟨⟨r, hr, rfl⟩, hne⟩
    exact ⟨r, hr, by simpa using hne, rfl⟩
  · rintro ⟨r, hr, hne, rfl⟩
    exact ⟨⟨r, hr, rfl⟩, by simpa using hne⟩

/-- the anchor lies strictly inside the stretch, and a block goes there -/
def Stretch.AnchoredInside (d : Document) (position : Position)
    (replaced : List (Segment × Text)) (x : Stretch) : Prop :=
  ∃ anchor, position = .anchored anchor ∧ (∃ r ∈ replaced, r.1.inPlace = false ∧ r.2 ≠ []) ∧
    x.start < d.anchorOffset anchor ∧ d.anchorOffset anchor < x.stop

/-- the anchor lies strictly inside the element, and a block goes there -/
def AnchoredInside (d : Document) (position : Position) (replaced : List (Segment × Text))
    (e : Element) : Prop :=
  ∃ anchor, position = .anchored anchor ∧ (∃ r ∈ replaced, r.1.inPlace = false ∧ r.2 ≠ []) ∧
    e.start < d.anchorOffset anchor ∧ d.anchorOffset anchor < e.stop

theorem replacing_carries_stretch_iff (hscan : Scanned d assets)
    (hdealt : Dealt d position assets segments) (hlen : blocks.length = segments.length)
    {x : Stretch} (hx : x.Stands d.text) :
    (∃ a, (replacing d.text (segments.zip blocks)).Carries x.text x.start a) ↔
      (∀ y ∈ assets, ¬ x.Meets y.element) ∧
        ¬ x.AnchoredInside d position (segments.zip blocks) := by
  have hrem := removes_replacing hscan hdealt hlen
  have hne : ∀ c ∈ (replacing d.text (segments.zip blocks)).cuts, c.1 < c.2 :=
    Draft.nonempty_cuts_plan _ _
  have hmeets : (∀ m ∈ assets.map (·.element), ¬ x.Meets m) ↔ ∀ y ∈ assets, ¬ x.Meets y.element :=
    ⟨fun h y hy => h _ (List.mem_map_of_mem hy), fun h m hm => by
      obtain ⟨y, hy, rfl⟩ := List.mem_map.mp hm
      exact h y hy⟩
  refine (Draft.plan_carries_iff (fits_edits hscan hdealt) hx hrem).trans ?_
  rw [hmeets]
  refine and_congr_right fun hno => ?_
  -- no cut reaches into the stretch, so a block planned for its inside is not moved
  have hfree : ∀ o, x.Holds o →
      Draft.covered (replacing d.text (segments.zip blocks)).cuts o = false := by
    intro o ho
    rw [Bool.eq_false_iff]
    intro hr
    obtain ⟨m, hm, hmeet⟩ := hrem.meets_of_removed hx ho hr
    exact hmeets.mpr hno m hm hmeet
  constructor
  · rintro hi ⟨anchor, hpos, ⟨r, hr, hin, hblock⟩, h1, h2⟩
    have hat : r.1.insertAt = d.anchorOffset anchor := by
      rcases hdealt.insertAt_cases (segment_of_mem_zip hr) with ⟨h, _⟩ | ⟨_, anchor', hpos', e⟩
      · rw [hin] at h
        cases h
      · rw [hpos] at hpos'
        cases hpos'
        exact e
    have hplace : blockPlace d.text (segments.zip blocks) r = r.1.insertAt :=
      Draft.effectivePlace_eq_self hne (.inl (hfree _ ⟨by omega, by omega⟩))
    refine hi _ (mem_inserts_replacing.mpr ⟨r, hr, hblock, rfl⟩) ?_
    rw [hplace, hat]
    exact ⟨h1, h2⟩
  · rintro hno' i hi ⟨h1, h2⟩
    obtain ⟨r, hr, hblock, rfl⟩ := mem_inserts_replacing.mp hi
    have hplace : blockPlace d.text (segments.zip blocks) r = r.1.insertAt :=
      Draft.effectivePlace_eq_self hne (.inr (hfree _ ⟨Nat.le_of_lt h1, h2⟩))
    replace h1 : x.start < r.1.insertAt := hplace ▸ h1
    replace h2 : r.1.insertAt < x.stop := hplace ▸ h2
    rcases hdealt.insertAt_cases (segment_of_mem_zip hr) with ⟨_, a, ha, hat⟩ |
      ⟨hin, anchor, hpos, hat⟩
    · -- the block stands where an asset began
      have hlt := (hscan.stands ha).start_lt_stop
      exact hno a ha ⟨by omega, by omega⟩
    · rw [hat] at h1 h2
      exact hno' ⟨anchor, hpos, ⟨r, hr, hin, hblock⟩, h1, h2⟩

theorem replacing_carries_iff (hscan : Scanned d assets) (hdealt : Dealt d position assets segments)
    (hlen : blocks.length = segments.length) {e : Element} (he : e.Stands d.text) :
    (∃ a, (replacing d.text (segments.zip blocks)).Carries e.text e.start a) ↔
      (∀ x ∈ assets, ¬ e.Meets x.element) ∧
        ¬ AnchoredInside d position (segments.zip blocks) e :=
  replacing_carries_stretch_iff hscan hdealt hlen he.stretch

end

/-! ## both plans -/

/-- **What a pass carries over whole.**  An element stays as it is when the missing elements are
dropped exactly if none of them meets it; and then, when the assets are replaced, exactly if none of
them meets it at its new offset and no block goes to an anchor inside it.  What stays as it is in
both steps stands in the result. -/
theorem bundleFamily_carries {p p' : Page} {f : Family} {s s' : Site}
    (h : Yields (p.bundleFamily f) s p' s') :
    ∃ q segments blocks, Pass (p.options.policy f) s p q p' segments blocks ∧
      ∀ tag, ∀ e ∈ p.document.elements tag,
        ((∃ a, (p.removal (p.options.policy f) s.tree).Carries e.text e.start a) ↔
          ∀ m ∈ p.dropped (p.options.policy f) s.tree, ¬ e.Meets m) ∧
        ∀ a, (p.removal (p.options.policy f) s.tree).Carries e.text e.start a →
          ((∃ a', (replacing q.document.text (segments.zip blocks)).Carries e.text a a') ↔
            (∀ x ∈ q.replacedAssets (p.options.policy f) s.tree, ¬ (e.at a).Meets x.element) ∧
              ¬ AnchoredInside q.document (p.options.policy f).position (segments.zip blocks)
                (e.at a)) ∧
          ∀ a', (replacing q.document.text (segments.zip blocks)).Carries e.text a a' →
            ∃ front back, p'.document.text = front ++ (e.text ++ back) ∧ size front = a' := by
  obtain ⟨q, segments, blocks, hpass⟩ := pass_of_bundleFamily h
  refine ⟨q, segments, blocks, hpass, fun tag e he => ?_⟩
  have hstands : e.Stands p.document.text := stands_of_mem_scan he
  have hscan := q.scanned_replacedAssets (p.options.policy f) s.tree
  refine ⟨removal_carries_iff hstands, fun a ha => ?_⟩
  have hmoved : (e.at a).Stands q.document.text :=
    Draft.stands_of_carries (p.fits_removal _ _) hstands ha hpass.removal
  refine ⟨replacing_carries_iff hscan hpass.dealt hpass.made.1 hmoved, fun a' ha' => ?_⟩
  exact (Draft.stands_of_carries (fits_edits hscan hpass.dealt) hmoved ha' hpass.result).placed

/-- the template of the page, which is no asset -/
def templateScript : Element :=
  ⟨.script, 0, ⟨"<script type=\"text/template\">".toList, "</body>".toList, "</script>".toList⟩⟩

theorem templateScript_mem : templateScript ∈ Page.withTemplate.document.elements .script := by
  unfold templateScript Page.withTemplate
  repeat rw [String.toList_ofList]
  decide +kernel

/-- no missing element is dropped from the page, so its template is carried to where it was -/
theorem bundleFamily_carries_withTemplate :
    ∃ p', Yields (Page.withTemplate.bundleFamily .script) .bare p' .bare ∧
      templateScript ∈ Page.withTemplate.document.elements .script ∧
      ∃ a, (Page.withTemplate.removal (Page.withTemplate.options.policy .script)
        Site.bare.tree).Carries templateScript.text templateScript.start a := by
  obtain ⟨p', h, _⟩ := bundleFamily_withTemplate
  obtain ⟨q, segments, blocks, _, hcarries⟩ := bundleFamily_carries h
  refine ⟨p', h, templateScript_mem, ((hcarries .script _ templateScript_mem).1).mpr ?_⟩
  exact nofun

/-- and yet the pass does not leave it as it is: the block goes to the end of the body inside it -/
theorem templateScript_not_kept :
    ∃ p', Yields (Page.withTemplate.bundleFamily .script) .bare p' .bare ∧
      templateScript ∈ Page.withTemplate.document.elements .script ∧
      classify Site.bare.tree Page.withTemplate.dir (Page.withTemplate.options.policy .script)
        templateScript = .untouched templateScript none ∧
      ¬ templateScript.text <:+: p'.document.text := by
  obtain ⟨p', h, htext⟩ := bundleFamily_withTemplate
  refine ⟨p', h, templateScript_mem, rfl, ?_⟩
  rw [htext]
  unfold templateScript
  repeat rw [String.toList_ofList]
  decide +kernel

end SiteBundle
