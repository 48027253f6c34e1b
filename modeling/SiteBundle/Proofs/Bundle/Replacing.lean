import SiteBundle.Proofs.Bundle.Segments
import SiteBundle.Proofs.Markup.Removing

/-!
# Replacing segments loses nothing else

The segments of scanned assets are replaced by one plan (`replacing`), which removes the elements of
the assets and inserts one block for each segment.  `Spliced` describes the text that comes out by
its scraps: what is kept, what is removed, and where the blocks stand.

* `result?_replacing`    the plan gives the scraps;
* `spliced_replacing`    the scraps are as described.
-/

namespace SiteBundle

open Text

def Segment.edits (t : Text) (r : Segment × Text) : List Edit :=
  (r.1.cuts t).map Span.cut ++ [.insert r.1.insertAt r.2]

def replacing (t : Text) (replaced : List (Segment × Text)) : Draft :=
  .plan t (replaced.flatMap (Segment.edits t))

/-! ## the plan -/

section
variable {t : Text} {replaced : List (Segment × Text)}

theorem draft_eq (r : Segment × Text) (d : Draft) :
    r.1.draft d r.2 = (Segment.edits d.base r).foldl Draft.add d := by
  unfold Segment.edits
  rw [List.foldl_append, List.foldl_map]
  rfl

theorem replaceSegments?_eq (t : Text) (replaced : List (Segment × Text)) :
    replaceSegments? t replaced = (replacing t replaced).result? := by
  have hfold : ∀ (l : List (Segment × Text)) (d : Draft), d.base = t →
      l.foldl (fun d r => r.1.draft d r.2) d = (l.flatMap (Segment.edits t)).foldl Draft.add d := by
    intro l
    induction l with
    | nil => exact fun _ _ => rfl
    | cons r l ih =>
      intro d hd
      rw [List.foldl_cons, List.flatMap_cons, List.foldl_append, draft_eq, hd]
      refine ih _ ?_
      rw [Draft.foldl_add]
      exact hd
  exact congrArg Draft.result? (hfold replaced (.of t) rfl)

theorem bounds_of_mem_cuts {s : Segment} {x : Span} (h : x ∈ s.cuts t) :
    ∃ a ∈ s.members, ∃ w, a.element.bounds t w = x := by
  unfold Segment.cuts at h
  cases hm : s.members with
  | nil =>
    rw [hm] at h
    cases h
  | cons a r =>
    rw [hm] at h
    rcases List.mem_cons.mp h with rfl | h
    · exact ⟨a, List.mem_cons_self, _, rfl⟩
    · obtain ⟨b, hb, rfl⟩ := List.mem_map.mp h
      exact ⟨b, List.mem_cons_of_mem _ hb, true, rfl⟩

theorem exists_mem_cuts {s : Segment} {a : Asset} (h : a ∈ s.members) :
    ∃ w, a.element.bounds t w ∈ s.cuts t := by
  unfold Segment.cuts
  cases hm : s.members with
  | nil =>
    rw [hm] at h
    cases h
  | cons b r =>
    rw [hm] at h
    rcases List.mem_cons.mp h with rfl | h
    · exact ⟨_, List.mem_cons_self⟩
    · exact ⟨true, List.mem_cons_of_mem _ (List.mem_map_of_mem h)⟩

theorem cut_mem_edits {e : Edit} : e ∈ replaced.flatMap (Segment.edits t) ↔
    (∃ r ∈ replaced, ∃ x ∈ r.1.cuts t, x.cut = e) ∨
      ∃ r ∈ replaced, e = .insert r.1.insertAt r.2 := by
  rw [List.mem_flatMap]
  constructor
  · rintro ⟨r, hr, he⟩
    rcases List.mem_append.mp he with he | he
    · obtain ⟨x, hx, rfl⟩ := List.mem_map.mp he
      exact .inl ⟨r, hr, x, hx, rfl⟩
    · exact .inr ⟨r, hr, List.mem_singleton.mp he⟩
  · rintro (⟨r, hr, x, hx, rfl⟩ | ⟨r, hr, rfl⟩)
    · exact ⟨r, hr, List.mem_append_left _ (List.mem_map_of_mem hx)⟩
    · exact ⟨r, hr, List.mem_append_right _ List.mem_cons_self⟩

/-- where the block of a segment is inserted -/
def blockPlace (t : Text) (replaced : List (Segment × Text)) (r : Segment × Text) : Nat :=
  Draft.effectivePlace (replacing t replaced).mergedCuts r.1.insertAt

def placedBlocks (t : Text) (replaced : List (Segment × Text)) : List (Nat × (Segment × Text)) :=
  replaced.map fun r => (blockPlace t replaced r, r)

theorem place_of_mem_placedBlocks :
    ∀ i ∈ placedBlocks t replaced, blockPlace t replaced i.2 = i.1 := by
  intro i hi
  obtain ⟨r, _, rfl⟩ := List.mem_map.mp hi
  rfl

theorem map_snd_placed (l : List (Segment × Text)) :
    (l.map fun r => (blockPlace t replaced r, r)).map (·.2) = l := by
  rw [List.map_map]
  exact List.map_id' l

def replacedScraps (t : Text) (replaced : List (Segment × Text)) : List (Scrap (Segment × Text)) :=
  Draft.scrapsFrom (replacing t replaced).cuts (placedBlocks t replaced) 0 t

theorem flatMap_filter_nonempty (l : List (Nat × Text)) :
    (l.filter fun i => !i.2.isEmpty).flatMap (·.2) = l.flatMap (·.2) := by
  induction l with
  | nil => rfl
  | cons i l ih =>
    by_cases h : i.2 = []
    · rw [List.filter_cons_of_neg (by simp [h]), List.flatMap_cons, h]
      exact ih
    · rw [List.filter_cons_of_pos (by simpa using h), List.flatMap_cons, List.flatMap_cons, ih]

theorem insertedAt_filter (inserts : List (Nat × Text)) (o : Nat) :
    Draft.insertedAt (inserts.filter fun i => !i.2.isEmpty) o = Draft.insertedAt inserts o := by
  have h := flatMap_filter_nonempty (inserts.filter fun i => i.1 == o)
  unfold Draft.insertedAt
  rw [List.filter_filter] at h ⊢
  rw [← h]
  congr 2
  funext i
  exact Bool.and_comm _ _

/-- the inserts among the edits; an empty block is none -/
theorem inserts_edits (f : Nat → Nat) (replaced : List (Segment × Text)) :
    ((replaced.flatMap (Segment.edits t)).filter fun e => !e.isIdle).filterMap
        (fun | .cut _ _ => none | .insert place u => some (f place, u)) =
      (replaced.map fun r => (f r.1.insertAt, r.2)).filter fun i => !i.2.isEmpty := by
  induction replaced with
  | nil => rfl
  | cons r replaced ih =>
    have hcuts : (((r.1.cuts t).map Span.cut).filter fun e => !e.isIdle).filterMap
        (fun | .cut _ _ => none | .insert place u => some (f place, u)) = [] := by
      refine List.filterMap_eq_nil_iff.mpr fun e he => ?_
      obtain ⟨x, _, rfl⟩ := List.mem_map.mp (List.mem_filter.mp he).1
      rfl
    have hlast : ([Edit.insert r.1.insertAt r.2].filter fun e => !e.isIdle).filterMap
        (fun | .cut _ _ => none | .insert place u => some (f place, u)) =
          [(f r.1.insertAt, r.2)].filter fun i => !i.2.isEmpty := by
      obtain ⟨s, u⟩ := r
      cases u with
      | nil => rfl
      | cons c u => rfl
    rw [List.flatMap_cons, List.filter_append, List.filterMap_append, ih, Segment.edits,
      List.filter_append, List.filterMap_append, hcuts, List.nil_append, hlast, ← List.filter_append]
    rfl

theorem inserts_replacing (t : Text) (replaced : List (Segment × Text)) :
    (replacing t replaced).inserts =
      ((placedBlocks t replaced).map fun i => (i.1, i.2.2)).filter fun i => !i.2.isEmpty := by
  have h := inserts_edits (t := t)
    (Draft.effectivePlace (replacing t replaced).mergedCuts) replaced
  rw [placedBlocks, List.map_map]
  refine Eq.trans ?_ h
  exact congrArg (List.filterMap _) (congrArg Draft.edits (Draft.plan_eq t _))

theorem result?_replacing (fits : ∀ e ∈ replaced.flatMap (Segment.edits t), e.Fits t) :
    (replacing t replaced).result? = some ((replacedScraps t replaced).flatMap (Scrap.text (·.2))) := by
  have hwalk : (replacing t replaced).result? = some (replacing t replaced).walk :=
    Draft.result?_plan_eq_walk fits
  have hbase : (replacing t replaced).base = t := Draft.base_plan t _
  rw [hwalk, replacedScraps, ← Draft.walkFrom_eq_flatMap]
  unfold Draft.walk
  rw [hbase, inserts_replacing]
  exact congrArg some (Draft.walkFrom_congr (fun _ _ => rfl) fun o _ => insertedAt_filter _ o)

end

/-! ## what the scraps are -/

/-- a text in which assets were replaced by blocks, told by its scraps and by the offsets that were
removed -/
structure Spliced (t : Text) (assets : List Asset) (replaced : List (Segment × Text))
    (scraps : List (Scrap (Segment × Text))) (removed : Nat → Bool) : Prop where
  /-- there is one block for each segment -/
  blocks : (scraps.filterMap Scrap.added?).Perm replaced
  /-- the rest is what was not removed, in its order -/
  kept : scraps.filterMap Scrap.kept? = (places 0 t).filter fun p => !removed p.1
  /-- all of each asset was removed -/
  holds : ∀ a ∈ assets, ∀ o, a.element.Holds o → removed o = true
  /-- what else was removed is layout on the lines of an asset that is alone there -/
  layout : ∀ p ∈ places 0 t, removed p.1 = true → (∃ a ∈ assets, a.element.Holds p.1) ∨
    isGap p.2 = true ∧ ∃ a ∈ assets, a.element.Alone t ∧ a.element.Beside t p.1
  /-- what is no layout and in no asset is there once, in its order -/
  survives : (scraps.filterMap Scrap.kept?).filter (fun p => !isGap p.2) =
    (places 0 t).filter fun p =>
      !isGap p.2 && assets.all fun a => !(a.element.start ≤ p.1 && p.1 < a.element.stop)
  /-- each block stands where its segment says, between what remains of the text before and behind -/
  place : ∀ front r back, scraps = front ++ .added r :: back →
    front.filterMap Scrap.kept? =
        ((places 0 t).filter fun p => !removed p.1).filter (fun p => p.1 < r.1.insertAt) ∧
      back.filterMap Scrap.kept? =
        ((places 0 t).filter fun p => !removed p.1).filter fun p => !decide (p.1 < r.1.insertAt)
  /-- in place that is where the first member began -/
  inPlace : ∀ r ∈ replaced, r.1.inPlace = true → r.1.insertAt = r.1.firstStart
  /-- and the blocks in place are in the order of their segments -/
  order : (scraps.filterMap Scrap.added?).filter (·.1.inPlace) = replaced.filter (·.1.inPlace)

section
variable {d : Document} {position : Position} {assets : List Asset} {segments : List Segment}
  {blocks : List Text} (hscan : Scanned d assets) (hdealt : Dealt d position assets segments)
  (hlen : blocks.length = segments.length)

theorem segment_of_mem_zip {r : Segment × Text} (h : r ∈ segments.zip blocks) : r.1 ∈ segments :=
  (List.of_mem_zip h).1

section
include hlen

theorem map_fst_zip : (segments.zip blocks).map (·.1) = segments :=
  List.map_fst_zip (Nat.le_of_eq hlen.symm)

theorem exists_mem_zip {s : Segment} (h : s ∈ segments) : ∃ r ∈ segments.zip blocks, r.1 = s := by
  rw [← map_fst_zip hlen] at h
  exact List.mem_map.mp h

include hdealt in
theorem ascending_placedBlocks :
    ((placedBlocks d.text (segments.zip blocks)).filter fun i => i.2.1.inPlace).Pairwise
      fun i j => i.1 ≤ j.1 := by
  have hasc : (segments.zip blocks).Pairwise fun r r' => r.1.firstStart ≤ r'.1.firstStart := by
    have h := hdealt.ascending
    rwa [← map_fst_zip hlen, List.pairwise_map] at h
  rw [placedBlocks, List.filter_map]
  refine List.pairwise_map.mpr ((hasc.filter _).imp_of_mem fun {r r'} hr hr' hle => ?_)
  obtain ⟨hr, hin⟩ := List.mem_filter.mp hr
  obtain ⟨hr', hin'⟩ := List.mem_filter.mp hr'
  refine Draft.effectivePlace_mono _ ?_
  rw [hdealt.placed r.1 (segment_of_mem_zip hr) hin,
    hdealt.placed r'.1 (segment_of_mem_zip hr') hin']
  exact hle

end

include hscan hdealt

theorem fits_edits : ∀ e ∈ (segments.zip blocks).flatMap (Segment.edits d.text), e.Fits d.text := by
  intro e he
  rcases cut_mem_edits.mp he with ⟨r, hr, x, hx, rfl⟩ | ⟨r, hr, rfl⟩
  · obtain ⟨a, ha, w, rfl⟩ := bounds_of_mem_cuts hx
    exact Draft.fits_cut (hscan.stands (hdealt.mem_assets (segment_of_mem_zip hr) ha)) w
  · exact hdealt.boundary_insertAt hscan (segment_of_mem_zip hr)

include hlen

theorem removes_replacing : Removes d.text (assets.map (·.element))
    (Draft.covered (replacing d.text (segments.zip blocks)).cuts) := by
  refine Draft.removes_plan ?_ ?_ ?_
  · intro e he
    obtain ⟨a, ha, rfl⟩ := List.mem_map.mp he
    exact hscan.stands ha
  · intro e he
    obtain ⟨a, ha, rfl⟩ := List.mem_map.mp he
    obtain ⟨s, hs, hmem⟩ := hdealt.exists_segment ha
    obtain ⟨r, hr, rfl⟩ := exists_mem_zip hlen hs
    obtain ⟨w, hw⟩ := exists_mem_cuts (t := d.text) hmem
    exact ⟨w, cut_mem_edits.mpr (.inl ⟨r, hr, _, hw, rfl⟩)⟩
  · intro start length hc
    rcases cut_mem_edits.mp hc with ⟨r, hr, x, hx, e⟩ | ⟨r, _, e⟩
    · obtain ⟨a, ha, w, rfl⟩ := bounds_of_mem_cuts hx
      exact ⟨a.element, List.mem_map_of_mem (hdealt.mem_assets (segment_of_mem_zip hr) ha), w, e⟩
    · cases e

theorem holds_replacing {a : Asset} (ha : a ∈ assets) {o : Nat} (ho : a.element.Holds o) :
    Draft.covered (replacing d.text (segments.zip blocks)).cuts o = true :=
  (removes_replacing hscan hdealt hlen).holds a.element (List.mem_map_of_mem ha) o ho

theorem layout_replacing {p : Nat × Char} (hp : p ∈ places 0 d.text)
    (hr : Draft.covered (replacing d.text (segments.zip blocks)).cuts p.1 = true) :
    (∃ a ∈ assets, a.element.Holds p.1) ∨
      isGap p.2 = true ∧ ∃ a ∈ assets, a.element.Alone d.text ∧ a.element.Beside d.text p.1 := by
  rcases (removes_replacing hscan hdealt hlen).layout hp hr with ⟨e, he, hin⟩ | ⟨hgap, e, he, h⟩
  · obtain ⟨a, ha, rfl⟩ := List.mem_map.mp he
    exact .inl ⟨a, ha, hin⟩
  · obtain ⟨a, ha, rfl⟩ := List.mem_map.mp he
    exact .inr ⟨hgap, a, ha, h⟩

/-- a character that is no layout is removed exactly when an asset holds it -/
theorem not_covered_replacing {p : Nat × Char} (hp : p ∈ places 0 d.text)
    (hgap : isGap p.2 = false) :
    (!Draft.covered (replacing d.text (segments.zip blocks)).cuts p.1) =
      assets.all fun a => !(a.element.start ≤ p.1 && p.1 < a.element.stop) := by
  have hholds : ∀ a : Asset, (a.element.start ≤ p.1 && p.1 < a.element.stop) = true ↔
      a.element.Holds p.1 := fun a => by
    rw [Bool.and_eq_true, decide_eq_true_iff, decide_eq_true_iff]
    rfl
  cases hr : Draft.covered (replacing d.text (segments.zip blocks)).cuts p.1 with
  | true =>
    rcases layout_replacing hscan hdealt hlen hp hr with ⟨a, ha, hin⟩ | ⟨h, _⟩
    · refine (List.all_eq_false.mpr ⟨a, ha, ?_⟩).symm
      rw [(hholds a).mpr hin]
      decide
    · rw [hgap] at h
      cases h
  | false =>
    refine (List.all_eq_true.mpr fun a ha => ?_).symm
    rw [Bool.not_eq_true', Bool.eq_false_iff, Ne, hholds]
    intro hin
    rw [holds_replacing hscan hdealt hlen ha hin] at hr
    cases hr

theorem spliced_replacing : Spliced d.text assets (segments.zip blocks)
    (replacedScraps d.text (segments.zip blocks))
    (Draft.covered (replacing d.text (segments.zip blocks)).cuts) := by
  have hkept := Draft.kept_scrapsFrom (replacing d.text (segments.zip blocks)).cuts
    (placedBlocks d.text (segments.zip blocks)) 0 d.text
  have hne : ∀ c ∈ (replacing d.text (segments.zip blocks)).cuts, c.1 < c.2 :=
    Draft.nonempty_cuts_plan _ _
  have hbound : ∀ i ∈ placedBlocks d.text (segments.zip blocks), IsBoundary d.text i.1 := by
    intro i hi
    obtain ⟨r, hr, rfl⟩ := List.mem_map.mp hi
    exact Draft.boundary_effectivePlace_plan (fits_edits hscan hdealt)
      (hdealt.boundary_insertAt hscan (segment_of_mem_zip hr))
  refine ⟨?_, hkept, fun a ha o => holds_replacing hscan hdealt hlen ha,
    fun p => layout_replacing hscan hdealt hlen, ?_, ?_, ?_, ?_⟩
  · have hp := Draft.added_scrapsFrom (replacing d.text (segments.zip blocks)).cuts
      (placedBlocks d.text (segments.zip blocks)) d.text hbound
    rwa [placedBlocks, map_snd_placed] at hp
  · rw [replacedScraps, hkept, List.filter_filter]
    refine List.filter_congr fun p hp => ?_
    cases hgap : isGap p.2 with
    | true => rfl
    | false => exact not_covered_replacing hscan hdealt hlen hp hgap
  · intro front r back e
    exact Draft.kept_around _ _ place_of_mem_placedBlocks e (Draft.effectivePlace_le _ _)
      fun q h1 h2 => Draft.covered_of_effectivePlace hne h1 h2
  · intro r hr
    exact hdealt.placed r.1 (segment_of_mem_zip hr)
  · rw [replacedScraps, Draft.filter_added_scrapsFrom _ _ (·.1.inPlace)
      (ascending_placedBlocks hdealt hlen) d.text hbound, placedBlocks, List.filter_map,
      map_snd_placed]
    rfl

end
end SiteBundle
