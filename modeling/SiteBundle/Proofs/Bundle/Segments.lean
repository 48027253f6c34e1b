import SiteBundle.Bundle.Segment
import SiteBundle.Proofs.Markup.Scan
import SiteBundle.Proofs.StableSort

/-!
# Every asset is in one segment

`Scanned d assets` says that the assets belong to different elements that a scan of the document
finds, in the order of the document.  Such assets can be dealt out for every position, and what comes
out is described by `Dealt`:

* the members of each segment are some of the assets, in their order;
* every asset is a member of one segment;
* an asynchronous asset is a segment of its own, in place;
* at an anchor there is at most one segment;
* in place, only layout and inert text stands between two neighbours of a segment.

`dealt_segments?` is the main result.
-/

namespace SiteBundle

open Text

/-- assets of different elements of the document, in the order of the document -/
structure Scanned (d : Document) (assets : List Asset) : Prop where
  found : ∀ a ∈ assets, ∃ tag, a.element ∈ d.elements tag
  ascending : assets.Pairwise fun a b => a.element.start ≤ b.element.start
  nodup : assets.Nodup

def Document.Between (d : Document) (a b : Element) : Prop :=
  ∀ p ∈ places 0 d.text, a.stop ≤ p.1 → p.1 < b.start →
    isGap p.2 = true ∨ isInert d.inert p.1 = true

structure Segment.Placed (s : Segment) : Prop where
  inPlace : s.inPlace = true
  insertAt : s.insertAt = s.firstStart

/-- what dealing out assets gives -/
structure Dealt (d : Document) (position : Position) (assets : List Asset)
    (segments : List Segment) : Prop where
  nonempty : ∀ s ∈ segments, s.members ≠ []
  sublist : ∀ s ∈ segments, s.members.Sublist assets
  /-- every asset is in one segment -/
  once : (segments.flatMap (·.members)).Perm assets
  ascending : segments.Pairwise fun s s' => s.firstStart ≤ s'.firstStart
  alone : ∀ s ∈ segments, ∀ a ∈ s.members, a.async = true → s = .single a
  placed : ∀ s ∈ segments, s.inPlace = true → s.insertAt = s.firstStart
  /-- at an anchor there is at most one segment, and the others are asynchronous scripts -/
  anchored : ∀ anchor, position = .anchored anchor →
    (segments.filter fun s => !s.inPlace).length ≤ 1 ∧
      ∀ s ∈ segments, s.insertAt = d.anchorOffset anchor ∧ s.inPlace = false ∨
        ∃ a ∈ assets, a.async = true ∧ s = .single a
  /-- nothing but layout and inert text separates two neighbours of a segment in place -/
  between : position = .inPlace → ∀ s ∈ segments, s.inPlace = true ∧
    ∀ front a b back, s.members = front ++ a :: b :: back → d.Between a.element b.element

theorem exists_firstStart {s : Segment} (h : s.members ≠ []) :
    ∃ a ∈ s.members, s.firstStart = a.element.start := by
  unfold Segment.firstStart
  cases hm : s.members with
  | nil => exact absurd hm h
  | cons a m => exact ⟨a, List.mem_cons_self, rfl⟩

/-! ## at an anchor -/

section
variable (d : Document) (anchor : Anchor) (assets : List Asset)

def gatheredSegments : List Segment :=
  if (assets.filter fun a => !a.async).isEmpty then []
  else [⟨assets.filter fun a => !a.async, d.anchorOffset anchor, false⟩]

theorem anchoredSegments_eq : anchoredSegments d anchor assets =
    (gatheredSegments d anchor assets ++ (assets.filter (·.async)).map Segment.single).mergeSort
      fun a b => decide (a.firstStart ≤ b.firstStart) := rfl

theorem gatheredSegments_cases :
    ((assets.filter fun a => !a.async) = [] ∧ gatheredSegments d anchor assets = []) ∨
      ((assets.filter fun a => !a.async) ≠ [] ∧ gatheredSegments d anchor assets =
        [⟨assets.filter fun a => !a.async, d.anchorOffset anchor, false⟩]) := by
  unfold gatheredSegments
  cases h : assets.filter fun a => !a.async with
  | nil => exact .inl ⟨rfl, rfl⟩
  | cons a r => exact .inr ⟨List.cons_ne_nil _ _, rfl⟩

theorem members_gatheredSegments : (gatheredSegments d anchor assets).flatMap (·.members) =
    assets.filter fun a => !a.async := by
  rcases gatheredSegments_cases d anchor assets with ⟨h, e⟩ | ⟨_, e⟩
  · rw [e, h]
    rfl
  · rw [e]
    exact List.append_nil _

theorem mem_anchoredSegments {s : Segment} : s ∈ anchoredSegments d anchor assets ↔
    s ∈ gatheredSegments d anchor assets ∨ ∃ a ∈ assets, a.async = true ∧ s = .single a := by
  rw [anchoredSegments_eq, List.mem_mergeSort, List.mem_append, List.mem_map]
  constructor
  · rintro (h | ⟨a, ha, rfl⟩)
    · exact .inl h
    · exact .inr ⟨a, (List.mem_filter.mp ha).1, (List.mem_filter.mp ha).2, rfl⟩
  · rintro (h | ⟨a, ha, hasync, rfl⟩)
    · exact .inl h
    · exact .inr ⟨a, List.mem_filter.mpr ⟨ha, hasync⟩, rfl⟩

theorem of_mem_gatheredSegments {s : Segment} (h : s ∈ gatheredSegments d anchor assets) :
    s = ⟨assets.filter fun a => !a.async, d.anchorOffset anchor, false⟩ ∧ s.members ≠ [] := by
  rcases gatheredSegments_cases d anchor assets with ⟨_, e⟩ | ⟨hne, e⟩
  · rw [e] at h
    cases h
  · rw [e] at h
    rw [List.mem_singleton.mp h]
    exact ⟨rfl, hne⟩

theorem anchoredSegments_cases {s : Segment} (h : s ∈ anchoredSegments d anchor assets) :
    s = ⟨assets.filter fun a => !a.async, d.anchorOffset anchor, false⟩ ∧ s.members ≠ [] ∨
      ∃ a ∈ assets, a.async = true ∧ s = .single a :=
  ((mem_anchoredSegments d anchor assets).mp h).imp (of_mem_gatheredSegments d anchor assets) id

theorem anchoredSegments_singleton {a : Asset} (h : a.async = false) :
    anchoredSegments d anchor [a] = [⟨[a], d.anchorOffset anchor, false⟩] := by
  rw [anchoredSegments_eq, gatheredSegments, List.filter_cons_of_pos (by rw [h]; rfl),
    List.filter_cons_of_neg (by rw [h]; decide)]
  exact List.mergeSort_singleton _

theorem flatMap_members_single (l : List Asset) :
    (l.map Segment.single).flatMap (·.members) = l := by
  induction l with
  | nil => rfl
  | cons a l ih => exact congrArg (a :: ·) ih

theorem members_anchoredSegments :
    ((anchoredSegments d anchor assets).flatMap (·.members)).Perm assets := by
  rw [anchoredSegments_eq]
  refine ((List.mergeSort_perm _ _).flatMap_right Segment.members).trans ?_
  rw [List.flatMap_append, members_gatheredSegments, flatMap_members_single]
  refine List.perm_append_comm.trans ?_
  exact List.filter_append_perm (·.async) assets

theorem anchored_le_one :
    ((anchoredSegments d anchor assets).filter fun s => !s.inPlace).length ≤ 1 := by
  rw [anchoredSegments_eq, ((List.mergeSort_perm _ _).filter _).length_eq, List.filter_append,
    List.length_append]
  have hsingle : ((assets.filter (·.async)).map Segment.single).filter (fun s => !s.inPlace) = [] := by
    refine List.filter_eq_nil_iff.mpr fun s hs => ?_
    obtain ⟨a, _, rfl⟩ := List.mem_map.mp hs
    exact Bool.false_ne_true
  rw [hsingle]
  refine Nat.le_trans (List.length_filter_le _ _) ?_
  rcases gatheredSegments_cases d anchor assets with ⟨_, e⟩ | ⟨_, e⟩
  · rw [e]
    exact Nat.zero_le 1
  · rw [e]
    exact Nat.le_refl 1

theorem dealt_anchoredSegments :
    Dealt d (.anchored anchor) assets (anchoredSegments d anchor assets) where
  nonempty s hs := by
    rcases anchoredSegments_cases d anchor assets hs with ⟨_, hne⟩ | ⟨a, _, _, rfl⟩
    · exact hne
    · exact List.cons_ne_nil _ _
  sublist s hs := by
    rcases anchoredSegments_cases d anchor assets hs with ⟨rfl, _⟩ | ⟨a, ha, _, rfl⟩
    · exact List.filter_sublist
    · exact List.singleton_sublist.mpr ha
  once := members_anchoredSegments d anchor assets
  ascending := pairwise_sort_asc Segment.firstStart _
  alone s hs a ha hasync := by
    rcases anchoredSegments_cases d anchor assets hs with ⟨rfl, _⟩ | ⟨b, _, _, rfl⟩
    · have := (List.mem_filter.mp ha).2
      rw [hasync] at this
      cases this
    · rw [List.mem_singleton.mp ha]
  placed s hs hin := by
    rcases anchoredSegments_cases d anchor assets hs with ⟨rfl, _⟩ | ⟨a, _, _, rfl⟩
    · cases hin
    · rfl
  anchored anchor' h := by
    cases h
    refine ⟨anchored_le_one d anchor assets, fun s hs => ?_⟩
    rcases anchoredSegments_cases d anchor assets hs with ⟨rfl, _⟩ | h
    · exact .inl ⟨rfl, rfl⟩
    · exact .inr h
  between h := by cases h

end

/-! ## in place -/

/-- segments in place, made of assets one after the other -/
structure InPlace (d : Document) (assets : List Asset) (segments : List Segment) : Prop where
  members_eq : segments.flatMap (·.members) = assets
  nonempty : ∀ s ∈ segments, s.members ≠ []
  placed : ∀ s ∈ segments, s.Placed
  alone : ∀ s ∈ segments, ∀ a ∈ s.members, a.async = true → s = .single a
  between : ∀ s ∈ segments, ∀ front a b back, s.members = front ++ a :: b :: back →
    d.Between a.element b.element

/-- whether an asset joins the segment of the next one: not when either is asynchronous or when
anything but layout and inert text stands between them -/
theorem joins?_eq_some {d : Document} {a : Asset} {r : List Asset}
    (h : ∀ b ∈ a :: r, b.element.Stands d.text) : ∃ joins, joins? d a r = some joins ∧
      (joins = true → ∃ b r', r = b :: r' ∧ a.async = false ∧ b.async = false ∧
        d.Between a.element b.element) := by
  cases r with
  | nil => exact ⟨false, rfl, fun h => nomatch h⟩
  | cons b r =>
    unfold joins?
    by_cases hasync : (a.async || b.async) = true
    · exact ⟨false, if_pos hasync, fun h => nomatch h⟩
    · obtain ⟨joins, hv, hiff⟩ := isVacant?_eq_some (d := d)
        (h a List.mem_cons_self).boundary_stop
        (h b (List.mem_cons_of_mem _ List.mem_cons_self)).boundary_start
      refine ⟨joins, (if_neg hasync).trans hv, fun hj => ⟨b, r, rfl, ?_, ?_, hiff.mp hj⟩⟩
      · cases ha : a.async with
        | false => rfl
        | true => exact absurd (by rw [ha]; rfl) hasync
      · cases hb : b.async with
        | false => rfl
        | true => exact absurd (by rw [hb, Bool.or_true]) hasync

section
variable {d : Document} {a : Asset} {r : List Asset} {s : Segment} {segments : List Segment}

theorem InPlace.cons_single (h : InPlace d r segments) :
    InPlace d (a :: r) (.single a :: segments) where
  members_eq := congrArg (a :: ·) h.members_eq
  nonempty s hs := by
    rcases List.mem_cons.mp hs with rfl | hs
    · exact List.cons_ne_nil _ _
    · exact h.nonempty s hs
  placed s hs := by
    rcases List.mem_cons.mp hs with rfl | hs
    · exact ⟨rfl, rfl⟩
    · exact h.placed s hs
  alone s hs b hb hasync := by
    rcases List.mem_cons.mp hs with rfl | hs
    · rw [List.mem_singleton.mp hb]
    · exact h.alone s hs b hb hasync
  between s hs front b c back e := by
    rcases List.mem_cons.mp hs with rfl | hs
    · have hlen := congrArg List.length e
      rw [List.length_append, List.length_cons, List.length_cons] at hlen
      replace hlen : 1 = _ := hlen
      omega
    · exact h.between s hs front b c back e

/-- one asset in front of segments, in the first of them -/
theorem InPlace.cons_join {b : Asset} {r' : List Asset} (h : InPlace d (b :: r') (s :: segments))
    (ha : a.async = false) (hb : b.async = false) (hab : d.Between a.element b.element) :
    InPlace d (a :: b :: r') (⟨a :: s.members, a.element.start, true⟩ :: segments) := by
  -- the first segment begins with the next asset
  obtain ⟨m, hm⟩ : ∃ m, s.members = b :: m := by
    have e := h.members_eq
    rw [List.flatMap_cons] at e
    cases hs : s.members with
    | nil => exact absurd hs (h.nonempty s List.mem_cons_self)
    | cons c m =>
      rw [hs] at e
      cases e
      exact ⟨m, rfl⟩
  refine ⟨?_, ?_, ?_, ?_, ?_⟩
  · exact congrArg (a :: ·) h.members_eq
  · intro s' hs'
    rcases List.mem_cons.mp hs' with rfl | hs'
    · exact List.cons_ne_nil _ _
    · exact h.nonempty s' (List.mem_cons_of_mem _ hs')
  · intro s' hs'
    rcases List.mem_cons.mp hs' with rfl | hs'
    · exact ⟨rfl, rfl⟩
    · exact h.placed s' (List.mem_cons_of_mem _ hs')
  · intro s' hs' x hx hasync
    rcases List.mem_cons.mp hs' with rfl | hs'
    · rcases List.mem_cons.mp hx with rfl | hx
      · rw [ha] at hasync
        cases hasync
      · -- an asynchronous member would be the first segment, which begins with `b`
        have e := h.alone s List.mem_cons_self x hx hasync
        rw [e] at hm
        cases hm
        rw [hb] at hasync
        cases hasync
    · exact h.alone s' (List.mem_cons_of_mem _ hs') x hx hasync
  · intro s' hs' front x y back e
    rcases List.mem_cons.mp hs' with rfl | hs'
    · cases front with
      | nil =>
        replace e : a :: s.members = x :: y :: back := e
        rw [hm] at e
        cases e
        exact hab
      | cons z front =>
        exact h.between s List.mem_cons_self front x y back (List.cons.inj e).2
    · exact h.between s' (List.mem_cons_of_mem _ hs') front x y back e

theorem inPlace_localSegments? {assets : List Asset}
    (h : ∀ a ∈ assets, a.element.Stands d.text) :
    ∃ segments, localSegments? d assets = some segments ∧ InPlace d assets segments := by
  induction assets with
  | nil => exact ⟨[], rfl, rfl, nofun, nofun, nofun, nofun⟩
  | cons a r ih =>
    obtain ⟨segments, hs, hin⟩ := ih fun b hb => h b (List.mem_cons_of_mem _ hb)
    obtain ⟨joins, hj, hjoin⟩ := joins?_eq_some h
    refine ⟨Segment.cons a joins segments, ?_, ?_⟩
    · rw [localSegments?, hj, hs]
      rfl
    · cases joins with
      | false =>
        cases segments with
        | nil => exact hin.cons_single
        | cons s segments => exact hin.cons_single
      | true =>
        obtain ⟨b, r', rfl, ha, hb, hab⟩ := hjoin rfl
        cases segments with
        | nil => cases hin.members_eq
        | cons s segments => exact hin.cons_join ha hb hab

theorem InPlace.ascending {assets : List Asset} (h : InPlace d assets segments)
    (hasc : assets.Pairwise fun a b => a.element.start ≤ b.element.start) :
    segments.Pairwise fun s s' => s.firstStart ≤ s'.firstStart := by
  have hmem : segments.Pairwise fun s s' =>
      ∀ a ∈ s.members, ∀ b ∈ s'.members, a.element.start ≤ b.element.start :=
    (List.pairwise_flatMap.mp (h.members_eq ▸ hasc)).2
  refine hmem.imp_of_mem fun {s s'} hs hs' hlt => ?_
  obtain ⟨a, ha, ea⟩ := exists_firstStart (h.nonempty s hs)
  obtain ⟨b, hb, eb⟩ := exists_firstStart (h.nonempty s' hs')
  rw [ea, eb]
  exact hlt a ha b hb

end

/-! ## every position -/

theorem InPlace.dealt {d : Document} {assets : List Asset} {segments : List Segment}
    (h : InPlace d assets segments)
    (hasc : assets.Pairwise fun a b => a.element.start ≤ b.element.start) :
    Dealt d .inPlace assets segments where
  nonempty := h.nonempty
  sublist s hs := by
    rw [← h.members_eq, List.flatMap_def]
    exact List.sublist_flatten_of_mem (List.mem_map_of_mem hs)
  once := .of_eq h.members_eq
  ascending := h.ascending hasc
  alone := h.alone
  placed s hs _ := (h.placed s hs).insertAt
  anchored _ e := by cases e
  between _ s hs := ⟨(h.placed s hs).inPlace, h.between s hs⟩

theorem Scanned.stands {d : Document} {assets : List Asset} (h : Scanned d assets) {a : Asset}
    (ha : a ∈ assets) : a.element.Stands d.text := by
  obtain ⟨tag, he⟩ := h.found a ha
  exact stands_of_mem_scan he

namespace Dealt
variable {d : Document} {position : Position} {assets : List Asset} {segments : List Segment}
  (h : Dealt d position assets segments)
include h

theorem mem_assets {s : Segment} (hs : s ∈ segments) {a : Asset} (ha : a ∈ s.members) :
    a ∈ assets := (h.sublist s hs).subset ha

theorem exists_segment {a : Asset} (ha : a ∈ assets) : ∃ s ∈ segments, a ∈ s.members :=
  List.mem_flatMap.mp (h.once.mem_iff.mpr ha)

/-- a replacement goes to where an asset began or to the anchor -/
theorem insertAt_cases {s : Segment} (hs : s ∈ segments) :
    (s.inPlace = true ∧ ∃ a ∈ assets, s.insertAt = a.element.start) ∨
      (s.inPlace = false ∧ ∃ anchor, position = .anchored anchor ∧
        s.insertAt = d.anchorOffset anchor) := by
  cases hin : s.inPlace with
  | true =>
    obtain ⟨a, ha, ea⟩ := exists_firstStart (h.nonempty s hs)
    exact .inl ⟨rfl, a, h.mem_assets hs ha, (h.placed s hs hin).trans ea⟩
  | false =>
    cases position with
    | inPlace =>
      rw [(h.between rfl s hs).1] at hin
      cases hin
    | anchored anchor =>
      rcases (h.anchored anchor rfl).2 s hs with ⟨e, _⟩ | ⟨a, _, _, e⟩
      · exact .inr ⟨rfl, anchor, rfl, e⟩
      · rw [e] at hin
        cases hin

theorem boundary_insertAt (hscan : Scanned d assets) {s : Segment} (hs : s ∈ segments) :
    IsBoundary d.text s.insertAt := by
  rcases h.insertAt_cases hs with ⟨_, a, ha, e⟩ | ⟨_, anchor, _, e⟩
  · rw [e]
    exact (hscan.stands ha).boundary_start
  · rw [e]
    exact isBoundary_anchorOffset d anchor

end Dealt

theorem dealt_segments? {d : Document} {assets : List Asset} (h : Scanned d assets)
    (position : Position) :
    ∃ segments, segments? d position assets = some segments ∧ Dealt d position assets segments := by
  cases position with
  | anchored anchor => exact ⟨_, rfl, dealt_anchoredSegments d anchor assets⟩
  | inPlace =>
    obtain ⟨segments, hs, hin⟩ := inPlace_localSegments? fun a ha => h.stands ha
    exact ⟨segments, hs, hin.dealt h.ascending⟩

end SiteBundle
