import SiteBundle.Proofs.Bundle.Groups

/-!
# Which of the modules of a file is kept

Of the modules of one file, the first one in the running order is kept, and the others are dropped.
The running order is that of the document but for two things:

* `GatheredBefore`   an asynchronous script stays where it is, and what is gathered at the anchor comes
  before it as soon as one gathered script does;
* `DeferredBehind`   a deferred script comes behind the others of its segment.

A module *overtakes* another when one of the two puts it first, and of two modules the later one comes
first in the running order just when it overtakes the other (`sublist_runningOrder`).
-/

namespace SiteBundle

section
variable {α β : Type} {l : List α} {x y : α}

theorem sublist_flatMap_of_mem (f : α → List β) (hx : x ∈ l) : (f x).Sublist (l.flatMap f) := by
  rw [List.flatMap_def]
  exact List.sublist_flatten_of_mem (List.mem_map_of_mem hx)

theorem sublist_flatMap_of_pair (f : α → List β) (h : [x, y].Sublist l) {a b : β} (ha : a ∈ f x)
    (hb : b ∈ f y) : [a, b].Sublist (l.flatMap f) := by
  have hpairs : (l.flatMap f).Pairwise fun a b => [a, b].Sublist (l.flatMap f) :=
    List.pairwise_iff_forall_sublist.mpr id
  exact List.pairwise_iff_forall_sublist.mp (List.pairwise_flatMap.mp hpairs).2 h a ha b hb

end

/-! ## segments in their order -/

/-- `b` is gathered at the anchor, with something that begins no later than the asynchronous `a` -/
def GatheredBefore (position : Position) (assets : List Asset) (b a : Asset) : Prop :=
  (∃ anchor, position = .anchored anchor) ∧ a.async = true ∧ b.async = false ∧
    ∃ c ∈ assets, c.async = false ∧ c.element.start ≤ a.element.start

/-- `a` is deferred behind `b` in the segment of both -/
def DeferredBehind (segments : List Segment) (b a : Asset) : Prop :=
  a.deferred = true ∧ b.deferred = false ∧ ∃ s ∈ segments, a ∈ s.members ∧ b ∈ s.members

/-- `b` comes before `a` in the running order, although it stands behind it in the document -/
def Overtakes (position : Position) (assets : List Asset) (segments : List Segment)
    (b a : Asset) : Prop :=
  GatheredBefore position assets b a ∨ DeferredBehind segments b a

section
variable {d : Document} {position : Position} {assets : List Asset} {segments : List Segment}
  {s s' : Segment} {a b : Asset}

theorem firstStart_le {c : Asset} (hc : c ∈ s.members)
    (hasc : s.members.Pairwise fun a b => a.element.start ≤ b.element.start) :
    s.firstStart ≤ c.element.start := by
  unfold Segment.firstStart
  cases hm : s.members with
  | nil =>
    rw [hm] at hc
    cases hc
  | cons a m =>
    rw [hm] at hc hasc
    rcases List.mem_cons.mp hc with rfl | hc
    · exact Nat.le_refl _
    · exact List.rel_of_pairwise_cons hasc hc

/-- the gathered segment begins with the first script that is gathered -/
theorem firstStart_le_iff {anchor : Anchor} {k : Nat} (hscan : Scanned d assets)
    (hs : s ∈ gatheredSegments d anchor assets) :
    s.firstStart ≤ k ↔ ∃ c ∈ assets, c.async = false ∧ c.element.start ≤ k := by
  obtain ⟨rfl, hne⟩ := of_mem_gatheredSegments d anchor assets hs
  constructor
  · intro hle
    obtain ⟨c, hc, e⟩ := exists_firstStart hne
    obtain ⟨hc, hasync⟩ := List.mem_filter.mp hc
    exact ⟨c, hc, by simpa using hasync, e ▸ hle⟩
  · rintro ⟨c, hc, hasync, hle⟩
    refine Nat.le_trans (firstStart_le ?_ (hscan.ascending.filter _)) hle
    exact List.mem_filter.mpr ⟨hc, by rw [hasync]; rfl⟩

/-- what is gathered comes before an asynchronous script if it begins no later -/
theorem sublist_gathered {anchor : Anchor} {x : Asset} (hscan : Scanned d assets)
    (hs : s ∈ gatheredSegments d anchor assets) (hx : x ∈ assets) (hasync : x.async = true) :
    ((∃ c ∈ assets, c.async = false ∧ c.element.start ≤ x.element.start) →
      [s, .single x].Sublist (anchoredSegments d anchor assets)) ∧
    ((¬ ∃ c ∈ assets, c.async = false ∧ c.element.start ≤ x.element.start) →
      [.single x, s].Sublist (anchoredSegments d anchor assets)) := by
  rw [← firstStart_le_iff hscan hs, anchoredSegments_eq]
  have hsingle : Segment.single x ∈ (assets.filter (·.async)).map Segment.single :=
    List.mem_map_of_mem (List.mem_filter.mpr ⟨hx, hasync⟩)
  refine ⟨fun hle => sublist_sort_asc ?_ hle, fun hlt => sublist_sort_of_lt ?_ ?_ ?_⟩
  · exact (List.singleton_sublist.mpr hs).append (List.singleton_sublist.mpr hsingle)
  · exact List.mem_append_right _ hsingle
  · exact List.mem_append_left _ hs
  · exact Nat.lt_of_not_le hlt

theorem not_async_of_gathered {anchor : Anchor} (hs : s ∈ gatheredSegments d anchor assets)
    (ha : a ∈ s.members) : a.async = false := by
  obtain ⟨rfl, _⟩ := of_mem_gatheredSegments d anchor assets hs
  simpa using (List.mem_filter.mp ha).2

theorem sublist_anchoredSegments {anchor : Anchor} (hscan : Scanned d assets)
    (hab : [a, b].Sublist assets) (hs : s ∈ anchoredSegments d anchor assets) (ha : a ∈ s.members)
    (hs' : s' ∈ anchoredSegments d anchor assets) (hb : b ∈ s'.members) (hne : s ≠ s') :
    (GatheredBefore (.anchored anchor) assets b a →
      [s', s].Sublist (anchoredSegments d anchor assets)) ∧
    (¬ GatheredBefore (.anchored anchor) assets b a →
      [s, s'].Sublist (anchoredSegments d anchor assets)) := by
  have hle := List.pairwise_iff_forall_sublist.mp hscan.ascending hab
  rcases (mem_anchoredSegments d anchor assets).mp hs with hg | ⟨x, hx, hxasync, rfl⟩
  · -- the first one is gathered, and what comes behind it in the document does not overtake it
    have hasync := not_async_of_gathered hg ha
    refine ⟨fun h => ?_, fun _ => ?_⟩
    · rw [h.2.1] at hasync
      cases hasync
    rcases (mem_anchoredSegments d anchor assets).mp hs' with hg' | ⟨y, hy, hyasync, rfl⟩
    · exact absurd ((of_mem_gatheredSegments d anchor assets hg).1.trans
        (of_mem_gatheredSegments d anchor assets hg').1.symm) hne
    · obtain rfl := List.mem_singleton.mp hb
      exact (sublist_gathered hscan hg hy hyasync).1
        ⟨a, hab.subset List.mem_cons_self, hasync, hle⟩
  · obtain rfl := List.mem_singleton.mp ha
    rcases (mem_anchoredSegments d anchor assets).mp hs' with hg' | ⟨y, hy, hyasync, rfl⟩
    · have hasync := not_async_of_gathered hg' hb
      obtain ⟨hbefore, hbehind⟩ := sublist_gathered hscan hg' hx hxasync
      exact ⟨fun h => hbefore h.2.2.2, fun h => hbehind fun hc =>
        h ⟨⟨anchor, rfl⟩, hxasync, hasync, hc⟩⟩
    · obtain rfl := List.mem_singleton.mp hb
      refine ⟨fun h => ?_, fun _ => ?_⟩
      · rw [h.2.2.1] at hyasync
        cases hyasync
      · have hpair : [a, b].filter Asset.async = [a, b] := by
          rw [List.filter_cons_of_pos hxasync, List.filter_cons_of_pos hyasync, List.filter_nil]
        have hsingles := (hpair ▸ hab.filter Asset.async).map Segment.single
        exact sublist_sort_asc (List.sublist_append_of_sublist_right hsingles) hle

/-- two segments are in the order of their members, but for what is gathered -/
theorem sublist_segments (hscan : Scanned d assets)
    (hsegments : segments? d position assets = some segments) (hab : [a, b].Sublist assets)
    (hs : s ∈ segments) (ha : a ∈ s.members) (hs' : s' ∈ segments) (hb : b ∈ s'.members)
    (hne : s ≠ s') :
    (GatheredBefore position assets b a → [s', s].Sublist segments) ∧
    (¬ GatheredBefore position assets b a → [s, s'].Sublist segments) := by
  cases position with
  | anchored anchor =>
    cases hsegments
    exact sublist_anchoredSegments hscan hab hs ha hs' hb hne
  | inPlace =>
    obtain ⟨_, hlocal, hin⟩ := inPlace_localSegments? fun a ha => hscan.stands (d := d) ha
    cases Option.some.inj (hlocal.symm.trans hsegments)
    refine ⟨fun ⟨⟨anchor, e⟩, _⟩ => ?_, fun _ => ?_⟩
    · cases e
    refine (sublist_or_sublist hs hs' hne).resolve_right fun hswap => ?_
    have hba := sublist_flatMap_of_pair Segment.members hswap hb ha
    rw [hin.members_eq] at hba
    exact not_sublist_swap hscan.nodup hab hba

end

/-! ## the running order -/

section
variable {m : List Asset} {a b : Asset}

theorem sublist_deferLast_of_ne (ha : a ∈ m) (hb : b ∈ m) (hadef : a.deferred = false)
    (hbdef : b.deferred = true) : [a, b].Sublist (deferLast m) := by
  refine (List.singleton_sublist.mpr ?_).append (List.singleton_sublist.mpr ?_)
  · exact List.mem_filter.mpr ⟨ha, by rw [hadef]; rfl⟩
  · exact List.mem_filter.mpr ⟨hb, hbdef⟩

theorem sublist_deferLast (h : [a, b].Sublist m) (hdef : a.deferred = true → b.deferred = true) :
    [a, b].Sublist (deferLast m) := by
  have hmem : a ∈ m ∧ b ∈ m := by simpa using h.subset
  cases hb : b.deferred with
  | false =>
    have ha : a.deferred = false := Bool.eq_false_iff.mpr fun ha => by
      rw [hdef ha] at hb
      cases hb
    have hpair : [a, b].filter (fun a => !a.deferred) = [a, b] := by simp [ha, hb]
    exact List.sublist_append_of_sublist_left (hpair ▸ h.filter _)
  | true =>
    cases ha : a.deferred with
    | false => exact sublist_deferLast_of_ne hmem.1 hmem.2 ha hb
    | true =>
      have hpair : [a, b].filter (·.deferred) = [a, b] := by simp [ha, hb]
      exact List.sublist_append_of_sublist_right (hpair ▸ h.filter _)

end

section
variable {d : Document} {position : Position} {assets : List Asset} {segments : List Segment}
  {a b : Asset}

/-- the later one of two assets runs first just when it overtakes the other -/
theorem sublist_runningOrder (hscan : Scanned d assets)
    (hsegments : segments? d position assets = some segments)
    (hdealt : Dealt d position assets segments) (hab : [a, b].Sublist assets) :
    (Overtakes position assets segments b a →
      [b, a].Sublist (runningOrder (segments.map (·.members)))) ∧
    (¬ Overtakes position assets segments b a →
      [a, b].Sublist (runningOrder (segments.map (·.members)))) := by
  have horder : runningOrder (segments.map (·.members)) =
      segments.flatMap fun s => deferLast s.members := List.flatMap_map _ _ segments
  rw [horder]
  have hne := ne_of_sublist hscan.nodup hab
  have hmem : a ∈ assets ∧ b ∈ assets := by simpa using hab.subset
  by_cases hshared : ∃ s ∈ segments, a ∈ s.members ∧ b ∈ s.members
  · obtain ⟨s, hs, ha, hb⟩ := hshared
    have hinside := sublist_flatMap_of_mem (fun s : Segment => deferLast s.members) hs
    refine ⟨fun h => ?_, fun h => ?_⟩
    · rcases h with h | ⟨hadef, hbdef, _⟩
      · -- an asynchronous script is alone in its segment
        have hsingle := hdealt.alone s hs a ha h.2.1
        rw [hsingle] at hb
        exact absurd (List.mem_singleton.mp hb).symm hne
      · exact (sublist_deferLast_of_ne hb ha hbdef hadef).trans hinside
    · have hpair : [a, b].Sublist s.members :=
        (sublist_or_sublist ha hb hne).resolve_right fun hswap =>
          not_sublist_swap hscan.nodup hab (hswap.trans (hdealt.sublist s hs))
      refine (sublist_deferLast hpair fun hadef => ?_).trans hinside
      cases hbdef : b.deferred with
      | true => rfl
      | false => exact absurd (.inr ⟨hadef, hbdef, s, hs, ha, hb⟩) h
  · obtain ⟨s, hs, ha⟩ := hdealt.exists_segment hmem.1
    obtain ⟨s', hs', hb⟩ := hdealt.exists_segment hmem.2
    have hapart : s ≠ s' := fun e => hshared ⟨s, hs, ha, e ▸ hb⟩
    obtain ⟨hbefore, hbehind⟩ := sublist_segments hscan hsegments hab hs ha hs' hb hapart
    have ha' := (perm_deferLast s.members).mem_iff.mpr ha
    have hb' := (perm_deferLast s'.members).mem_iff.mpr hb
    refine ⟨fun h => ?_, fun h => ?_⟩
    · rcases h with h | ⟨_, _, hsame⟩
      · exact sublist_flatMap_of_pair (fun s : Segment => deferLast s.members) (hbefore h) hb' ha'
      · exact absurd hsame hshared
    · exact sublist_flatMap_of_pair (fun s : Segment => deferLast s.members)
        (hbehind fun hg => h (.inl hg)) ha' hb'

end

/-! ## the module that is kept -/

/-- of the modules of a file, the groups have this one and no other -/
structure KeptAs (groups : List Group) (assets : List Asset) (file : NodeId) (a : Asset) : Prop where
  mem : a ∈ assets
  moduleFile : a.moduleFile? = some file
  alone : ∃ g ∈ groups, g.kind = .module ∧ g.members = [a]
  dropped : ∀ b ∈ assets, b.moduleFile? = some file → b ≠ a → ∀ g ∈ groups, b ∉ g.members

section
variable {l : List Asset} {a b : Asset} {file : NodeId}

theorem Group.Compatible.of_module {g : Group} (h : g.Compatible) (ha : a ∈ g.members)
    (hfile : a.moduleFile? = some file) : g.kind = .module ∧ g.members = [a] := by
  obtain ⟨hmod, hsource⟩ := Asset.moduleFile?_eq_some.mp hfile
  obtain ⟨kind, members⟩ := g
  cases kind with
  | standalone =>
    obtain ⟨b, rfl, habs⟩ := h
    rw [← List.mem_singleton.mp ha, hsource] at habs
    cases habs
  | module =>
    obtain ⟨b, rfl, _⟩ := h
    rw [List.mem_singleton.mp ha]
    exact ⟨rfl, rfl⟩
  | merged deferred async =>
    cases async with
    | true =>
      obtain ⟨b, rfl, _, hb, _⟩ := h
      rw [← List.mem_singleton.mp ha, hmod] at hb
      cases hb
    | false =>
      have hplain := (h.2 a ha).1.2.1
      rw [hmod] at hplain
      cases hplain

theorem of_find?_moduleFile (h : l.find? (·.moduleFile? == some file) = some a) :
    a ∈ l ∧ a.moduleFile? = some file := by
  obtain ⟨hfile, front, back, rfl, _⟩ := List.find?_eq_some_iff_append.mp h
  exact ⟨List.mem_append_right _ List.mem_cons_self, beq_iff_eq.mp hfile⟩

/-- the first module of a file stands before the others -/
theorem pair_sublist_of_find? (h : l.find? (·.moduleFile? == some file) = some a) (hb : b ∈ l)
    (hfile : b.moduleFile? = some file) (hne : b ≠ a) : [a, b].Sublist l := by
  obtain ⟨_, front, back, rfl, hfront⟩ := List.find?_eq_some_iff_append.mp h
  rcases List.mem_append.mp hb with hb | hb
  · have hno := hfront b hb
    rw [hfile, beq_self_eq_true] at hno
    cases hno
  · have hback := (List.mem_cons.mp hb).resolve_left hne
    exact List.sublist_append_of_sublist_right ((List.singleton_sublist.mpr hback).cons_cons a)

/-- the first module of a file in the running order is kept -/
theorem keptAs_of_find? {members : List (List Asset)} {assets : List Asset}
    (hperm : (runningOrder members).Perm assets) (hnodup : assets.Nodup)
    (h : (runningOrder members).find? (·.moduleFile? == some file) = some a) :
    KeptAs (Family.script.groupsOf [] members).flatten assets file a := by
  obtain ⟨hmem, hfile⟩ := of_find?_moduleFile h
  have hmembers := members_flatten_groupsOf (hperm.nodup_iff.mpr hnodup)
  have hfirst : ∀ b : Asset, b.moduleFile? = some file →
      (b.isFirst (runningOrder members) = true ↔ b = a) := fun b hb => by
    unfold Asset.isFirst
    rw [hb, Option.all_some, h, beq_iff_eq, Option.some.injEq, eq_comm]
  refine ⟨hperm.mem_iff.mp hmem, hfile, ?_, ?_⟩
  · have hin : a ∈ (Family.script.groupsOf [] members).flatten.flatMap (·.members) := by
      rw [hmembers]
      exact List.mem_filter.mpr ⟨hmem, (hfirst a hfile).mpr rfl⟩
    obtain ⟨g, hg, ha⟩ := List.mem_flatMap.mp hin
    obtain ⟨gs, hgs, hg'⟩ := List.mem_flatten.mp hg
    exact ⟨g, hg, (compatible_groupsOf [] members gs hgs g hg').of_module ha hfile⟩
  · intro b _ hb hne g hg hbg
    have hin : b ∈ (Family.script.groupsOf [] members).flatten.flatMap (·.members) :=
      List.mem_flatMap.mpr ⟨g, hg, hbg⟩
    rw [hmembers] at hin
    exact hne ((hfirst b hb).mp (List.mem_filter.mp hin).2)

theorem Dealt.perm_runningOrder {d : Document} {position : Position} {assets : List Asset}
    {segments : List Segment} (h : Dealt d position assets segments) :
    (runningOrder (segments.map (·.members))).Perm assets := by
  refine (SiteBundle.perm_runningOrder _).trans ?_
  rw [← List.flatMap_def]
  exact h.once

theorem not_overtakes_self {position : Position} {assets : List Asset} {segments : List Segment} :
    ¬ Overtakes position assets segments a a := by
  rintro (⟨_, hasync, hno, _⟩ | ⟨hdef, hno, _⟩)
  · rw [hasync] at hno
    cases hno
  · rw [hdef] at hno
    cases hno

end

/-- **Of the modules of a file one is kept, and it is the first of the document unless another one
overtakes that.** -/
theorem keptAs_first_iff {d : Document} {assets : List Asset} (h : Scanned d assets)
    (position : Position) :
    ∃ segments, segments? d position assets = some segments ∧
      ∀ file first, assets.find? (·.moduleFile? == some file) = some first → ∃ kept,
        KeptAs (Family.script.groupsOf [] (segments.map (·.members))).flatten assets file kept ∧
        (kept = first ∨ Overtakes position assets segments kept first) ∧
        (kept = first ↔ ∀ b ∈ assets, b.moduleFile? = some file →
          ¬ Overtakes position assets segments b first) := by
  obtain ⟨segments, hs, hdealt⟩ := dealt_segments? h position
  refine ⟨segments, hs, fun file first hfirst => ?_⟩
  have hperm := hdealt.perm_runningOrder
  have hnodup := hperm.nodup_iff.mpr h.nodup
  obtain ⟨hmem, hfile⟩ := of_find?_moduleFile hfirst
  obtain ⟨kept, hkept⟩ : ∃ kept, (runningOrder (segments.map (·.members))).find?
      (·.moduleFile? == some file) = some kept := by
    refine Option.isSome_iff_exists.mp (List.find?_isSome.mpr ?_)
    exact ⟨first, hperm.mem_iff.mpr hmem, beq_iff_eq.mpr hfile⟩
  have hkeptAs := keptAs_of_find? hperm h.nodup hkept
  have hbefore : kept = first ∨ Overtakes position assets segments kept first := by
    by_cases hne : kept = first
    · exact .inl hne
    · refine .inr (Classical.byContradiction fun hno => ?_)
      have hpair := pair_sublist_of_find? hfirst hkeptAs.mem hkeptAs.moduleFile hne
      refine not_sublist_swap hnodup ((sublist_runningOrder h hs hdealt hpair).2 hno) ?_
      exact pair_sublist_of_find? hkept (hperm.mem_iff.mpr hmem) hfile (Ne.symm hne)
  refine ⟨kept, hkeptAs, hbefore, ?_, fun hno => ?_⟩
  · rintro rfl b hb hbfile hover
    have hne : b ≠ kept := fun e => not_overtakes_self (e ▸ hover)
    have hpair := pair_sublist_of_find? hfirst hb hbfile hne
    refine not_sublist_swap hnodup ((sublist_runningOrder h hs hdealt hpair).1 hover) ?_
    exact pair_sublist_of_find? hkept (hperm.mem_iff.mpr hb) hbfile hne
  · exact hbefore.resolve_right (hno kept hkeptAs.mem hkeptAs.moduleFile)

/-- a document with three scripts -/
def Document.ofScripts : Document :=
  .ofText "<script></script><script></script><script></script>".toList false

/-- its scripts: one to merge, an asynchronous module and a module of the same file -/
def overtakenModules : List Asset :=
  (Document.ofScripts.elements .script).zipWith (fun e (source, async, module) =>
      ⟨e, source, module, async, module⟩)
    [(.inline, false, false), (.file 1, true, true), (.file 1, false, true)]

theorem scanned_overtakenModules : Scanned .ofScripts overtakenModules := by
  refine ⟨fun a ha => ⟨.script, ?_⟩, by decide, by decide⟩
  revert a
  decide

/-- at the end of the document, the asynchronous one comes behind the other -/
theorem runningOrder_overtakenModules :
    ∃ first later, overtakenModules.find? (·.moduleFile? == some 1) = some first ∧
      (runningOrder ((anchoredSegments .ofScripts ⟨.file, .stop⟩ overtakenModules).map
        (·.members))).find? (·.moduleFile? == some 1) = some later ∧
      first.element.start < later.element.start ∧ first.async = true ∧ later.async = false := by
  rw [anchoredSegments_eq, List.mergeSort_of_pairwise (by decide)]
  exact ⟨_, _, rfl, rfl, by decide⟩

/-- the module that comes later in the document is kept, and the first one is dropped -/
theorem keptAs_first_fails :
    ∃ segments first later,
      segments? .ofScripts (.anchored ⟨.file, .stop⟩) overtakenModules = some segments ∧
      overtakenModules.find? (·.moduleFile? == some 1) = some first ∧
      first.element.start < later.element.start ∧
      KeptAs (Family.script.groupsOf [] (segments.map (·.members))).flatten overtakenModules 1
        later ∧
      ¬ KeptAs (Family.script.groupsOf [] (segments.map (·.members))).flatten overtakenModules 1
        first := by
  obtain ⟨first, later, hfirst, hlater, hlt, _⟩ := runningOrder_overtakenModules
  have hdealt := dealt_anchoredSegments .ofScripts ⟨.file, .stop⟩ overtakenModules
  have hkept := keptAs_of_find? hdealt.perm_runningOrder scanned_overtakenModules.nodup hlater
  refine ⟨_, first, later, rfl, hfirst, hlt, hkept, fun h => ?_⟩
  have hne : first ≠ later := fun e => Nat.lt_irrefl _ (e ▸ hlt)
  obtain ⟨g, hg, _, hmembers⟩ := h.alone
  refine hkept.dropped first h.mem h.moduleFile hne g hg ?_
  rw [hmembers]
  exact List.mem_singleton.mpr rfl

/-- the first one is overtaken, so another one is kept -/
theorem keptAs_first_iff_overtaken :
    Scanned .ofScripts overtakenModules ∧ ∃ segments first kept,
      segments? .ofScripts (.anchored ⟨.file, .stop⟩) overtakenModules = some segments ∧
      overtakenModules.find? (·.moduleFile? == some 1) = some first ∧
      KeptAs (Family.script.groupsOf [] (segments.map (·.members))).flatten overtakenModules 1
        kept ∧
      kept ≠ first ∧
      Overtakes (.anchored ⟨.file, .stop⟩) overtakenModules segments kept first := by
  obtain ⟨segments, hs, hfirst⟩ :=
    keptAs_first_iff scanned_overtakenModules (.anchored ⟨.file, .stop⟩)
  obtain ⟨first, later, h, hlater, hlt, hasync, hlast⟩ := runningOrder_overtakenModules
  obtain ⟨kept, hkept, hbefore, hiff⟩ := hfirst 1 first h
  obtain ⟨hmem, hfile⟩ := of_find?_moduleFile hlater
  have hlaterMem := (dealt_anchoredSegments .ofScripts ⟨.file, .stop⟩ overtakenModules)
    |>.perm_runningOrder.mem_iff.mp hmem
  have hover : Overtakes (.anchored ⟨.file, .stop⟩) overtakenModules segments later first := by
    obtain ⟨c, hc⟩ : ∃ c ∈ overtakenModules, c.async = false ∧ c.element.start ≤ 0 := by
      decide
    exact .inl ⟨⟨_, rfl⟩, hasync, hlast, c, hc.1, hc.2.1, Nat.le_trans hc.2.2 (Nat.zero_le _)⟩
  have hne : kept ≠ first := fun e => hiff.mp e later hlaterMem hfile hover
  exact ⟨scanned_overtakenModules, segments, first, kept, hs, h, hkept, hne,
    hbefore.resolve_left hne⟩

end SiteBundle
