import SiteBundle.Proofs.Markup.Applying
import SiteBundle.Proofs.Markup.Scraps
import SiteBundle.Proofs.StableSort

/-!
# Planned edits, whatever their order

`Draft.plan` adds one edit after the other to a draft.  Main statement (`result?_plan`): with all
offsets on boundaries of the base, the result is one walk over the base, every insert is in it once,
and another order of the same edits gives the same text unless it exchanges inserts that land at one
offset.

* `pairwise_schedule`   no edit of the schedule reaches beyond the places of those before it;
* `result?_eq_walk`     the result of any draft of nonempty edits on boundaries;
* `Draft.plan`, `result?_plan`   the same for a sequence of edits.
-/

namespace SiteBundle

open Text

namespace Draft

/-! ## the schedule -/

section
variable (d : Draft)

def cutEdits : List Edit := d.mergedCuts.map fun c => .cut c.1 (c.2 - c.1)

def insertEdits : List Edit := d.inserts.map fun i => .insert i.1 i.2

theorem schedule_eq : d.schedule =
    (d.cutEdits ++ d.insertEdits.reverse).mergeSort fun a b => decide (place b ≤ place a) := rfl

theorem mem_schedule {e : Edit} : e ∈ d.schedule ↔ e ∈ d.cutEdits ∨ e ∈ d.insertEdits := by
  rw [schedule_eq, List.mem_mergeSort, List.mem_append, List.mem_reverse]

/-- at one place the cuts come first, then the inserts, the last one first -/
theorem schedule_at (p : Nat) : d.schedule.filter (fun e => place e == p) =
    d.cutEdits.filter (fun e => place e == p) ++
      (d.insertEdits.filter fun e => place e == p).reverse := by
  rw [schedule_eq, filter_sort_desc, List.filter_append, List.filter_reverse]

theorem insert_of_mem_insertEdits {e : Edit} (h : e ∈ d.insertEdits) :
    ∃ i ∈ d.inserts, e = .insert i.1 i.2 := by
  obtain ⟨i, hi, rfl⟩ := List.mem_map.mp h
  exact ⟨i, hi, rfl⟩

theorem place_of_mem_inserts {i : Nat × Text} (h : i ∈ d.inserts) :
    ∃ p, .insert p i.2 ∈ d.edits ∧ i.1 = effectivePlace d.mergedCuts p := by
  obtain ⟨e, he, hi⟩ := List.mem_filterMap.mp h
  cases e with
  | cut start length => cases hi
  | insert p t => cases hi; exact ⟨p, he, rfl⟩

end

section
variable {d : Draft} (hne : ∀ c ∈ d.cuts, c.1 < c.2)
include hne

theorem cut_of_mem_cutEdits {e : Edit} (h : e ∈ d.cutEdits) :
    ∃ c ∈ d.mergedCuts, e = .cut c.1 (c.2 - c.1) ∧ place e = c.1 ∧ e.reach = c.2 := by
  obtain ⟨c, hc, rfl⟩ := List.mem_map.mp h
  have := nonempty_mergedCuts hne hc
  refine ⟨c, hc, rfl, rfl, ?_⟩
  show c.1 + (c.2 - c.1) = c.2
  omega

theorem pairwise_cutEdits : d.cutEdits.Pairwise fun a b => place a < place b := by
  refine List.pairwise_map.mpr ((pairwise_mergedCuts d).imp_of_mem fun {a b} ha _ hab => ?_)
  have := nonempty_mergedCuts hne ha
  show a.1 < b.1
  omega

/-- at one place, no edit of the schedule reaches beyond it but the last one to be a cut -/
theorem pairwise_schedule_at (p : Nat) :
    (d.schedule.filter fun e => place e == p).Pairwise fun a b => b.reach ≤ place a := by
  rw [schedule_at]
  refine List.pairwise_append.mpr ⟨?_, ?_, ?_⟩
  · -- there is at most one cut
    refine ((pairwise_cutEdits hne).filter _).imp_of_mem fun {a b} ha hb hab => ?_
    have ha := beq_iff_eq.mp (List.mem_filter.mp ha).2
    have hb := beq_iff_eq.mp (List.mem_filter.mp hb).2
    omega
  · refine List.pairwise_iff_forall_sublist.mpr fun {a b} h => ?_
    have ha := List.mem_filter.mp (List.mem_reverse.mp (h.subset List.mem_cons_self))
    have hb := List.mem_filter.mp (List.mem_reverse.mp (h.subset (by simp : b ∈ [a, b])))
    obtain ⟨i, _, rfl⟩ := d.insert_of_mem_insertEdits hb.1
    exact Nat.le_of_eq ((beq_iff_eq.mp hb.2).trans (beq_iff_eq.mp ha.2).symm)
  · intro a ha b hb
    have ha := List.mem_filter.mp ha
    have hb := List.mem_filter.mp (List.mem_reverse.mp hb)
    obtain ⟨i, _, rfl⟩ := d.insert_of_mem_insertEdits hb.1
    exact Nat.le_of_eq ((beq_iff_eq.mp hb.2).trans (beq_iff_eq.mp ha.2).symm)

theorem pairwise_schedule : d.schedule.Pairwise fun a b => b.reach ≤ place a := by
  have hsorted := pairwise_sort_desc place (d.cutEdits ++ d.insertEdits.reverse)
  rw [← schedule_eq] at hsorted
  refine List.pairwise_iff_forall_sublist.mpr fun {a b} h => ?_
  have hle : place b ≤ place a := List.pairwise_iff_forall_sublist.mp hsorted h
  by_cases heq : place a = place b
  · have hs := h.filter fun e => place e == place b
    rw [List.filter_cons_of_pos (by simp [heq]), List.filter_cons_of_pos (by simp),
      List.filter_nil] at hs
    exact List.pairwise_iff_forall_sublist.mp (pairwise_schedule_at hne (place b)) hs
  · have ha := d.mem_schedule.mp (h.subset List.mem_cons_self)
    have hb := d.mem_schedule.mp (h.subset (by simp : b ∈ [a, b]))
    rcases hb with hb | hb
    · obtain ⟨c, hc, rfl, hp, hr⟩ := cut_of_mem_cutEdits hne hb
      have nc := nonempty_mergedCuts hne hc
      rw [hp] at hle heq
      rw [hr]
      rcases ha with ha | ha
      · obtain ⟨c', hc', rfl, hp', hr'⟩ := cut_of_mem_cutEdits hne ha
        have nc' := nonempty_mergedCuts hne hc'
        rw [hp'] at hle heq ⊢
        rcases eq_or_related_of_pairwise (pairwise_mergedCuts d) hc hc' with rfl | h1 | h1
        · exact absurd rfl heq
        · exact h1
        · omega
      · obtain ⟨i, hi, rfl⟩ := d.insert_of_mem_insertEdits ha
        obtain ⟨p, _, he⟩ := d.place_of_mem_inserts hi
        have hout := effectivePlace_not_inside d p hc
        rw [← he] at hout
        replace hle : c.1 ≤ i.1 := hle
        replace heq : i.1 ≠ c.1 := heq
        show c.2 ≤ i.1
        omega
    · obtain ⟨i, _, rfl⟩ := d.insert_of_mem_insertEdits hb
      exact hle

/-! ## the result -/

theorem ranges_schedule (p : Nat) :
    covered (d.schedule.reverse.filterMap Edit.range?) p = covered d.cuts p := by
  rw [← covered_mergedCuts hne]
  refine covered_congr (fun c => ?_) p
  rw [List.mem_filterMap]
  constructor
  · rintro ⟨e, he, hr⟩
    rcases d.mem_schedule.mp (List.mem_reverse.mp he) with he | he
    · obtain ⟨b, hb, rfl, _, hreach⟩ := cut_of_mem_cutEdits hne he
      have e : c = (b.1, b.1 + (b.2 - b.1)) := (Option.some.inj hr).symm
      replace hreach : b.1 + (b.2 - b.1) = b.2 := hreach
      rw [e, hreach]
      exact hb
    · obtain ⟨i, _, rfl⟩ := d.insert_of_mem_insertEdits he
      cases hr
  · intro hc
    have nc := nonempty_mergedCuts hne hc
    refine ⟨.cut c.1 (c.2 - c.1), ?_, ?_⟩
    · exact List.mem_reverse.mpr (d.mem_schedule.mpr (.inl (List.mem_map_of_mem hc)))
    · show some (c.1, c.1 + (c.2 - c.1)) = some c
      rw [show c.1 + (c.2 - c.1) = c.2 by omega]

omit hne in
theorem filter_insertions (l : List Edit) (p : Nat) :
    (l.filterMap Edit.insertion?).filter (fun i => i.1 == p) =
      (l.filter fun e => place e == p).filterMap Edit.insertion? := by
  induction l with
  | nil => rfl
  | cons e l ih =>
    cases e with
    | cut start length =>
      rw [List.filterMap_cons_none rfl, ih, List.filter_cons]
      split
      · rw [List.filterMap_cons_none rfl]
      · rfl
    | insert q t =>
      have hcons : ∀ r : List Edit, (Edit.insert q t :: r).filterMap Edit.insertion? =
          (q, t) :: r.filterMap Edit.insertion? := fun _ => rfl
      rw [hcons, List.filter_cons, List.filter_cons]
      show (if (q == p) = true then _ else _) = List.filterMap _ (if (q == p) = true then _ else _)
      split
      · rw [hcons, ih]
      · exact ih

omit hne in
theorem insertions_insertEdits : d.insertEdits.filterMap Edit.insertion? = d.inserts := by
  unfold insertEdits
  rw [List.filterMap_map]
  show List.filterMap (fun i : Nat × Text => some i) _ = _
  rw [List.filterMap_eq_map', List.map_id']

omit hne in
theorem insertions_schedule (p : Nat) :
    insertedAt (d.schedule.reverse.filterMap Edit.insertion?) p = insertedAt d.inserts p := by
  unfold insertedAt
  congr 1
  have hcuts : (d.cutEdits.filter fun e => place e == p).filterMap Edit.insertion? = [] := by
    refine List.filterMap_eq_nil_iff.mpr fun e he => ?_
    obtain ⟨c, _, rfl⟩ := List.mem_map.mp (List.mem_filter.mp he).1
    rfl
  rw [filter_insertions, List.filter_reverse, schedule_at, List.reverse_append,
    List.reverse_reverse, List.filterMap_append, List.filterMap_reverse, hcuts, List.reverse_nil,
    List.append_nil, ← filter_insertions, insertions_insertEdits]

section
variable (fits : ∀ e ∈ d.edits, e.Fits d.base)
include fits

theorem boundary_mergedCuts {c : Nat × Nat} (hc : c ∈ d.mergedCuts) :
    IsBoundary d.base c.1 ∧ IsBoundary d.base c.2 := by
  obtain ⟨⟨a, ha, ha1⟩, b, hb, hb2⟩ := (chained_mergedCuts hne hc).ends
  obtain ⟨e, he, hr⟩ := List.mem_filterMap.mp ha
  obtain ⟨e', he', hr'⟩ := List.mem_filterMap.mp hb
  constructor
  · cases e with
    | cut start length => cases hr; exact ha1 ▸ (fits _ he).1
    | insert p t => cases hr
  · cases e' with
    | cut start length => cases hr'; exact hb2 ▸ (fits _ he').2
    | insert p t => cases hr'

theorem boundary_effectivePlace {p : Nat} (hp : IsBoundary d.base p) :
    IsBoundary d.base (effectivePlace d.mergedCuts p) := by
  rcases effectivePlace_cases d.mergedCuts p with ⟨c, hc, _, _, e⟩ | ⟨_, e⟩
  · rw [e]
    exact (boundary_mergedCuts hne fits hc).1
  · rw [e]
    exact hp

theorem boundary_inserts {i : Nat × Text} (hi : i ∈ d.inserts) : IsBoundary d.base i.1 := by
  obtain ⟨p, hp, e⟩ := d.place_of_mem_inserts hi
  rw [e]
  exact boundary_effectivePlace hne fits (fits _ hp)

theorem fits_schedule : ∀ e ∈ d.schedule, e.Fits d.base := by
  intro e he
  rcases d.mem_schedule.mp he with he | he
  · obtain ⟨c, hc, rfl, _, hr⟩ := cut_of_mem_cutEdits hne he
    replace hr : c.1 + (c.2 - c.1) = c.2 := hr
    obtain ⟨h1, h2⟩ := boundary_mergedCuts hne fits hc
    refine ⟨h1, ?_⟩
    rw [hr]
    exact h2
  · obtain ⟨i, hi, rfl⟩ := d.insert_of_mem_insertEdits he
    exact boundary_inserts hne fits hi

/-- **A draft of nonempty edits on boundaries gives a text, and that text is the walk.** -/
theorem result?_eq_walk : d.result? = some d.walk := by
  obtain ⟨t, h1, h2⟩ := applied_run (applied_nil d.base) (fits_schedule hne fits)
    (pairwise_schedule hne) (fun _ _ _ ha => absurd ha List.not_mem_nil)
  rw [List.append_nil] at h2
  have ht := h2 [] d.base rfl fun _ _ => Nat.zero_le _
  have e : t = d.walk := by
    rw [ht]
    exact walkFrom_congr (fun p _ => ranges_schedule hne p) (fun p _ => insertions_schedule p)
  rw [← e]
  exact h1

end
end

theorem result?_of_isEmpty {d : Draft} (h : d.isEmpty = true) : d.result? = some d.base := by
  obtain ⟨base, edits⟩ := d
  have hnil : edits = [] := List.isEmpty_iff.mp h
  subst hnil
  unfold result? schedule mergedCuts inserts cuts
  simp

/-! ## plans -/

/-- one more edit; an empty one is no edit -/
def add (d : Draft) : Edit → Draft
  | .cut start length => d.cut start length
  | .insert p t => d.insert p t

def plan (base : Text) (edits : List Edit) : Draft := edits.foldl add (.of base)

/-- what is inserted at one offset, in the order it was added -/
def insertsAt (d : Draft) (o : Nat) : List (Nat × Text) := d.inserts.filter fun i => i.1 == o

def scraps (d : Draft) : List (Scrap Text) := scrapsFrom d.cuts d.inserts 0 d.base

end Draft

/-- the edit does nothing -/
def Edit.isIdle : Edit → Bool
  | .cut _ length => length == 0
  | .insert _ t => t.isEmpty

def Edit.text? (e : Edit) : Option Text := e.insertion?.map (·.2)

namespace Draft

theorem add_eq (d : Draft) (e : Edit) :
    d.add e = { d with edits := d.edits ++ [e].filter fun e => !e.isIdle } := by
  cases e with
  | cut start length =>
    show (if length = 0 then d else { d with edits := d.edits ++ [.cut start length] }) = _
    by_cases h : length = 0
    · rw [if_pos h, List.filter_cons_of_neg (by simp [Edit.isIdle, h])]
      show d = { d with edits := d.edits ++ [] }
      rw [List.append_nil]
    · rw [if_neg h, List.filter_cons_of_pos (by simp [Edit.isIdle, h])]
      rfl
  | insert p t =>
    show (if t.isEmpty then d else { d with edits := d.edits ++ [.insert p t] }) = _
    by_cases h : t.isEmpty = true
    · rw [if_pos h, List.filter_cons_of_neg (by simp [Edit.isIdle, h])]
      show d = { d with edits := d.edits ++ [] }
      rw [List.append_nil]
    · rw [if_neg h, List.filter_cons_of_pos (by simpa [Edit.isIdle] using h)]
      rfl

theorem foldl_add (edits : List Edit) (d : Draft) :
    edits.foldl add d = { d with edits := d.edits ++ edits.filter fun e => !e.isIdle } := by
  induction edits generalizing d with
  | nil =>
    show d = { d with edits := d.edits ++ [] }
    rw [List.append_nil]
  | cons e edits ih =>
    rw [List.foldl_cons, ih, add_eq]
    show Draft.mk d.base (d.edits ++ [e].filter _ ++ edits.filter _) = _
    rw [List.append_assoc, ← List.filter_append]
    rfl

theorem plan_eq (base : Text) (edits : List Edit) :
    plan base edits = ⟨base, edits.filter fun e => !e.isIdle⟩ := foldl_add edits (.of base)

theorem nonempty_cuts {d : Draft} (h : ∀ e ∈ d.edits, e.isIdle = false) : ∀ c ∈ d.cuts, c.1 < c.2 := by
  intro c hc
  obtain ⟨e, he, hr⟩ := List.mem_filterMap.mp hc
  cases e with
  | cut start length =>
    cases hr
    have hi : (length == 0) = false := h _ he
    rw [beq_eq_false_iff_ne] at hi
    show start < start + length
    omega
  | insert p t => cases hr

section
variable (base : Text) (edits : List Edit)

theorem base_plan : (plan base edits).base = base := by
  rw [plan_eq]

theorem nonempty_cuts_plan : ∀ c ∈ (plan base edits).cuts, c.1 < c.2 := by
  refine nonempty_cuts fun e he => ?_
  rw [plan_eq] at he
  simpa using (List.mem_filter.mp he).2

variable {base edits} (fits : ∀ e ∈ edits, e.Fits base)
include fits

theorem fits_plan : ∀ e ∈ (plan base edits).edits, e.Fits (plan base edits).base := by
  intro e he
  rw [plan_eq] at he ⊢
  exact fits e (List.mem_filter.mp he).1

theorem result?_plan_eq_walk : (plan base edits).result? = some (plan base edits).walk :=
  result?_eq_walk (nonempty_cuts_plan base edits) (fits_plan fits)

theorem boundary_effectivePlace_plan {p : Nat} (hp : IsBoundary base p) :
    IsBoundary base (effectivePlace (plan base edits).mergedCuts p) := by
  have hb := boundary_effectivePlace (nonempty_cuts_plan base edits) (fits_plan fits)
    ((base_plan base edits).symm ▸ hp)
  rwa [base_plan] at hb

theorem boundary_inserts_plan {i : Nat × Text} (hi : i ∈ (plan base edits).inserts) :
    IsBoundary base i.1 := by
  have hb := boundary_inserts (nonempty_cuts_plan base edits) (fits_plan fits) hi
  rwa [base_plan] at hb

end

/-- the walk is its scraps, and they hold every insert once -/
theorem walk_eq_scraps (d : Draft) : d.walk = d.scraps.flatMap (Scrap.text id) := by
  have h := walkFrom_eq_flatMap d.cuts d.inserts id 0 d.base
  rwa [show d.inserts.map (fun i => (i.1, id i.2)) = d.inserts from List.map_id' _] at h

theorem texts_inserts (d : Draft) : d.inserts.map (·.2) = d.edits.filterMap Edit.text? := by
  unfold inserts
  rw [List.map_filterMap]
  congr 1
  funext e
  cases e <;> rfl

/-- **The result of a plan is one walk over the base.**  Where an insert lands is told by the merged
cuts alone; every insert is in the result once; and the order of the edits counts only among inserts
that land at one offset. -/
theorem result?_plan {base : Text} {edits : List Edit} (fits : ∀ e ∈ edits, e.Fits base) :
    (plan base edits).result? = some (plan base edits).walk ∧
      (∀ place landing, effectivePlace (plan base edits).mergedCuts place = landing ↔
        Lands (plan base edits).cuts place landing) ∧
      (plan base edits).walk = (plan base edits).scraps.flatMap (Scrap.text id) ∧
      ((plan base edits).scraps.filterMap Scrap.added?).Perm
        ((edits.filter fun e => !e.isIdle).filterMap Edit.text?) ∧
      ∀ edits' : List Edit, edits'.Perm edits →
        (∀ o, (plan base edits').insertsAt o = (plan base edits).insertsAt o) →
          (plan base edits').result? = (plan base edits).result? := by
  have hne := nonempty_cuts_plan base edits
  refine ⟨result?_plan_eq_walk fits, effectivePlace_eq_iff hne, walk_eq_scraps _, ?_, ?_⟩
  · have hp := added_scrapsFrom (plan base edits).cuts (plan base edits).inserts
      (plan base edits).base fun i hi => boundary_inserts hne (fits_plan fits) hi
    rw [texts_inserts, plan_eq] at hp
    rw [plan_eq]
    exact hp
  · intro edits' hperm hsame
    rw [result?_plan_eq_walk fits, result?_plan_eq_walk fun e he => fits e (hperm.mem_iff.mp he)]
    congr 1
    have hcuts : ∀ c, c ∈ (plan base edits').cuts ↔ c ∈ (plan base edits).cuts := by
      intro c
      rw [plan_eq, plan_eq]
      exact ((hperm.filter _).filterMap _).mem_iff
    unfold walk
    rw [base_plan, base_plan]
    refine walkFrom_congr (fun p _ => covered_congr hcuts p) (fun p _ => ?_)
    exact congrArg (fun l : List (Nat × Text) => l.flatMap (·.2)) (hsame p)

/-- overlapping cuts are one, and what is planned inside them lands where they start -/
theorem result?_plan_overlapping :
    (∀ e ∈ [Edit.cut 1 3, .insert 3 ['X'], .cut 2 4, .insert 6 ['Y'], .insert 1 ['Z']],
      e.Fits "abcdéfgh".toList) ∧
    (plan "abcdéfgh".toList
      [.cut 1 3, .insert 3 ['X'], .cut 2 4, .insert 6 ['Y'], .insert 1 ['Z']]).result? =
        some "aXZYfgh".toList := by
  have h : ∀ e ∈ [Edit.cut 1 3, .insert 3 ['X'], .cut 2 4, .insert 6 ['Y'], .insert 1 ['Z']],
      e.Fits "abcdéfgh".toList := by decide
  have hcuts : (plan "abcdéfgh".toList
      [.cut 1 3, .insert 3 ['X'], .cut 2 4, .insert 6 ['Y'], .insert 1 ['Z']]).cuts =
        [(1, 4), (2, 6)] := by decide +kernel
  refine ⟨h, (result?_plan h).1.trans (congrArg some ?_)⟩
  unfold walk inserts
  rw [hcuts, mergedCuts_of_sorted hcuts (by decide)]
  decide +kernel

end Draft
end SiteBundle
