import SiteBundle.Proofs.Markup.Plan
import SiteBundle.Proofs.Markup.Stretch

/-!
# Plans that remove elements

A plan that removes elements cuts the ranges that go with them.  What it removes is told by a
predicate on offsets (`Removes`): all of each element, and what else is removed is layout beside an
element that is alone.  From this alone follows what such a plan does to another element of the text
(`Removes.free_iff`): it cuts nothing out of it exactly when none of the removed elements meets it.

`removes_plan` says that plans of this kind exist: their cuts are the ranges `Element.bounds`.
-/

namespace SiteBundle

open Text

namespace Element

/-- the offset lies in the element -/
def Holds (e : Element) (o : Nat) : Prop := e.start ≤ o ∧ o < e.stop

/-- the elements have an offset in common -/
def Meets (e m : Element) : Prop := e.start < m.stop ∧ m.start < e.stop

end Element

/-- removing the elements of a text removes these offsets -/
structure Removes (t : Text) (elements : List Element) (removed : Nat → Bool) : Prop where
  stands : ∀ e ∈ elements, e.Stands t
  holds : ∀ e ∈ elements, ∀ o, e.Holds o → removed o = true
  only : ∀ o, removed o = true → ∃ e ∈ elements, e.Holds o ∨ e.Alone t ∧ e.Beside t o

namespace Removes
variable {t : Text} {elements : List Element} {removed : Nat → Bool} (h : Removes t elements removed)
include h

/-- outside the elements only layout is removed -/
theorem layout {p : Nat × Char} (hp : p ∈ places 0 t) (hr : removed p.1 = true) :
    (∃ e ∈ elements, e.Holds p.1) ∨
      isGap p.2 = true ∧ ∃ e ∈ elements, e.Alone t ∧ e.Beside t p.1 := by
  obtain ⟨e, he, hholds | ⟨halone, hbeside⟩⟩ := h.only p.1 hr
  · exact .inl ⟨e, he, hholds⟩
  · exact .inr ⟨halone p hp hbeside, e, he, halone, hbeside⟩

/-- the layout removed with an element never belongs to another stretch -/
theorem meets_of_removed {x : Stretch} (hx : x.Stands t) {o : Nat} (ho : x.Holds o)
    (hr : removed o = true) : ∃ m ∈ elements, x.Meets m := by
  obtain ⟨m, hm, hin | ⟨halone, hbeside⟩⟩ := h.only o hr
  · exact ⟨m, hm, Nat.lt_of_le_of_lt ho.1 hin.2, Nat.lt_of_le_of_lt hin.1 ho.2⟩
  · refine ⟨m, hm, Classical.byContradiction fun hno => ?_⟩
    have hm' := (h.stands m hm).start_lt_stop
    have hx' := hx.start_lt_stop
    have hcase : m.stop ≤ x.start ∨ x.stop ≤ m.start := by
      rcases Nat.lt_or_ge x.start m.stop with h1 | h1
      · exact .inr (Nat.not_lt.mp fun h2 => hno ⟨h1, h2⟩)
      · exact .inl h1
    obtain ⟨h1, h2⟩ := ho
    rcases hbeside with ⟨hlow, hline⟩ | ⟨hhigh, hline⟩
    · -- then the last character of the stretch would be layout, too, with the element behind it
      obtain ⟨l, c, hl, ⟨h3, h4⟩, hmax, hc⟩ := hx.last
      have hbehind : ∀ p ∈ places 0 t, l < p.1 → o < p.1 := by
        intro p hp h5
        refine Nat.lt_of_not_le fun h6 => ?_
        have h7 := hmax p hp ⟨by omega, by omega⟩
        omega
      rcases hc with hc | hend
      · have hgap : isGap c = true := halone _ hl
          (.inl ⟨by show l < m.start; omega, fun p hp h5 h6 => hline p hp (hbehind p hp h5) h6⟩)
        rw [hc] at hgap
        cases hgap
      · have hsize := (bounds_of_mem_places (h.stands m hm).first).2
        replace hsize : m.start < 0 + size t := hsize
        omega
    · -- then the first character of the stretch would be layout, too
      obtain ⟨c, hf, hc⟩ := hx.first
      have hgap : isGap c = true := halone _ hf
        (.inr ⟨by show m.stop ≤ x.start; omega,
          fun p hp h3 h4 => hline p hp h3 (by replace h4 : p.1 < x.start := h4; omega)⟩)
      rw [hc] at hgap
      cases hgap

theorem exists_removed {x : Stretch} {m : Element} (hx : x.Stands t) (hm : m ∈ elements)
    (hmeets : x.Meets m) : ∃ p ∈ places 0 t, x.Holds p.1 ∧ removed p.1 = true := by
  have hx' := hx.start_lt_stop
  have hm' := (h.stands m hm).start_lt_stop
  obtain ⟨h1, h2⟩ := hmeets
  rcases Nat.le_total m.start x.start with h3 | h3
  · obtain ⟨c, hf, _⟩ := hx.first
    exact ⟨_, hf, ⟨Nat.le_refl _, hx'⟩, h.holds m hm _ ⟨h3, h1⟩⟩
  · exact ⟨_, (h.stands m hm).first, ⟨h3, h2⟩, h.holds m hm _ ⟨Nat.le_refl _, hm'⟩⟩

theorem free_iff {x : Stretch} (hx : x.Stands t) :
    (∀ p ∈ places 0 t, x.Holds p.1 → removed p.1 = false) ↔ ∀ m ∈ elements, ¬ x.Meets m := by
  constructor
  · intro hfree m hm hmeets
    obtain ⟨p, hp, hin, hr⟩ := h.exists_removed hx hm hmeets
    rw [hfree p hp hin] at hr
    cases hr
  · intro hno p _ hin
    cases hr : removed p.1 with
    | false => rfl
    | true =>
      obtain ⟨m, hm, hmeets⟩ := h.meets_of_removed hx hin hr
      exact absurd hmeets (hno m hm)

end Removes

/-! ## plans -/

def Span.cut (s : Span) : Edit := .cut s.start (s.stop - s.start)

namespace Draft

theorem mem_cuts_plan {base : Text} {edits : List Edit} {c : Nat × Nat} :
    c ∈ (plan base edits).cuts ↔
      ∃ start length, .cut start length ∈ edits ∧ length ≠ 0 ∧ c = (start, start + length) := by
  rw [plan_eq]
  unfold cuts
  rw [List.mem_filterMap]
  constructor
  · rintro ⟨e, he, hc⟩
    obtain ⟨he, hidle⟩ := List.mem_filter.mp he
    cases e with
    | cut start length =>
      cases hc
      exact ⟨start, length, he, by simpa [Edit.isIdle] using hidle, rfl⟩
    | insert place text => cases hc
  · rintro ⟨start, length, he, hne, rfl⟩
    exact ⟨.cut start length, List.mem_filter.mpr ⟨he, by simpa [Edit.isIdle] using hne⟩, rfl⟩

theorem covered_plan {base : Text} {edits : List Edit} {o : Nat} :
    covered (plan base edits).cuts o = true ↔
      ∃ start length, .cut start length ∈ edits ∧ start ≤ o ∧ o < start + length := by
  rw [covered_iff]
  constructor
  · rintro ⟨c, hc, hin⟩
    obtain ⟨start, length, he, _, rfl⟩ := mem_cuts_plan.mp hc
    exact ⟨start, length, he, hin⟩
  · rintro ⟨start, length, he, h1, h2⟩
    exact ⟨_, mem_cuts_plan.mpr ⟨start, length, he, by omega, rfl⟩, h1, h2⟩

theorem removes_plan {t : Text} {elements : List Element} {edits : List Edit}
    (stands : ∀ e ∈ elements, e.Stands t)
    (all : ∀ e ∈ elements, ∃ w, (e.bounds t w).cut ∈ edits)
    (only : ∀ start length, .cut start length ∈ edits →
      ∃ e ∈ elements, ∃ w, (e.bounds t w).cut = .cut start length) :
    Removes t elements (covered (plan t edits).cuts) := by
  refine ⟨stands, fun e he o ho => ?_, fun o hr => ?_⟩
  · obtain ⟨w, hw⟩ := all e he
    have hr := rangeOf_bounds (stands e he) w
    have h1 := hr.start_le
    have h2 := hr.le_stop
    obtain ⟨h3, h4⟩ := ho
    exact covered_plan.mpr ⟨_, _, hw, by omega, by omega⟩
  · obtain ⟨start, length, hc, h1, h2⟩ := covered_plan.mp hr
    obtain ⟨e, he, w, hw⟩ := only start length hc
    have hr := rangeOf_bounds (stands e he) w
    have h3 : (e.bounds t w).start = start := (Edit.cut.inj hw).1
    have h4 : (e.bounds t w).stop - (e.bounds t w).start = length := (Edit.cut.inj hw).2
    refine ⟨e, he, ?_⟩
    by_cases hin : e.start ≤ o ∧ o < e.stop
    · exact .inl hin
    · exact .inr (hr.beside o (by omega) (by omega) hin)

theorem fits_cut {t : Text} {e : Element} (h : e.Stands t) (w : Bool) :
    (e.bounds t w).cut.Fits t := by
  have hr := rangeOf_bounds h w
  have h1 := hr.start_le
  have h2 := hr.le_stop
  have h3 := h.start_lt_stop
  refine ⟨hr.boundary_start, ?_⟩
  show IsBoundary t ((e.bounds t w).start + ((e.bounds t w).stop - (e.bounds t w).start))
  rw [show (e.bounds t w).start + ((e.bounds t w).stop - (e.bounds t w).start) =
    (e.bounds t w).stop by omega]
  exact hr.boundary_stop

end Draft
end SiteBundle
