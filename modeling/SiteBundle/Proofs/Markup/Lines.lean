import SiteBundle.Proofs.Markup.Scan
import SiteBundle.Proofs.Text.LineStarts

/-!
# The range that goes with an element

`Element.bounds` is the element's own range, or that and the rest of its lines.  The rest of its
lines is told by two predicates on offsets outside the element:

* `Element.Beside t o`   `o` is on a line of the element, or is the line feed at one of their ends;
* `Element.Alone t`      nothing but layout is beside the element.

`RangeOf` is all that is used of a range elsewhere: its ends are boundaries, the element lies in it,
and what else lies in it is beside an element that is alone (`rangeOf_bounds`).
-/

namespace SiteBundle

open Text

namespace Element

/-- outside the element, on one of its lines or at the line feed that ends or precedes them -/
def Beside (t : Text) (e : Element) (o : Nat) : Prop :=
  (o < e.start ∧ ∀ p ∈ places 0 t, o < p.1 → p.1 < e.start → p.2 ≠ '\n') ∨
    (e.stop ≤ o ∧ ∀ p ∈ places 0 t, e.stop ≤ p.1 → p.1 < o → p.2 ≠ '\n')

/-- nothing but layout shares the lines of the element -/
def Alone (t : Text) (e : Element) : Prop := ∀ p ∈ places 0 t, e.Beside t p.1 → isGap p.2 = true

end Element

/-! ## the two sides of a line -/

theorem size_reverse (t : Text) : size t.reverse = size t := by
  induction t with
  | nil => rfl
  | cons c t ih =>
    rw [List.reverse_cons, size_append, ih, size_cons, size_cons, size_nil]
    omega

/-- the end of a text, back to its last line feed -/
theorem lineBefore_cases (front : Text) : ∃ before side : Text, front = before ++ side ∧
    '\n' ∉ side ∧ (lineBefore front).blank = side.all isGap ∧
    (before = [] ∧ (lineBefore front).newline = none ∨
      ∃ b, before = b ++ ['\n'] ∧ (lineBefore front).newline = some (size b)) := by
  obtain ⟨hnot, hcase⟩ := firstLine_cases front.reverse
  have hblank : (lineBefore front).blank =
      (front.reverse.takeWhile (· != '\n')).reverse.all isGap := by
    rw [List.all_reverse]
    rfl
  rw [← List.mem_reverse] at hnot
  rcases hcase with ⟨h1, h2⟩ | ⟨rest, h1, h2⟩
  · refine ⟨[], _, ?_, hnot, hblank, .inl ⟨rfl, ?_⟩⟩
    · rw [← h1, List.reverse_reverse, List.nil_append]
    · unfold lineBefore
      simp only [h2, List.isEmpty_nil, if_true]
  · refine ⟨rest.reverse ++ ['\n'], _, ?_, hnot, hblank, .inr ⟨rest.reverse, rfl, ?_⟩⟩
    · have h := congrArg List.reverse h1
      rwa [List.reverse_reverse, List.reverse_append, List.reverse_cons] at h
    · unfold lineBefore
      simp only [h2, List.isEmpty_cons, Bool.false_eq_true, if_false]
      show some (1 + size rest - 1) = some (size rest.reverse)
      rw [size_reverse, Nat.add_sub_cancel_left]

/-- the beginning of a text, up to its first line feed -/
theorem lineAfter_cases (offset : Nat) (back : Text) : ∃ side after : Text, back = side ++ after ∧
    '\n' ∉ side ∧ (lineAfter offset back).blank = side.all isGap ∧
    (after = [] ∧ (lineAfter offset back).newline = none ∨
      ∃ a, after = '\n' :: a ∧ (lineAfter offset back).newline = some (offset + size side)) := by
  obtain ⟨hnot, hcase⟩ := firstLine_cases back
  rcases hcase with ⟨h1, h2⟩ | ⟨rest, h1, h2⟩
  · refine ⟨_, [], ?_, hnot, rfl, .inl ⟨rfl, ?_⟩⟩
    · rw [List.append_nil]
      exact h1
    · unfold lineAfter
      simp only [h2, List.isEmpty_nil, if_true]
  · refine ⟨_, '\n' :: rest, h1, hnot, rfl, .inr ⟨rest, rfl, ?_⟩⟩
    unfold lineAfter
    simp only [h2, List.isEmpty_cons, Bool.false_eq_true, if_false]
    rfl

/-! ## the range -/

section
variable {t : Text} {e : Element}

/-- all that is used of the range `r` that goes with the element -/
structure RangeOf (t : Text) (e : Element) (r : Span) : Prop where
  boundary_start : IsBoundary t r.start
  boundary_stop : IsBoundary t r.stop
  start_le : r.start ≤ e.start
  le_stop : e.stop ≤ r.stop
  /-- what else lies in the range is beside an element that is alone -/
  beside : ∀ o, r.start ≤ o → o < r.stop → ¬ (e.start ≤ o ∧ o < e.stop) → e.Alone t ∧ e.Beside t o

/-- the element and the lines around it: `side` and `side'` share its lines -/
structure Lined (t : Text) (e : Element) (before side side' after : Text) : Prop where
  text_eq : t = before ++ (side ++ (e.text ++ (side' ++ after)))
  start_eq : e.start = size before + size side
  not_mem_side : '\n' ∉ side
  not_mem_side' : '\n' ∉ side'
  before_ends : before = [] ∨ ∃ b, before = b ++ ['\n']
  after_begins : after = [] ∨ ∃ a, after = '\n' :: a

namespace Lined
variable {before side side' after : Text} (h : Lined t e before side side' after)
include h

theorem stop_eq : e.stop = size before + size side + size e.text := by
  rw [← h.start_eq]
  rfl

theorem places_eq : places 0 t = places 0 before ++ (places (size before) side ++
    (places e.start e.text ++ (places e.stop side' ++ places (e.stop + size side') after))) := by
  rw [h.text_eq, places_append, places_append, places_append, places_append, Nat.zero_add,
    h.stop_eq, h.start_eq]

/-- where a character of the text lies -/
theorem mem_places_cases {p : Nat × Char} (hp : p ∈ places 0 t) :
    p ∈ places 0 before ∨ p ∈ places (size before) side ∨ p ∈ places e.start e.text ∨
      p ∈ places e.stop side' ∨ p ∈ places (e.stop + size side') after := by
  rw [h.places_eq] at hp
  simpa only [List.mem_append] using hp

/-- an offset before the element, behind which no line feed follows -/
theorem beside_before {o : Nat} (ho : o < e.start) (hlow : size before ≤ o + 1) :
    e.Beside t o := by
  refine .inl ⟨ho, fun p hp h1 h2 => ?_⟩
  have hstop : e.stop = e.start + size e.text := rfl
  rcases h.mem_places_cases hp with hp | hp | hp | hp | hp
  · have := bounds_of_mem_places hp
    omega
  · intro hc
    exact h.not_mem_side (hc ▸ mem_of_mem_places hp)
  · have := bounds_of_mem_places hp
    omega
  · have := bounds_of_mem_places hp
    omega
  · have := bounds_of_mem_places hp
    omega

/-- an offset behind the element, before which no line feed stands -/
theorem beside_after {o : Nat} (ho : e.stop ≤ o) (hhigh : o ≤ e.stop + size side') :
    e.Beside t o := by
  refine .inr ⟨ho, fun p hp h1 h2 => ?_⟩
  have hstart := h.start_eq
  have hstop : e.stop = e.start + size e.text := rfl
  rcases h.mem_places_cases hp with hp | hp | hp | hp | hp
  · have := bounds_of_mem_places hp
    omega
  · have := bounds_of_mem_places hp
    omega
  · have := bounds_of_mem_places hp
    omega
  · intro hc
    exact h.not_mem_side' (hc ▸ mem_of_mem_places hp)
  · have := bounds_of_mem_places hp
    omega

/-- before the line only the line feed that ends the line before is beside the element -/
theorem gap_before {p : Nat × Char} (hp : p ∈ places 0 before) (hbeside : e.Beside t p.1) :
    isGap p.2 = true := by
  have hb := bounds_of_mem_places hp
  have hstart := h.start_eq
  have hstop : e.stop = e.start + size e.text := rfl
  rcases h.before_ends with rfl | ⟨b, rfl⟩
  · cases hp
  · rw [places_append, Nat.zero_add] at hp
    rcases List.mem_append.mp hp with hp | hp
    · have hlf : (size b, '\n') ∈ places 0 t := by
        rw [h.places_eq, places_append, Nat.zero_add]
        exact List.mem_append_left _ (List.mem_append_right _ List.mem_cons_self)
      have hlow := bounds_of_mem_places hp
      have hone : ('\n' : Char).utf8Size = 1 := rfl
      rw [size_append, size_cons] at hstart
      rcases hbeside with ⟨_, hline⟩ | ⟨hhigh, _⟩
      · exact absurd rfl (hline _ hlf (by show p.1 < size b; omega) (by show size b < _; omega))
      · omega
    · rw [List.mem_singleton.mp hp]
      rfl

/-- behind the line only the line feed that ends it is beside the element -/
theorem gap_after {p : Nat × Char} (hp : p ∈ places (e.stop + size side') after)
    (hbeside : e.Beside t p.1) : isGap p.2 = true := by
  have hb := bounds_of_mem_places hp
  have hstop : e.stop = e.start + size e.text := rfl
  rcases h.after_begins with rfl | ⟨a, rfl⟩
  · cases hp
  · rw [places_cons] at hp
    rcases List.mem_cons.mp hp with rfl | hp
    · rfl
    · have hlf : (e.stop + size side', '\n') ∈ places 0 t := by
        rw [h.places_eq, places_cons]
        simp
      have hlow := bounds_of_mem_places hp
      have hone : ('\n' : Char).utf8Size = 1 := rfl
      rcases hbeside with ⟨hbefore, _⟩ | ⟨_, hline⟩
      · omega
      · exact absurd rfl (hline _ hlf (by show e.stop ≤ e.stop + size side'; omega)
          (by show e.stop + size side' < _; omega))

theorem alone (hs : side.all isGap = true) (hs' : side'.all isGap = true) : e.Alone t := by
  intro p hp hbeside
  rcases h.mem_places_cases hp with hp | hp | hp | hp | hp
  · exact h.gap_before hp hbeside
  · exact List.all_eq_true.mp hs _ (mem_of_mem_places hp)
  · have := bounds_of_mem_places hp
    have hstop : e.stop = e.start + size e.text := rfl
    rcases hbeside with ⟨h1, _⟩ | ⟨h1, _⟩
    · omega
    · omega
  · exact List.all_eq_true.mp hs' _ (mem_of_mem_places hp)
  · exact h.gap_after hp hbeside

theorem size_eq : size t = e.stop + size side' + size after := by
  rw [h.text_eq, h.stop_eq]
  simp only [size_append]
  omega

theorem boundary_side : IsBoundary t (e.stop + size side') := by
  have ht : before ++ (side ++ (e.text ++ side')) ++ after = t := by
    rw [h.text_eq]
    simp
  have hb := isBoundary_size (before ++ (side ++ (e.text ++ side'))) after
  simp only [size_append] at hb
  rw [ht] at hb
  rw [h.stop_eq]
  simpa only [Nat.add_assoc] using hb

theorem rangeOf (halone : e.Alone t) {start stop : Nat} (h1 : IsBoundary t start)
    (h2 : IsBoundary t stop) (h3 : start ≤ e.start) (h4 : size before ≤ start + 1)
    (h5 : e.stop ≤ stop) (h6 : stop ≤ e.stop + size side' + 1) : RangeOf t e ⟨start, stop⟩ := by
  refine ⟨h1, h2, h3, h5, fun o h7 h8 hout => ⟨halone, ?_⟩⟩
  replace h7 : start ≤ o := h7
  replace h8 : o < stop := h8
  by_cases ho : o < e.start
  · exact h.beside_before ho (by omega)
  · exact h.beside_after (by omega) (by omega)

end Lined

theorem Lined.boundary_linefeed {before side side' a : Text}
    (h : Lined t e before side side' ('\n' :: a)) : IsBoundary t (e.stop + size side' + 1) := by
  have ht : before ++ (side ++ (e.text ++ (side' ++ ['\n']))) ++ a = t := by
    rw [h.text_eq]
    simp
  have hb := isBoundary_size (before ++ (side ++ (e.text ++ (side' ++ ['\n'])))) a
  have h1 : size ['\n'] = 1 := rfl
  simp only [size_append, h1] at hb
  rw [ht] at hb
  rw [h.stop_eq]
  simpa only [Nat.add_assoc] using hb

theorem rangeOf_span (h : e.Stands t) : RangeOf t e e.span :=
  ⟨h.boundary_start, h.boundary_stop, Nat.le_refl _, Nat.le_refl _,
    fun _ h1 h2 hout => absurd ⟨h1, h2⟩ hout⟩

/-- the lines around an element that stands in the text, and what is known of their sides -/
theorem lined_of_stands (h : e.Stands t) : ∃ front back before side side' after : Text,
    splitAt? e.start t = some (front, e.text ++ back) ∧
    splitAt? e.stop t = some (front ++ e.text, back) ∧ Lined t e before side side' after ∧
    (lineBefore front).blank = side.all isGap ∧ (lineAfter e.stop back).blank = side'.all isGap ∧
    (before = [] ∧ (lineBefore front).newline = none ∨
      ∃ b, before = b ++ ['\n'] ∧ (lineBefore front).newline = some (size b)) ∧
    (after = [] ∧ (lineAfter e.stop back).newline = none ∨
      ∃ a, after = '\n' :: a ∧ (lineAfter e.stop back).newline = some (e.stop + size side')) := by
  obtain ⟨front, back, ht, hs⟩ := h.placed
  obtain ⟨before, side, hf, hnot, hblank, hbefore⟩ := lineBefore_cases front
  obtain ⟨side', after, hb, hnot', hblank', hafter⟩ := lineAfter_cases e.stop back
  refine ⟨front, back, before, side, side', after, splitAt?_eq_some.mpr ⟨ht, hs⟩,
    splitAt?_eq_some.mpr ⟨by rw [ht, List.append_assoc], ?_⟩,
    ⟨?_, ?_, hnot, hnot', ?_, ?_⟩, hblank, hblank', hbefore, hafter⟩
  · rw [size_append, hs]
    rfl
  · rw [ht, hf, hb, List.append_assoc]
  · rw [← hs, hf, size_append]
  · exact hbefore.imp And.left fun ⟨b, hb, _⟩ => ⟨b, hb⟩
  · exact hafter.imp And.left fun ⟨a, ha, _⟩ => ⟨a, ha⟩

theorem rangeOf_bounds (h : e.Stands t) (w : Bool) : RangeOf t e (e.bounds t w) := by
  obtain ⟨front, back, before, side, side', after, hfront, hback, hl, hblank, hblank', hbefore,
    hafter⟩ := lined_of_stands h
  cases w with
  | false => exact rangeOf_span h
  | true =>
    unfold Element.bounds
    simp only [hfront, hback]
    split
    · next hb =>
      rw [Bool.and_eq_true, hblank, hblank'] at hb
      have halone := hl.alone hb.1 hb.2
      have hsize := hl.size_eq
      have hstart := hl.start_eq
      have hstop : e.stop = e.start + size e.text := rfl
      have hz : size ([] : Text) = 0 := rfl
      rcases hbefore with ⟨rfl, hn⟩ | ⟨b, rfl, hn⟩
      · rcases hafter with ⟨rfl, hn'⟩ | ⟨a, rfl, hn'⟩
        · rw [hn, hn']
          show RangeOf t e ⟨0, size t⟩
          exact hl.rangeOf halone (isBoundary_zero t) (isBoundary_end t) (Nat.zero_le _)
            (by omega) (by omega) (by omega)
        · rw [hn, hn']
          show RangeOf t e ⟨0, e.stop + size side' + 1⟩
          exact hl.rangeOf halone (isBoundary_zero t) hl.boundary_linefeed (Nat.zero_le _)
            (by omega) (by omega) (by omega)
      · have hb1 : size (b ++ ['\n']) = size b + 1 := size_append b ['\n']
        have hb : IsBoundary t (size b) := by
          rw [hl.text_eq, List.append_assoc]
          exact isBoundary_size b _
        rcases hafter with ⟨rfl, hn'⟩ | ⟨a, rfl, hn'⟩
        · rw [hn, hn']
          show RangeOf t e ⟨size b, size t⟩
          exact hl.rangeOf halone hb (isBoundary_end t) (by omega) (by omega) (by omega) (by omega)
        · rw [hn, hn']
          show RangeOf t e ⟨size b, e.stop + size side'⟩
          exact hl.rangeOf halone hb hl.boundary_side (by omega) (by omega) (by omega) (by omega)
    · exact rangeOf_span h

end

end SiteBundle
