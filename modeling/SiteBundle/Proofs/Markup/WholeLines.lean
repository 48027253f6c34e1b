import SiteBundle.Proofs.Markup.Removing
import SiteBundle.Proofs.Text.Reading

/-!
# Whole lines

What goes with an element that is alone on its lines is those lines, no more and no less.  The lines of
a text are what stands between its line feeds, and an offset is on the line whose number is the number
of line feeds before it (`lineAt`).

* `Element.otherLines`   the lines that no part of the element is on;
* `Lined.cut_wholeLines`   without the range of the whole lines, the text has the other lines;
* `RangeOf.removes`   the range holds nothing of another element.
-/

namespace SiteBundle

open Text

/-- the number of the line that an offset is on, the first one being `0` -/
def lineAt (t : Text) (o : Nat) : Nat := ((splitAt? o t).map fun p => p.1.count '\n').getD 0

/-- the lines of the text that hold no part of the element, in their order -/
def Element.otherLines (t : Text) (e : Element) : List Text :=
  (splitOn '\n' t).take (lineAt t e.start) ++ (splitOn '\n' t).drop (lineAt t e.stop + 1)

/-- the offset lies in the range -/
def Span.Holds (r : Span) (o : Nat) : Prop := r.start ≤ o ∧ o < r.stop

instance (r : Span) (o : Nat) : Decidable (r.Holds o) :=
  inferInstanceAs (Decidable (r.start ≤ o ∧ o < r.stop))

/-! ## lines and their number -/

theorem lineAt_size (t u : Text) : lineAt (t ++ u) (size t) = t.count '\n' := by
  unfold lineAt
  rw [splitAt?_size]
  rfl

theorem length_splitOn (sep : Char) (t : Text) : (splitOn sep t).length = t.count sep + 1 := by
  induction t with
  | nil => rfl
  | cons c t ih =>
    rw [splitOn]
    cases hsplit : splitOn sep t with
    | nil => exact absurd hsplit (splitOn_ne_nil sep t)
    | cons piece pieces =>
      rw [hsplit] at ih
      by_cases hc : c = sep
      · rw [hc, List.count_cons_self, ← ih]
        show (if sep = sep then _ else _ : List Text).length = _
        rw [if_pos rfl]
        rfl
      · rw [List.count_cons_of_ne hc, ← ih]
        show (if c = sep then _ else _ : List Text).length = _
        rw [if_neg hc]
        rfl

/-- the lines before the line feed that a part of a text ends with -/
def linesBefore (before : Text) : List Text := (splitOn '\n' before).dropLast

theorem linesBefore_concat (b : Text) : linesBefore (b ++ ['\n']) = splitOn '\n' b := by
  rw [linesBefore, splitOn_append]
  exact List.dropLast_concat

theorem length_linesBefore (before : Text) : (linesBefore before).length = before.count '\n' := by
  rw [linesBefore, List.length_dropLast, length_splitOn, Nat.add_sub_cancel]

theorem splitOn_append_of_ends {before : Text} (h : before = [] ∨ ∃ b, before = b ++ ['\n'])
    (t : Text) : splitOn '\n' (before ++ t) = linesBefore before ++ splitOn '\n' t := by
  rcases h with rfl | ⟨b, rfl⟩
  · rfl
  · rw [linesBefore_concat, List.append_assoc, List.singleton_append, splitOn_append]

/-- the lines behind the line feed that a part of a text begins with -/
def linesAfter (after : Text) : List Text := (splitOn '\n' after).tail

theorem linesAfter_cons (a : Text) : linesAfter ('\n' :: a) = splitOn '\n' a := by
  rw [linesAfter, ← List.nil_append ('\n' :: a), splitOn_append]
  rfl

theorem splitOn_append_of_begins {after : Text} (h : after = [] ∨ ∃ a, after = '\n' :: a)
    (t : Text) : splitOn '\n' (t ++ after) = splitOn '\n' t ++ linesAfter after := by
  rcases h with rfl | ⟨a, rfl⟩
  · rw [List.append_nil]
    exact (List.append_nil _).symm
  · rw [linesAfter_cons, splitOn_append]

/-! ## the range of whole lines -/

namespace Draft

/-- cutting a part of a text leaves what stands before and behind it -/
theorem applyEdit?_cut {t a b c : Text} {r : Span} (ht : t = a ++ (b ++ c)) (hstart : r.start = size a)
    (hstop : r.stop = size a + size b) : applyEdit? t r.cut = some (a ++ c) := by
  have hmin : min (r.start + (r.stop - r.start)) (size t) = size (a ++ b) := by
    rw [ht, hstart, hstop]
    simp only [size_append]
    omega
  have hmin' : min r.start (size (a ++ b)) = size a := by
    rw [hstart, size_append]
    omega
  unfold Span.cut applyEdit?
  dsimp only
  rw [hmin, hmin', ht, ← List.append_assoc, splitAt?_size]
  show (splitAt? (size a) (a ++ b)).bind (fun p => some (p.1 ++ c)) = some (a ++ c)
  rw [splitAt?_size, Option.bind_some]

end Draft

section
variable {t : Text} {e : Element}

namespace Lined
variable {before side side' after : Text} (h : Lined t e before side side' after)
include h

/-- what shares the lines of an element that is alone is layout -/
theorem all_isGap (halone : e.Alone t) : side.all isGap = true ∧ side'.all isGap = true := by
  have hbefore : ∀ p ∈ places (size before) side, isGap p.2 = true := fun p hp => by
    have hb := bounds_of_mem_places hp
    have hstart := h.start_eq
    refine halone p ?_ (h.beside_before (by omega) (by omega))
    rw [h.places_eq]
    exact List.mem_append_right _ (List.mem_append_left _ hp)
  have hafter : ∀ p ∈ places e.stop side', isGap p.2 = true := fun p hp => by
    have hb := bounds_of_mem_places hp
    refine halone p ?_ (h.beside_after (by omega) (by omega))
    rw [h.places_eq]
    simp [hp]
  constructor
  · rw [← map_snd_places (size before) side]
    simpa using hbefore
  · rw [← map_snd_places e.stop side']
    simpa using hafter

/-- the lines around those of the element -/
theorem otherLines_eq : e.otherLines t = linesBefore before ++ linesAfter after := by
  have htext : t = before ++ ((side ++ (e.text ++ side')) ++ after) := by
    rw [h.text_eq]
    simp only [List.append_assoc]
  have hcount : side.count '\n' = 0 := List.count_eq_zero.mpr h.not_mem_side
  have hcount' : side'.count '\n' = 0 := List.count_eq_zero.mpr h.not_mem_side'
  have hlines : splitOn '\n' t =
      linesBefore before ++ (splitOn '\n' (side ++ (e.text ++ side')) ++ linesAfter after) := by
    rw [htext, splitOn_append_of_ends h.before_ends, splitOn_append_of_begins h.after_begins]
  have hown : (splitOn '\n' (side ++ (e.text ++ side'))).length = e.text.count '\n' + 1 := by
    rw [length_splitOn, List.count_append, List.count_append, hcount, hcount', Nat.zero_add,
      Nat.add_zero]
  have hstart : lineAt t e.start = (linesBefore before).length := by
    have ht : t = (before ++ side) ++ (e.text ++ (side' ++ after)) := by
      rw [h.text_eq, List.append_assoc]
    rw [ht, h.start_eq, ← size_append, lineAt_size, List.count_append, hcount, length_linesBefore,
      Nat.add_zero]
  have hstop : lineAt t e.stop + 1 =
      (linesBefore before).length + (splitOn '\n' (side ++ (e.text ++ side'))).length := by
    have ht : t = (before ++ side ++ e.text) ++ (side' ++ after) := by
      rw [h.text_eq]
      simp only [List.append_assoc]
    rw [ht, h.stop_eq, ← size_append, ← size_append, lineAt_size, List.count_append,
      List.count_append, hcount, length_linesBefore, hown]
    omega
  unfold Element.otherLines
  rw [hstart, hstop, hlines, List.take_left, ← List.drop_drop, List.drop_left, List.drop_left]

/-- without the lines of the element, the text has the others -/
theorem cut_wholeLines {r : Span}
    (hbefore : before = [] ∧ r.start = 0 ∨ ∃ b, before = b ++ ['\n'] ∧ r.start = size b)
    (hafter : after = [] ∧ r.stop = size t ∨
      ∃ a, after = '\n' :: a ∧ r.stop = e.stop + size side' + if before = [] then 1 else 0) :
    ∃ rest, Draft.applyEdit? t r.cut = some rest ∧
      (splitOn '\n' rest = e.otherLines t ∨ e.otherLines t = [] ∧ rest = []) := by
  have hone : ('\n' : Char).utf8Size = 1 := rfl
  have htext := h.text_eq
  have hstop := h.stop_eq
  have hsize := h.size_eq
  rw [h.otherLines_eq]
  rcases hbefore with ⟨rfl, hrstart⟩ | ⟨b, rfl, hrstart⟩
  · rcases hafter with ⟨rfl, hrstop⟩ | ⟨a, rfl, hrstop⟩
    -- all lines
    · refine ⟨[], Draft.applyEdit?_cut (a := []) (b := t) (c := []) ?_ hrstart ?_, .inr ⟨rfl, rfl⟩⟩
      · rw [List.nil_append, List.append_nil]
      · rw [hrstop, size_nil, Nat.zero_add]
    -- the first lines
    · refine ⟨a, Draft.applyEdit?_cut (a := []) (b := side ++ (e.text ++ (side' ++ ['\n']))) ?_
        hrstart ?_, .inl ?_⟩
      · rw [htext]
        simp only [List.nil_append, List.append_assoc, List.cons_append]
      · rw [hrstop, if_pos rfl, hstop]
        simp only [size_append, size_cons, size_nil, hone]
        omega
      · rw [linesAfter_cons]
        rfl
  · have hne : b ++ ['\n'] ≠ [] := List.append_ne_nil_of_right_ne_nil _ (List.cons_ne_nil _ _)
    rw [size_append, size_cons, size_nil, hone] at hstop
    rw [linesBefore_concat]
    rcases hafter with ⟨rfl, hrstop⟩ | ⟨a, rfl, hrstop⟩
    -- the last lines
    · refine ⟨b ++ [], Draft.applyEdit?_cut (b := '\n' :: (side ++ (e.text ++ side'))) ?_ hrstart ?_,
        .inl ?_⟩
      · rw [htext]
        simp only [List.append_assoc, List.cons_append, List.nil_append]
      · rw [hrstop, hsize, hstop]
        simp only [size_append, size_cons, size_nil, hone]
        omega
      · rw [List.append_nil]
        exact (List.append_nil _).symm
    -- lines between others
    · refine ⟨b ++ '\n' :: a, Draft.applyEdit?_cut (b := '\n' :: (side ++ (e.text ++ side'))) ?_
        hrstart ?_, .inl ?_⟩
      · rw [htext]
        simp only [List.append_assoc, List.cons_append, List.nil_append]
      · rw [hrstop, if_neg hne, hstop]
        simp only [size_append, size_cons, hone]
        omega
      · rw [splitOn_append, linesAfter_cons]

end Lined

/-- the range of whole lines takes just those lines, where the element is alone on them -/
theorem cut_bounds_of_alone (h : e.Stands t) (halone : e.Alone t) :
    ∃ rest, Draft.applyEdit? t (e.bounds t true).cut = some rest ∧
      (splitOn '\n' rest = e.otherLines t ∨ e.otherLines t = [] ∧ rest = []) := by
  obtain ⟨front, back, before, side, side', after, hfront, hback, hl, hblank, hblank', hbefore,
    hafter⟩ := lined_of_stands h
  obtain ⟨hside, hside'⟩ := hl.all_isGap halone
  refine hl.cut_wholeLines ?_ ?_ <;> unfold Element.bounds <;>
    simp only [hfront, hback, hblank, hblank', hside, hside', Bool.and_self, if_true]
  · rcases hbefore with ⟨rfl, hn⟩ | ⟨b, rfl, hn⟩
    · exact .inl ⟨rfl, by rw [hn]⟩
    · exact .inr ⟨b, rfl, by rw [hn]⟩
  · rcases hafter with ⟨rfl, hn'⟩ | ⟨a, rfl, hn'⟩
    · refine .inl ⟨rfl, ?_⟩
      rcases hbefore with ⟨rfl, hn⟩ | ⟨b, rfl, hn⟩
      · rw [hn, hn']
        rfl
      · rw [hn, hn']
        rfl
    · refine .inr ⟨a, rfl, ?_⟩
      rcases hbefore with ⟨rfl, hn⟩ | ⟨b, rfl, hn⟩
      · rw [hn, hn', if_pos rfl]
        rfl
      · rw [hn, hn', if_neg (List.append_ne_nil_of_right_ne_nil _ (List.cons_ne_nil _ _))]
        rfl

/-- where something shares the lines of the element, its own range is all that goes -/
theorem bounds_of_not_alone (h : e.Stands t) (hnot : ¬ e.Alone t) : e.bounds t true = e.span := by
  obtain ⟨front, back, before, side, side', after, hfront, hback, hl, hblank, hblank', -⟩ :=
    lined_of_stands h
  have hsides : (side.all isGap && side'.all isGap) ≠ true := fun hgap =>
    hnot (hl.alone (Bool.and_eq_true_iff.mp hgap).1 (Bool.and_eq_true_iff.mp hgap).2)
  unfold Element.bounds
  simp only [hfront, hback, hblank, hblank']
  exact if_neg hsides

/-- the range as what is removed with the element -/
theorem RangeOf.removes {r : Span} (hr : RangeOf t e r) (h : e.Stands t) :
    Removes t [e] fun o => decide (r.Holds o) where
  stands := fun _ he => List.mem_singleton.mp he ▸ h
  holds := fun _ he o ho => by
    rw [List.mem_singleton.mp he] at ho
    have h1 := hr.start_le
    have h2 := hr.le_stop
    obtain ⟨h3, h4⟩ := ho
    exact decide_eq_true ⟨by omega, by omega⟩
  only := fun o ho => by
    obtain ⟨h1, h2⟩ := of_decide_eq_true ho
    refine ⟨e, List.mem_cons_self, ?_⟩
    by_cases hin : e.Holds o
    · exact .inl hin
    · exact .inr (hr.beside o h1 h2 hin)

/-- **Whole lines or nothing more.**  The range that goes with an element, taken with whole lines, lies
on character boundaries and holds the element; the rest of it is layout.  If nothing but layout shares
the lines of the element, the text without the range has the other lines, unchanged and in order, or is
empty where there are none; otherwise the range is the element's own.  And it holds no byte of another
element that was found in the same text and does not overlap this one. -/
theorem Element.bounds_wholeLines {inert : List InertRange} {tag : Tag}
    (he : e ∈ scanElements t inert tag) :
    (IsBoundary t (e.bounds t true).start ∧ IsBoundary t (e.bounds t true).stop ∧
      (∀ o, e.Holds o → (e.bounds t true).Holds o) ∧
      ∀ p ∈ places 0 t, (e.bounds t true).Holds p.1 → ¬ e.Holds p.1 → isGap p.2 = true) ∧
    (e.Alone t → ∃ rest, Draft.applyEdit? t (e.bounds t true).cut = some rest ∧
      (splitOn '\n' rest = e.otherLines t ∨ e.otherLines t = [] ∧ rest = [])) ∧
    (¬ e.Alone t → e.bounds t true = e.span) ∧
    ∀ inert' tag', ∀ f ∈ scanElements t inert' tag', f.stop ≤ e.start ∨ e.stop ≤ f.start →
      ∀ o, f.Holds o → ¬ (e.bounds t true).Holds o := by
  have hstands := stands_of_mem_scan he
  have hr := rangeOf_bounds hstands true
  have hremoves := hr.removes hstands
  refine ⟨⟨hr.boundary_start, hr.boundary_stop, fun o ho => ?_, fun p hp hin hout => ?_⟩,
    cut_bounds_of_alone hstands, bounds_of_not_alone hstands, fun inert' tag' f hf hapart o ho hin => ?_⟩
  · exact of_decide_eq_true (hremoves.holds e List.mem_cons_self o ho)
  · obtain ⟨halone, hbeside⟩ := hr.beside p.1 hin.1 hin.2 hout
    exact halone p hp hbeside
  · have hstretch := (stands_of_mem_scan hf).stretch
    obtain ⟨m, hm, h1, h2⟩ := hremoves.meets_of_removed hstretch ho (decide_eq_true hin)
    rw [List.mem_singleton.mp hm] at h1 h2
    have h3 : f.start < e.stop := h1
    have h4 : e.start < f.stop := h2
    omega

end

/-! ## a script on lines of its own -/

namespace Element

/-- two scripts, the second with a letter behind it -/
def twoScripts : Text := "<p>\n <script>a()\nb()</script> \n<script>c()</script>d".toList

def loneScript : Element := ⟨.script, 5, ⟨"<script>".toList, "a()\nb()".toList, "</script>".toList⟩⟩

def neighbourScript : Element := ⟨.script, 31, ⟨"<script>".toList, "c()".toList, "</script>".toList⟩⟩

instance (t : Text) (e : Element) : DecidablePred (e.Beside t) := fun o =>
  inferInstanceAs (Decidable ((o < e.start ∧ ∀ p ∈ places 0 t, o < p.1 → p.1 < e.start → p.2 ≠ '\n') ∨
    (e.stop ≤ o ∧ ∀ p ∈ places 0 t, e.stop ≤ p.1 → p.1 < o → p.2 ≠ '\n')))

instance (t : Text) (e : Element) : Decidable (e.Alone t) :=
  inferInstanceAs (Decidable (∀ p ∈ places 0 t, e.Beside t p.1 → isGap p.2 = true))

theorem bounds_wholeLines_twoScripts :
    loneScript ∈ scanElements twoScripts [] .script ∧
    loneScript.bounds twoScripts true = ⟨3, 30⟩ ∧
    (∃ rest, Draft.applyEdit? twoScripts (loneScript.bounds twoScripts true).cut = some rest ∧
      splitOn '\n' rest = ["<p>".toList, "<script>c()</script>d".toList]) ∧
    neighbourScript.bounds twoScripts true = neighbourScript.span ∧
    ¬ (loneScript.bounds twoScripts true).Holds neighbourScript.start := by
  have hscan : scanElements twoScripts [] .script = [loneScript, neighbourScript] := by decide
  have hlone : loneScript ∈ scanElements twoScripts [] .script := hscan ▸ List.mem_cons_self
  have hneighbour : neighbourScript ∈ scanElements twoScripts [] .script :=
    hscan ▸ List.mem_cons_of_mem _ List.mem_cons_self
  obtain ⟨-, hlines, -, hapart⟩ := bounds_wholeLines hlone
  obtain ⟨-, -, hown, -⟩ := bounds_wholeLines hneighbour
  obtain ⟨rest, hcut, hrest⟩ := hlines (by decide)
  have hother : loneScript.otherLines twoScripts =
    ["<p>".toList, "<script>c()</script>d".toList] := by decide
  rw [hother] at hrest
  refine ⟨hlone, by decide, ⟨rest, hcut, hrest.resolve_right fun h => nomatch h.1⟩,
    hown (by decide), hapart [] .script _ hneighbour (.inr (by decide)) _ ?_⟩
  exact ⟨Nat.le_refl _, by decide⟩

end Element
end SiteBundle
