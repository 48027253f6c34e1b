import SiteBundle.Proofs.Markup.Honoured

/-!
# What compacting leaves of a text

Of the characters that are no layout (`visible`) a walk leaves those that it does not drop, in their
order (`visible_compactFrom`).  A character is dropped exactly if a comment holds it that starts in
nothing that is copied and that no browser acts upon (`fates_eq_dropped_iff`): such a comment is always
honoured, however the other spans overlap, and what is honoured and not copied is such a comment.

Which comments these are, by what stands at their start, is in `mem_droppedComments`.
-/

namespace SiteBundle

open Text

/-- the characters that are no layout -/
def visible (t : Text) : Text := t.filter (!isGap ·)

/-- the text without the characters in these ranges -/
def without (ranges : List InertRange) (t : Text) : Text :=
  ((places 0 t).filter fun p => !isInert ranges p.1).map (·.2)

/-- the comments that compacting leaves out -/
def droppedComments (t : Text) (inert : List InertRange) : List InertRange :=
  (looseComments t inert).filter fun r => !conditionalAt t r.start

/-- a comment is left out if it starts in nothing that is copied and has neither of the openings of a
comment that a browser may act upon -/
theorem mem_droppedComments {front rest : Text} {inert : List InertRange} {r : InertRange}
    (hstart : r.start = size front) :
    r ∈ droppedComments (front ++ rest) inert ↔ (r ∈ inert ∧ r.kind = .comment ∧
      ∀ m ∈ verbatimSpans (front ++ rest) inert, ¬ m.covers r.start = true) ∧
        ¬ "<!--[if".toList <+: rest ∧ ¬ "<!--<![endif]".toList <+: rest := by
  rw [droppedComments, List.mem_filter, mem_looseComments, hstart, conditionalAt_size,
    Bool.not_eq_true', ← Bool.not_eq_true, isConditional_iff, not_or]

section
variable {f : Nat → Fate} {run : Option Bool} {o : Nat} {c : Char} {t u : Text}

theorem visible_settled (run : Option Bool) : visible (settled run) = [] := by
  match run with
  | none => rfl
  | some true => rfl
  | some false => rfl

theorem visible_append (t u : Text) : visible (t ++ u) = visible t ++ visible u := by
  rw [visible, List.filter_append]
  rfl

theorem visible_cons_congr (c : Char) (h : visible t = visible u) :
    visible (c :: t) = visible (c :: u) := by
  rw [← List.singleton_append, visible_append, h, ← visible_append, List.singleton_append]

theorem visible_cons_gap (h : isGap c = true) (t : Text) : visible (c :: t) = visible t :=
  List.filter_cons_of_neg (by rw [h]; exact nofun)

/-- the characters that are not dropped -/
def undropped (f : Nat → Fate) (o : Nat) (t : Text) : Text :=
  ((places o t).filter fun p => f p.1 != .dropped).map (·.2)

theorem undropped_cons (h : f o ≠ .dropped) :
    undropped f o (c :: t) = c :: undropped f (o + c.utf8Size) t := by
  unfold undropped
  rw [places_cons,
    List.filter_cons_of_pos (p := fun x : Nat × Char => f x.1 != .dropped) (bne_iff_ne.mpr h)]
  rfl

theorem undropped_cons_dropped (h : f o = .dropped) :
    undropped f o (c :: t) = undropped f (o + c.utf8Size) t := by
  unfold undropped
  have hnot : ¬ (f o != .dropped) = true := fun hne => bne_iff_ne.mp hne h
  rw [places_cons, List.filter_cons_of_neg (p := fun x : Nat × Char => f x.1 != .dropped) hnot]

/-- **A walk loses only what it drops.** -/
theorem visible_compactFrom : visible (compactFrom f run o t) = visible (undropped f o t) := by
  induction t generalizing o run with
  | nil => exact visible_settled run
  | cons c t ih =>
    rw [compactFrom]
    cases hf : f o with
    | kept =>
      rw [undropped_cons (by rw [hf]; decide)]
      dsimp only
      rw [visible_append, visible_settled, List.nil_append, visible_cons_congr c ih]
    | dropped =>
      rw [undropped_cons_dropped hf]
      dsimp only
      rw [visible_append, visible_settled, List.nil_append, ih]
    | loose =>
      rw [undropped_cons (by rw [hf]; decide)]
      dsimp only
      split
      · rename_i hgap
        rw [ih, visible_cons_gap hgap]
      · rw [visible_append, visible_settled, List.nil_append, visible_cons_congr c ih]

theorem visible_collapse (run : Option Bool) (t : Text) : visible (collapse run t) = visible t := by
  have hall : undropped (fun _ => .loose) 0 t = t := by
    have hplaces : (places 0 t).filter (fun _ => Fate.loose != Fate.dropped) = places 0 t :=
      List.filter_eq_self.mpr fun _ _ => rfl
    rw [undropped, hplaces, map_snd_places]
  rw [← collapse_eq (f := fun _ => .loose) (o := 0) fun _ _ => rfl, visible_compactFrom, hall]

end

section
variable {t : Text} {embedded : Bool} {inert : List InertRange} {m : Mark} {r : InertRange}

/-- a comment that starts in nothing that is copied is honoured -/
theorem honoured_of_mem_looseComments (h : r ∈ looseComments t (inertRanges t embedded)) :
    (⟨r.start, r.stop, conditionalAt t r.start⟩ : Mark) ∈
      honouredMarks t (inertRanges t embedded) := by
  obtain ⟨hr, hkind, hloose⟩ := mem_looseComments.mp h
  have hm : (⟨r.start, r.stop, conditionalAt t r.start⟩ : Mark) ∈
      allMarks t (inertRanges t embedded) := mem_allMarks.mpr (.inr (List.mem_map_of_mem h))
  -- what goes over its start is another comment, and comments are apart
  have hother : ∀ x ∈ allMarks t (inertRanges t embedded), x.start ≤ r.start → r.start < x.stop →
      x = ⟨r.start, r.stop, conditionalAt t r.start⟩ := by
    intro x hx hle hlt
    rcases mem_allMarks.mp hx with hx | hx
    · exact absurd (Mark.covers_iff.mpr ⟨hle, hlt⟩) (hloose x hx)
    · obtain ⟨y, hy, rfl⟩ := List.mem_map.mp hx
      obtain ⟨hy, hykind, -⟩ := mem_looseComments.mp hy
      have hpos := (fits_of_mem_allMarks hm).ordered
      rcases apart_of_mem_inertRanges hy hr (hykind.trans hkind.symm) with rfl | hstop | hstop
      · rfl
      · exact absurd hlt (Nat.not_lt.mpr hstop)
      · exact absurd hle (Nat.not_le.mpr (Nat.lt_of_lt_of_le hpos hstop))
  refine mem_honouredMarks hm (fun x hx hin => ?_) fun x hx hstart => .inl ?_
  · have hsame := hother x (mem_allMarks_of_honoured hx) (Nat.le_of_lt hin.1) hin.2
    rw [hsame] at hin
    exact Nat.lt_irrefl _ hin.1
  · have hpos := (fits_of_mem_allMarks hx).ordered
    rw [hstart] at hpos
    exact hother x hx (Nat.le_of_eq hstart) hpos

/-- **A character is dropped exactly if a dropped comment holds it.** -/
theorem fates_eq_dropped_iff {o : Nat} : fates t embedded o = .dropped ↔
    isInert (droppedComments t (inertRanges t embedded)) o = true := by
  rw [isInert, List.any_eq_true]
  constructor
  · intro h
    unfold fates fateAt at h
    cases hfind : (honouredMarks t (inertRanges t embedded)).find? (·.covers o) with
    | none =>
      rw [hfind] at h
      exact nomatch h
    | some m =>
      rw [hfind] at h
      have hdrop : m.fate = .dropped := h
      have hkeep : m.keep = false := by
        unfold Mark.fate at hdrop
        split at hdrop
        · exact nomatch hdrop
        · rename_i hkeep
          exact Bool.eq_false_iff.mpr hkeep
      rcases mem_allMarks.mp (mem_allMarks_of_honoured (List.mem_of_find?_eq_some hfind)) with hm | hm
      · exact nomatch hkeep.symm.trans (keep_of_mem_verbatimSpans hm)
      · obtain ⟨r, hr, rfl⟩ := List.mem_map.mp hm
        have hkeep : conditionalAt t r.start = false := hkeep
        have hcover : Mark.covers ⟨r.start, r.stop, conditionalAt t r.start⟩ o = true :=
          List.find?_some (p := fun x : Mark => x.covers o) hfind
        exact ⟨r, List.mem_filter.mpr ⟨hr, by rw [hkeep]; rfl⟩, hcover⟩
  · rintro ⟨r, hr, hcover⟩
    obtain ⟨hr, hkeep⟩ := List.mem_filter.mp hr
    have hfate := fateAt_of_mem apart_honouredMarks (honoured_of_mem_looseComments hr) hcover
    rw [fates, hfate, Mark.fate, if_neg (Bool.eq_false_iff.mp (Bool.not_eq_true' _ |>.mp hkeep))]

end

/-- **Compacting changes layout and drops comments, and nothing else.**  It always gives a text, and
the characters of this text that are no layout are those of the original without the comments that no
browser acts upon and that start in no block, in no element that is copied and in no opening tag. -/
theorem visible_compactMarkup? (t : Text) (embedded : Bool) :
    ∃ u, compactMarkup? t (inertRanges t embedded) = some u ∧
      visible u = visible (without (droppedComments t (inertRanges t embedded)) t) := by
  refine ⟨_, compactMarkup?_eq t embedded, ?_⟩
  rw [visible_compactFrom, undropped, without]
  congr 2
  refine List.filter_congr fun p _ => ?_
  rw [Bool.eq_iff_iff, bne_iff_ne, Bool.not_eq_true', Ne, fates_eq_dropped_iff, Bool.not_eq_true]

end SiteBundle
