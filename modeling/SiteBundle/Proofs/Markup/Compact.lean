import SiteBundle.Markup.Compact
import SiteBundle.Proofs.Markup.Inert

/-!
# Every text can be made compact

The spans that compacting copies or leaves out take something and begin and end at boundaries of the
text (`Mark.Fits`): opening tags, elements and inert ranges all stand in it.  So the text can be cut at
all of them, however they overlap (`exists_layOut?`), and compacting gives a text
(`exists_compactMarkup?`).

* `looseComments`   the comments that start in nothing that is copied;
* `commentMarks`    their spans, to keep or to drop;
* `allMarks`        all spans in the order in which they are honoured.
-/

namespace SiteBundle

open Text

namespace Mark

/-- the offset lies in the mark -/
def covers (m : Mark) (o : Nat) : Bool := m.start ≤ o && o < m.stop

theorem covers_iff {m : Mark} {o : Nat} : m.covers o = true ↔ m.start ≤ o ∧ o < m.stop := by
  rw [covers, Bool.and_eq_true, decide_eq_true_eq, decide_eq_true_eq]

end Mark

/-- the mark takes something, and its ends are boundaries of the text -/
structure Mark.Fits (t : Text) (m : Mark) : Prop where
  start : IsBoundary t m.start
  stop : IsBoundary t m.stop
  ordered : m.start < m.stop

variable {t : Text}

theorem Mark.fits_of_append {front u back : Text} {keep : Bool} (hne : u ≠ [])
    (ht : t = front ++ (u ++ back)) : Mark.Fits t ⟨size front, size front + size u, keep⟩ where
  start := ht ▸ isBoundary_size front _
  stop := by
    have hb := isBoundary_size (front ++ u) back
    rwa [List.append_assoc, ← ht, size_append] at hb
  ordered := Nat.lt_add_of_pos_right (size_pos hne)

/-! ## the spans -/

theorem anyOpeningTag?_append {m r : Text} (h : anyOpeningTag? t = some (m, r)) :
    t = m ++ r ∧ m ≠ [] := by
  unfold anyOpeningTag? at h
  split at h
  · split at h
    · obtain ⟨p, hp, e⟩ := Option.map_eq_some_iff.mp h
      cases e
      refine ⟨?_, List.cons_ne_nil _ _⟩
      rw [List.append_assoc, tagEnd?_append hp, List.cons_append, List.cons_append,
        List.takeWhile_append_dropWhile]
    · cases h
  · cases h

theorem reads_anyOpeningTag : Reads (fun _ => anyOpeningTag?) id :=
  fun _ _ _ _ h => anyOpeningTag?_append h

theorem reads_wholeElement (name : Text) : Reads (fun _ => wholeElement? name) id := by
  intro _ t m rest h
  obtain ⟨⟨e, r⟩, hp, he⟩ := Option.map_eq_some_iff.mp h
  cases he
  obtain ⟨inner, hi⟩ := ends_of_enclosed? hp
  exact ⟨append_of_enclosed? hp, by show e.text ≠ []; rw [hi]; exact List.cons_ne_nil _ _⟩

/-- the span of a finding outside inert text -/
theorem mem_spansOf {pattern : Text → Option (Text × Text)} {inert : List InertRange} {m : Mark} :
    m ∈ spansOf pattern t inert ↔ ∃ u, (m.start, u) ∈ findings (fun _ => pattern) t ∧
      isInert inert m.start = false ∧ m = ⟨m.start, m.start + size u, true⟩ := by
  rw [spansOf, List.mem_map]
  constructor
  · rintro ⟨⟨o, u⟩, hf, rfl⟩
    obtain ⟨hf, hout⟩ := List.mem_filter.mp hf
    exact ⟨u, hf, Bool.not_eq_true' _ |>.mp hout, rfl⟩
  · rintro ⟨u, hf, hout, hm⟩
    exact ⟨(m.start, u), List.mem_filter.mpr ⟨hf, Bool.not_eq_true' _ |>.mpr hout⟩, hm.symm⟩

theorem fits_of_mem_spansOf {pattern : Text → Option (Text × Text)}
    (hp : Reads (fun _ => pattern) id) {inert : List InertRange} {m : Mark}
    (h : m ∈ spansOf pattern t inert) : m.Fits t := by
  obtain ⟨u, hf, -, hm⟩ := mem_spansOf.mp h
  obtain ⟨front, rest, ht, ho, hread⟩ := mem_findings hp hf
  rw [hm, ← ho]
  exact Mark.fits_of_append (hp .start _ _ _ hread).2 ht

theorem fits_of_mem_inertRanges {embedded keep : Bool} {r : InertRange}
    (h : r ∈ inertRanges t embedded) : Mark.Fits t ⟨r.start, r.stop, keep⟩ := by
  obtain ⟨u, hu, hstop⟩ := stands_of_mem_inertRanges h
  obtain ⟨front, back, ht, hs⟩ := hu.placed
  obtain ⟨c, rest, hu, -⟩ := hu.begins
  have hs : size front = r.start := hs
  have hne : u ≠ [] := by
    rw [show u = _ from hu]
    exact List.cons_ne_nil _ _
  rw [hstop, ← hs]
  exact Mark.fits_of_append hne ht

theorem mem_verbatimSpans {inert : List InertRange} {m : Mark} : m ∈ verbatimSpans t inert ↔
    (∃ r ∈ inert, r.kind = .embedded ∧ m = ⟨r.start, r.stop, true⟩) ∨
      (∃ name ∈ verbatimNames, m ∈ spansOf (wholeElement? name) t inert) ∨
      m ∈ spansOf anyOpeningTag? t inert := by
  rw [verbatimSpans, List.mem_append, List.mem_append, List.mem_map, List.mem_flatMap, or_assoc]
  simp only [List.mem_filter, beq_iff_eq, and_assoc, eq_comm (b := m)]

theorem keep_of_mem_verbatimSpans {inert : List InertRange} {m : Mark}
    (h : m ∈ verbatimSpans t inert) : m.keep = true := by
  rcases mem_verbatimSpans.mp h with ⟨r, -, -, rfl⟩ | ⟨name, -, h⟩ | h
  · rfl
  · obtain ⟨u, -, -, hm⟩ := mem_spansOf.mp h
    rw [hm]
  · obtain ⟨u, -, -, hm⟩ := mem_spansOf.mp h
    rw [hm]

theorem fits_of_mem_verbatimSpans {embedded : Bool} {m : Mark}
    (h : m ∈ verbatimSpans t (inertRanges t embedded)) : m.Fits t := by
  rcases mem_verbatimSpans.mp h with ⟨r, hr, -, rfl⟩ | ⟨name, -, h⟩ | h
  · exact fits_of_mem_inertRanges hr
  · exact fits_of_mem_spansOf (reads_wholeElement name) h
  · exact fits_of_mem_spansOf reads_anyOpeningTag h

/-- whether a comment that a browser may act upon begins at this offset -/
def conditionalAt (t : Text) (n : Nat) : Bool := (splitAt? n t).any fun parts => isConditional parts.2

theorem conditionalAt_size (front rest : Text) :
    conditionalAt (front ++ rest) (size front) = isConditional rest := by
  rw [conditionalAt, splitAt?_size, Option.any_some]

/-- the comments that start in nothing that is copied -/
def looseComments (t : Text) (inert : List InertRange) : List InertRange :=
  inert.filter fun r =>
    r.kind == .comment && !(verbatimSpans t inert).any (·.covers r.start)

/-- their spans -/
def commentMarks (t : Text) (inert : List InertRange) : List Mark :=
  (looseComments t inert).map fun r => ⟨r.start, r.stop, conditionalAt t r.start⟩

/-- all spans in their order -/
def allMarks (t : Text) (inert : List InertRange) : List Mark :=
  (verbatimSpans t inert ++ commentMarks t inert).mergeSort markLe

theorem mem_looseComments {inert : List InertRange} {r : InertRange} :
    r ∈ looseComments t inert ↔ r ∈ inert ∧ r.kind = .comment ∧
      ∀ m ∈ verbatimSpans t inert, ¬ m.covers r.start = true := by
  rw [looseComments, List.mem_filter, Bool.and_eq_true, beq_iff_eq, Bool.not_eq_true',
    List.any_eq_false]

theorem fits_of_mem_commentMarks {embedded : Bool} {m : Mark}
    (h : m ∈ commentMarks t (inertRanges t embedded)) : m.Fits t := by
  obtain ⟨r, hr, rfl⟩ := List.mem_map.mp h
  exact fits_of_mem_inertRanges (mem_looseComments.mp hr).1

theorem mem_allMarks {inert : List InertRange} {m : Mark} :
    m ∈ allMarks t inert ↔ m ∈ verbatimSpans t inert ∨ m ∈ commentMarks t inert := by
  rw [allMarks, List.mem_mergeSort, List.mem_append]

theorem fits_of_mem_allMarks {embedded : Bool} {m : Mark}
    (h : m ∈ allMarks t (inertRanges t embedded)) : m.Fits t :=
  (mem_allMarks.mp h).elim fits_of_mem_verbatimSpans fits_of_mem_commentMarks

theorem commentSpans?_eq (t : Text) (embedded : Bool) :
    commentSpans? t (inertRanges t embedded) (verbatimSpans t (inertRanges t embedded)) =
      some (commentMarks t (inertRanges t embedded)) := by
  have hmap : ∀ l : List InertRange, (∀ r ∈ l, r ∈ inertRanges t embedded) →
      (l.mapM fun r => (splitAt? r.start t).map fun parts =>
        (⟨r.start, r.stop, isConditional parts.2⟩ : Mark)) =
          some (l.map fun r => ⟨r.start, r.stop, conditionalAt t r.start⟩) := by
    intro l
    induction l with
    | nil => exact fun _ => rfl
    | cons r l ih =>
      intro h
      have hr : Mark.Fits t ⟨r.start, r.stop, true⟩ := fits_of_mem_inertRanges (h r List.mem_cons_self)
      obtain ⟨parts, hparts⟩ := Option.isSome_iff_exists.mp hr.start
      have hparts : splitAt? r.start t = some parts := hparts
      rw [List.mapM_cons, ih fun x hx => h x (List.mem_cons_of_mem r hx), hparts, List.map_cons,
        conditionalAt, hparts]
      rfl
  exact hmap (looseComments t (inertRanges t embedded)) fun r hr => (mem_looseComments.mp hr).1

/-! ## the text -/

/-- a text can be cut at any marks; one that begins too early is passed over -/
theorem exists_layOut? {front rest : Text} {marks : List Mark} (ht : t = front ++ rest)
    (h : ∀ m ∈ marks, m.Fits t) : ∃ u, layOut? (size front) marks rest = some u := by
  induction marks generalizing front rest with
  | nil => exact ⟨_, rfl⟩
  | cons m marks ih =>
    have hm := h m List.mem_cons_self
    have hmarks : ∀ n ∈ marks, n.Fits t := fun n hn => h n (List.mem_cons_of_mem m hn)
    rw [layOut?]
    by_cases hlt : m.start < size front
    · rw [if_pos hlt]
      exact ih ht hmarks
    · rw [if_neg hlt]
      obtain ⟨a, b, ha, has⟩ := isBoundary_iff.mp hm.start
      obtain ⟨c, d, hc, hcs⟩ := isBoundary_iff.mp hm.stop
      obtain ⟨loose, rfl, rfl⟩ := eq_append_of_size_le (ht.symm.trans ha) (by omega)
      obtain ⟨inside, rfl, rfl⟩ := eq_append_of_size_le (ha.symm.trans hc)
        (by rw [has, hcs]; exact Nat.le_of_lt hm.ordered)
      rw [size_append] at has
      rw [size_append, size_append] at hcs
      obtain ⟨u, hu⟩ := ih hc hmarks
      have hloose : splitAt? (m.start - size front) (loose ++ (inside ++ d)) =
          some (loose, inside ++ d) := splitAt?_eq_some.mpr ⟨rfl, by omega⟩
      have hinside : splitAt? (m.stop - m.start) (inside ++ d) = some (inside, d) :=
        splitAt?_eq_some.mpr ⟨rfl, by omega⟩
      have hstop : m.stop = size (front ++ loose ++ inside) := by
        rw [size_append, size_append, hcs]
      rw [hstop] at hinside
      simp only [hloose, hstop, hinside, hu, Option.bind_eq_bind, Option.bind_some]
      exact ⟨_, rfl⟩

theorem compactMarkup?_eq_layOut? (t : Text) (embedded : Bool) :
    compactMarkup? t (inertRanges t embedded) =
      layOut? 0 (allMarks t (inertRanges t embedded)) t := by
  simp only [compactMarkup?, commentSpans?_eq, Option.bind_eq_bind, Option.bind_some]
  rfl

theorem exists_compactMarkup? (t : Text) (embedded : Bool) :
    ∃ u, compactMarkup? t (inertRanges t embedded) = some u := by
  rw [compactMarkup?_eq_layOut?]
  exact exists_layOut? (List.nil_append t).symm fun m hm => fits_of_mem_allMarks hm

end SiteBundle
