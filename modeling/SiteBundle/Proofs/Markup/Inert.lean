import SiteBundle.Markup.Inert
import SiteBundle.Proofs.Markup.Stretch
import SiteBundle.Proofs.Text.Reading

/-!
# Inert ranges are told by their markers

A range begins at an opening marker (`InertKind.Opens`) and reaches through the first closing marker
behind it, or to the end of the text when there is none (`InertKind.Reaches`, `InertRange.Spans`).  So
it is a stretch of the text: it begins with `<`, and it ends with `>` or with the text
(`stands_of_mem_inertRanges`).  Ranges of one kind follow each other without overlap
(`pairwise_rangesOfKind`).
-/

namespace SiteBundle

open Text

/-! ## markers -/

namespace InertKind

/-- the markers that begin a range, in small letters -/
def openers : InertKind → List Text
  | .comment => ["<!--".toList]
  | .embedded => ["<?php".toList, "<?=".toList]

/-- the text is a marker that begins a range of this kind -/
def Opens (kind : InertKind) (m : Text) : Prop := m.map foldChar ∈ kind.openers

/-- how far a range reaches into the text `t` behind its opening marker: through the first closing
marker, or over all of it when there is none -/
inductive Reaches (kind : InertKind) (t : Text) : Text → Prop
  | closed (inner behind : Text) (ht : t = inner ++ (kind.closer ++ behind))
      (hfirst : ∀ a b, t = a ++ (kind.closer ++ b) → size inner ≤ size a) :
      Reaches kind t (inner ++ kind.closer)
  | unclosed (hno : ¬ kind.closer <:+: t) : Reaches kind t t

section
variable {kind : InertKind} {m t u rest : Text}

theorem opener?_eq_some_iff : kind.opener? t = some (m, rest) ↔ t = m ++ rest ∧ kind.Opens m := by
  cases kind with
  | comment =>
    show readFold? "<!--".toList t = _ ↔ _
    rw [readFold?_eq_some_iff, Opens, openers, List.mem_singleton]
  | embedded =>
    show (readFold? "<?php".toList t).or (readFold? "<?=".toList t) = _ ↔ _
    rw [Option.or_eq_some_iff, readFold?_eq_some_iff, readFold?_eq_some_iff, Opens, openers,
      List.mem_pair]
    constructor
    · rintro (⟨ht, hm⟩ | ⟨-, ht, hm⟩)
      · exact ⟨ht, .inl hm⟩
      · exact ⟨ht, .inr hm⟩
    · rintro ⟨rfl, hm | hm⟩
      · exact .inl ⟨rfl, hm⟩
      · refine .inr ⟨?_, rfl, hm⟩
        -- the third letters differ
        obtain ⟨a, u, rfl, ha, hu⟩ := List.map_eq_cons_iff.mp hm
        obtain ⟨b, v, rfl, hb, hv⟩ := List.map_eq_cons_iff.mp hu
        obtain ⟨c, w, rfl, hc, -⟩ := List.map_eq_cons_iff.mp hv
        have hthird : foldChar c ≠ 'p' := by
          rw [hc]
          decide
        show readFold? "<?php".toList (a :: b :: c :: (w ++ rest)) = none
        simp [readFold?, ha, hb, hthird]

/-- an opening marker begins with `<`, and goes on without another one -/
theorem Opens.head (h : kind.Opens m) : ∃ m', m = '<' :: m' ∧ '<' ∉ m' := by
  have hall : ∀ word ∈ kind.openers, ∃ word', word = '<' :: word' ∧ '<' ∉ word' := by
    cases kind with
    | comment => exact List.forall_mem_singleton.mpr ⟨_, rfl, by decide⟩
    | embedded => exact List.forall_mem_cons.mpr ⟨⟨_, rfl, by decide⟩,
        List.forall_mem_singleton.mpr ⟨_, rfl, by decide⟩⟩
  obtain ⟨word', hword, hno⟩ := hall _ h
  obtain ⟨c, m', rfl, hc, hm'⟩ := List.map_eq_cons_iff.mp hword
  refine ⟨m', by rw [foldChar_eq_less hc], fun hmem => hno ?_⟩
  rw [← hm']
  exact List.mem_map_of_mem hmem

theorem closer_plain (kind : InertKind) :
    kind.closer ≠ [] ∧ ∀ d ∈ kind.closer, isLetter d = false ∧ foldChar d = d := by
  cases kind <;> decide

/-- what a range takes behind its opening marker -/
theorem reaches_behind (kind : InertKind) (t : Text) :
    ∃ m, t = m ++ kind.behind t ∧ kind.Reaches t m := by
  obtain ⟨hne, hplain⟩ := kind.closer_plain
  have hread : ∀ b, readFold? kind.closer (kind.closer ++ b) = some (kind.closer, b) :=
    readFold?_self fun d hd => (hplain d hd).2
  unfold behind
  cases h : seek (readFold? kind.closer) t with
  | none =>
    refine ⟨t, (List.append_nil t).symm, .unclosed ?_⟩
    rintro ⟨a, b, rfl⟩
    rw [List.append_assoc] at h
    have hno := seek_eq_none.mp h a (kind.closer ++ b) rfl (List.append_ne_nil_of_left_ne_nil hne b)
    exact nomatch hno.symm.trans (hread b)
  | some found =>
    obtain ⟨before, closing, rest⟩ := found
    obtain ⟨u, rfl, hu, hbefore⟩ := none_before_of_seek h
    obtain ⟨rfl, hclosing⟩ := readFold?_eq_some_iff.mp hu
    obtain rfl : closing = kind.closer :=
      eq_of_map_foldChar_eq hclosing fun d hd => (hplain d hd).1
    refine ⟨before ++ kind.closer, by rw [List.append_assoc], .closed before rest rfl fun a b e => ?_⟩
    -- the marker cannot stand before the place where the search finds it
    by_contra hlt
    obtain ⟨v, rfl, hv⟩ := eq_append_of_size_le e.symm (by omega)
    have hvne : v ≠ [] := by
      rintro rfl
      rw [List.append_nil] at hlt
      exact hlt (Nat.le_refl _)
    have hno := hbefore a v rfl hvne
    rw [← hv] at hno
    exact nomatch hno.symm.trans (hread b)

theorem range?_eq_some {earlier : List InertRange} {s : Spot} {a : Option InertRange}
    (h : kind.range? earlier s t = some (a, rest)) : ∃ m u, t = m ++ u ∧ kind.Opens m ∧
      (isInert earlier s.offset = true ∧ a = none ∧ u = rest ∨
        isInert earlier s.offset = false ∧ ∃ inner, u = inner ++ rest ∧ kind.Reaches u inner ∧
          a = some ⟨s.offset, s.offset + size (m ++ inner), kind⟩) := by
  simp only [range?, Option.bind_eq_bind, Option.bind_eq_some_iff, Option.pure_def, Prod.exists] at h
  obtain ⟨m, u, hopen, h⟩ := h
  obtain ⟨rfl, hm⟩ := opener?_eq_some_iff.mp hopen
  refine ⟨m, u, rfl, hm, ?_⟩
  split at h
  · rename_i hinert
    cases h
    exact .inl ⟨hinert, rfl, rfl⟩
  · rename_i hinert
    cases h
    obtain ⟨inner, hu, hreaches⟩ := reaches_behind kind u
    refine .inr ⟨Bool.eq_false_iff.mpr hinert, inner, hu, hreaches, ?_⟩
    have hsize : size (m ++ u) - size (kind.behind u) = size (m ++ inner) := by
      have hu := congrArg size hu
      rw [size_append] at hu ⊢
      rw [size_append]
      omega
    rw [hsize]

/-- an opening marker is read wherever it stands -/
theorem range?_of_opens (hm : kind.Opens m) (earlier : List InertRange) (s : Spot) (u : Text) :
    ∃ a rest, kind.range? earlier s (m ++ u) = some (a, rest) := by
  have hopen : kind.opener? (m ++ u) = some (m, u) := opener?_eq_some_iff.mpr ⟨rfl, hm⟩
  unfold range?
  simp only [hopen, Option.bind_eq_bind, Option.bind_some]
  split
  · exact ⟨_, _, rfl⟩
  · exact ⟨_, _, rfl⟩

/-- a range ends with its closing marker, or with the text -/
theorem Reaches.ends (h : kind.Reaches t u) : (∃ u', u = u' ++ ['>']) ∨ u = t := by
  cases h with
  | closed inner behind ht hfirst =>
    left
    cases kind with
    | comment => exact ⟨inner ++ "--".toList, by rw [List.append_assoc]; rfl⟩
    | embedded => exact ⟨inner ++ "?".toList, by rw [List.append_assoc]; rfl⟩
  | unclosed hno => exact .inr rfl

theorem takes_range? {earlier : List InertRange} : Takes (kind.range? earlier) := by
  intro s t a rest h
  obtain ⟨m, u, rfl, hm, hcase⟩ := range?_eq_some h
  obtain ⟨m', rfl, -⟩ := hm.head
  rcases hcase with ⟨-, -, rfl⟩ | ⟨-, inner, rfl, -, -⟩
  · exact ⟨_, List.cons_ne_nil _ _, rfl⟩
  · exact ⟨'<' :: m' ++ inner, List.cons_ne_nil _ _, (List.append_assoc _ _ _).symm⟩

end
end InertKind

/-! ## ranges -/

theorem InertRange.covers_iff {r : InertRange} {o : Nat} :
    r.covers o = true ↔ r.start ≤ o ∧ o < r.stop := by
  rw [covers, Bool.and_eq_true, decide_eq_true_eq, decide_eq_true_eq]

/-- the range begins with an opening marker of its kind and reaches from there as far as it goes -/
def InertRange.Spans (t : Text) (r : InertRange) : Prop :=
  ∃ front m inner back, t = front ++ (m ++ (inner ++ back)) ∧ size front = r.start ∧
    r.kind.Opens m ∧ r.kind.Reaches (inner ++ back) inner ∧ r.stop = r.start + size (m ++ inner)

section
variable {kind : InertKind} {earlier : List InertRange} {t : Text} {r : InertRange}

theorem InertRange.Spans.start_lt_stop (h : r.Spans t) : r.start < r.stop := by
  obtain ⟨front, m, inner, back, -, -, hm, -, hstop⟩ := h
  obtain ⟨m', rfl, -⟩ := hm.head
  have hpos : 0 < size ('<' :: m' ++ inner) := size_pos (List.cons_ne_nil _ _)
  omega

theorem spans_of_mem_rangesOfKind (h : r ∈ rangesOfKind kind earlier t) :
    r.kind = kind ∧ isInert earlier r.start = false ∧ r.Spans t := by
  obtain ⟨⟨o, a⟩, hmem, ha⟩ := List.mem_filterMap.mp h
  obtain rfl : a = some r := ha
  obtain ⟨front, taken, rest, ht, ho, -, hread⟩ :=
    mem_findings_of_takes InertKind.takes_range? hmem
  obtain ⟨m, u, hu, hm, ⟨-, hnone, -⟩ | ⟨hinert, inner, rfl, hreaches, hr⟩⟩ :=
    InertKind.range?_eq_some hread
  · exact nomatch hnone
  · rw [Spot.offset_start_over] at hinert hr
    obtain rfl := Option.some.inj hr
    exact ⟨rfl, hinert, front, m, inner, rest, by rw [ht, hu], rfl, hm, hreaches, rfl⟩

/-- the text of a range stands at its place -/
theorem InertRange.Spans.stands (h : r.Spans t) :
    ∃ u, Stretch.Stands t ⟨r.start, u⟩ ∧ r.stop = r.start + size u := by
  obtain ⟨front, m, inner, back, ht, hstart, hm, hreaches, hstop⟩ := h
  obtain ⟨m', rfl, -⟩ := hm.head
  refine ⟨'<' :: m' ++ inner, ⟨⟨front, back, by rw [ht, List.append_assoc], hstart⟩,
    ⟨'<', m' ++ inner, rfl, rfl⟩, ?_⟩, hstop⟩
  rcases hreaches.ends with ⟨inner, rfl⟩ | hall
  · exact ⟨'<' :: m' ++ inner, '>', (List.append_assoc _ _ _).symm, .inl rfl⟩
  · -- the range reaches to the end of the text
    obtain rfl : back = [] := List.append_cancel_left (hall.symm.trans (List.append_nil inner).symm)
    refine ⟨('<' :: m' ++ inner).dropLast, _,
      (List.dropLast_concat_getLast (List.cons_ne_nil _ _)).symm, .inr ?_⟩
    show r.start + size ('<' :: m' ++ inner) = size t
    rw [ht, List.append_nil, size_append front, hstart]

theorem pairwise_rangesOfKind (kind : InertKind) (earlier : List InertRange) (t : Text) :
    (rangesOfKind kind earlier t).Pairwise fun x y => x.stop ≤ y.start := by
  have hpair := pairwise_findingsFrom_of_takes (p := kind.range? earlier) InertKind.takes_range?
    (e := fun f => (f.2.map (·.stop)).getD f.1) (fun s m rest a ha => ?_) .start t
  · refine List.pairwise_filterMap.mpr (hpair.imp_of_mem fun {f g} _ hg hfg r hr u hu => ?_)
    obtain ⟨o, a⟩ := f
    obtain ⟨o', a'⟩ := g
    obtain rfl : a = some r := hr
    obtain rfl : a' = some u := hu
    obtain ⟨front, m, rest, _, ho, _, hread⟩ := mem_findings_of_takes InertKind.takes_range? hg
    obtain ⟨_, _, _, _, ⟨-, hnone, -⟩ | ⟨-, _, -, -, hsome⟩⟩ := InertKind.range?_eq_some hread
    · exact nomatch hnone
    · rw [Option.some.inj hsome, Spot.offset_start_over, ho]
      exact hfg
  · obtain ⟨m', u, hm, -, ⟨-, rfl, -⟩ | ⟨-, inner, rfl, -, rfl⟩⟩ := InertKind.range?_eq_some ha
    · exact Nat.le_add_right _ _
    · rw [← List.append_assoc] at hm
      rw [List.append_cancel_right hm]
      exact Nat.le_refl _

/-- the ranges of a text are its blocks, and the comments that begin in none of them -/
theorem mem_inertRanges_cases {embedded : Bool} (h : r ∈ inertRanges t embedded) :
    (r.kind = .embedded ∧ embedded = true ∧ r ∈ rangesOfKind .embedded [] t) ∨
      r.kind = .comment ∧
        r ∈ rangesOfKind .comment (if embedded then rangesOfKind .embedded [] t else []) t := by
  unfold inertRanges at h
  rcases List.mem_append.mp h with h | h
  · cases embedded with
    | false => exact absurd h List.not_mem_nil
    | true => exact .inl ⟨(spans_of_mem_rangesOfKind h).1, rfl, h⟩
  · exact .inr ⟨(spans_of_mem_rangesOfKind h).1, h⟩

/-- ranges of one kind are the same or apart -/
theorem apart_of_mem_inertRanges {embedded : Bool} {x y : InertRange}
    (hx : x ∈ inertRanges t embedded) (hy : y ∈ inertRanges t embedded) (hkind : x.kind = y.kind) :
    x = y ∨ x.stop ≤ y.start ∨ y.stop ≤ x.start := by
  rcases mem_inertRanges_cases hx with ⟨hxkind, -, hx⟩ | ⟨hxkind, hx⟩
  · rcases mem_inertRanges_cases hy with ⟨-, -, hy⟩ | ⟨hykind, -⟩
    · exact eq_or_related_of_pairwise (pairwise_rangesOfKind _ _ _) hx hy
    · exact nomatch hxkind.symm.trans (hkind.trans hykind)
  · rcases mem_inertRanges_cases hy with ⟨hykind, -⟩ | ⟨-, hy⟩
    · exact nomatch hxkind.symm.trans (hkind.trans hykind)
    · exact eq_or_related_of_pairwise (pairwise_rangesOfKind _ _ _) hx hy

/-- no comment begins in a block -/
theorem not_covers_comment {embedded : Bool} {b c : InertRange} (hb : b ∈ inertRanges t embedded)
    (hbkind : b.kind = .embedded) (hc : c ∈ inertRanges t embedded) (hckind : c.kind = .comment) :
    ¬ b.covers c.start = true := by
  rcases mem_inertRanges_cases hb with ⟨-, rfl, hblock⟩ | ⟨hkind, -⟩
  · rcases mem_inertRanges_cases hc with ⟨hkind, -, -⟩ | ⟨-, hcomment⟩
    · exact nomatch hkind.symm.trans hckind
    · exact List.any_eq_false.mp (spans_of_mem_rangesOfKind hcomment).2.1 b hblock
  · exact nomatch hkind.symm.trans hbkind

/-- a range of a text, of either kind -/
theorem stands_of_mem_inertRanges {embedded : Bool} {r : InertRange}
    (h : r ∈ inertRanges t embedded) :
    ∃ u, Stretch.Stands t ⟨r.start, u⟩ ∧ r.stop = r.start + size u := by
  unfold inertRanges at h
  rcases List.mem_append.mp h with h | h
  · cases embedded with
    | false => exact absurd h List.not_mem_nil
    | true => exact (spans_of_mem_rangesOfKind h).2.2.stands
  · exact (spans_of_mem_rangesOfKind h).2.2.stands

end

theorem slice?_of_stands {x : Stretch} (h : x.Stands t) : slice? x.start x.stop t = some x.text := by
  obtain ⟨front, back, rfl, hs⟩ := h.placed
  have h1 : splitAt? x.stop (front ++ (x.text ++ back)) = some (front ++ x.text, back) :=
    splitAt?_eq_some.mpr ⟨by rw [List.append_assoc], by rw [size_append, hs]; rfl⟩
  have h2 : splitAt? x.start (front ++ x.text) = some (front, x.text) :=
    splitAt?_eq_some.mpr ⟨rfl, hs⟩
  show ((splitAt? x.stop _).bind fun p => (splitAt? x.start p.1).bind fun q => some q.2) = _
  rw [h1, Option.bind_some, h2, Option.bind_some]

end SiteBundle
