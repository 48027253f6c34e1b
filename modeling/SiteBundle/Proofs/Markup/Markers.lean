import SiteBundle.Proofs.Markup.Inert

/-!
# Inert ranges are exact

Ranges of one kind are stored in order and apart, no comment begins in a block, and no opening marker
is left over: each stands at an inert offset, in a range that it begins or in one that began before
(`inertRanges_exact`).

That no marker is left over rests on the search for the opening markers, of which none begins inside
another one (`InertKind.Opens.head`), and on the ranges, which begin where the search finds something
(`isInert_of_opens`).
-/

namespace SiteBundle

open Text

section
variable {kind : InertKind} {earlier : List InertRange} {front m back : Text}

/-- **No opening marker is left over**: a range begins there, or one that began before goes on. -/
theorem isInert_of_opens (hm : kind.Opens m) :
    isInert (earlier ++ rangesOfKind kind earlier (front ++ (m ++ back))) (size front) = true := by
  obtain ⟨a, rest, hread⟩ := InertKind.range?_of_opens hm earlier (Spot.start.over front) back
  obtain ⟨before, taken, behind, b, ht, hread, hmem, hle, hlt⟩ :=
    exists_finding_over_of_takes InertKind.takes_range? rfl hread
  obtain ⟨m', u, hu, hm', hcase⟩ := InertKind.range?_eq_some hread
  rw [Spot.offset_start_over] at hcase
  rw [isInert, List.any_append, Bool.or_eq_true]
  rcases hcase with ⟨hinert, -, rfl⟩ | ⟨-, inner, rfl, -, rfl⟩
  · -- the search took a marker, and no other marker begins inside it
    obtain rfl := List.append_cancel_right hu
    left
    obtain ⟨taken, rfl, hno⟩ := hm'.head
    obtain ⟨m', rfl, -⟩ := hm.head
    rcases Nat.eq_or_lt_of_le hle with hsize | hlt'
    · rwa [← hsize]
    · exact absurd (mem_of_inside ht.symm hlt' hlt) hno
  · right
    rw [← List.append_assoc] at hu
    obtain rfl := List.append_cancel_right hu
    exact List.any_eq_true.mpr ⟨_, List.mem_filterMap.mpr ⟨_, hmem, rfl⟩,
      InertRange.covers_iff.mpr ⟨hle, hlt⟩⟩

/-! ## all ranges of a text -/

/-- the markers of a kind are looked for -/
def InertKind.Enabled (embedded : Bool) : InertKind → Prop
  | .comment => True
  | .embedded => embedded = true

/-- **Inert ranges are exact.**  Those of one kind are stored in ascending order and do not overlap.
Each begins with an opening marker of its kind and reaches through the first closing marker behind it,
or to the end of the text.  No comment begins in a block, and without an embedded language there is no
block.  And every opening marker that is looked for stands at an inert offset. -/
theorem inertRanges_exact (t : Text) (embedded : Bool) :
    ((inertRanges t embedded).Pairwise fun x y =>
      x.kind = y.kind → x.start < y.start ∧ x.stop ≤ y.start) ∧
    (∀ r ∈ inertRanges t embedded, r.Spans t) ∧
    (∀ b ∈ inertRanges t embedded, ∀ c ∈ inertRanges t embedded, b.kind = .embedded →
      c.kind = .comment → b.covers c.start = false) ∧
    (embedded = false → ∀ r ∈ inertRanges t embedded, r.kind = .comment) ∧
    ∀ (kind : InertKind) front m back, kind.Enabled embedded → kind.Opens m →
      t = front ++ (m ++ back) → isInert (inertRanges t embedded) (size front) = true := by
  unfold inertRanges
  generalize hblocks : (if embedded then rangesOfKind .embedded [] t else []) = blocks
  have hcomment : ∀ r ∈ rangesOfKind .comment blocks t, r.kind = .comment ∧
      isInert blocks r.start = false ∧ r.Spans t := fun _ => spans_of_mem_rangesOfKind
  have hblock : ∀ r ∈ blocks, r.kind = .embedded ∧ r.Spans t := by
    intro r hr
    cases embedded with
    | false => exact absurd (hblocks ▸ hr) List.not_mem_nil
    | true =>
      obtain ⟨hkind, -, hspans⟩ := spans_of_mem_rangesOfKind (hblocks ▸ hr)
      exact ⟨hkind, hspans⟩
  have hordered : blocks.Pairwise fun x y => x.stop ≤ y.start := by
    rw [← hblocks]
    split
    · exact pairwise_rangesOfKind _ _ _
    · exact .nil
  refine ⟨List.pairwise_append.mpr ⟨?_, ?_, fun x hx y hy hsame => ?_⟩, fun r hr => ?_,
    fun b hb c hc hbkind hckind => ?_, fun hoff r hr => ?_, fun kind front m back hon hm ht => ?_⟩
  · exact hordered.imp_of_mem fun {x y} hx _ hxy _ =>
      ⟨Nat.lt_of_lt_of_le (hblock x hx).2.start_lt_stop hxy, hxy⟩
  · exact (pairwise_rangesOfKind .comment blocks t).imp_of_mem fun {x y} hx _ hxy _ =>
      ⟨Nat.lt_of_lt_of_le (hcomment x hx).2.2.start_lt_stop hxy, hxy⟩
  · rw [(hblock x hx).1, (hcomment y hy).1] at hsame
    exact nomatch hsame
  · rcases List.mem_append.mp hr with hr | hr
    · exact (hblock r hr).2
    · exact (hcomment r hr).2.2
  · replace hb : b ∈ blocks := (List.mem_append.mp hb).resolve_right fun hb =>
      nomatch hbkind.symm.trans (hcomment b hb).1
    replace hc : c ∈ rangesOfKind .comment blocks t := (List.mem_append.mp hc).resolve_left fun hc =>
      nomatch hckind.symm.trans (hblock c hc).1
    exact Bool.eq_false_iff.mpr (List.any_eq_false.mp (hcomment c hc).2.1 b hb)
  · subst hoff
    subst hblocks
    exact (hcomment r hr).1
  · cases kind with
    | comment =>
      subst ht
      exact isInert_of_opens hm
    | embedded =>
      obtain rfl : embedded = true := hon
      subst hblocks ht
      have hinert : isInert ([] ++ rangesOfKind .embedded [] (front ++ (m ++ back))) (size front) = true :=
        isInert_of_opens hm
      rw [List.nil_append] at hinert
      rw [isInert, List.any_append, Bool.or_eq_true]
      exact .inl hinert

end

namespace InertRange

/-- a comment that begins before a block and ends inside it, a comment in a block, and one never closed
with a block in it -/
def overlapping : Text := "<?php '<!--' ?><!-- <?= 1 --> ?><!-- <?PHP".toList

def overlappingRanges : List InertRange :=
  [⟨0, 15, .embedded⟩, ⟨20, 32, .embedded⟩, ⟨37, 42, .embedded⟩, ⟨15, 29, .comment⟩, ⟨32, 42, .comment⟩]

end InertRange

open InertRange in
theorem inertRanges_exact_overlapping : inertRanges overlapping true = overlappingRanges ∧
    (⟨15, 29, .comment⟩ : InertRange).Spans overlapping ∧
    (⟨0, 15, .embedded⟩ : InertRange).covers 32 = false ∧
    (∀ r ∈ inertRanges overlapping false, r.kind = .comment) ∧
    InertKind.embedded.Opens "<?PHP".toList ∧ isInert (inertRanges overlapping true) 37 = true := by
  have hranges : inertRanges overlapping true = overlappingRanges := by decide
  obtain ⟨-, hspans, houtside, -, hopens⟩ := inertRanges_exact overlapping true
  have hmem : ∀ r ∈ overlappingRanges, r ∈ inertRanges overlapping true := fun _ hr => hranges ▸ hr
  have hblock : InertKind.embedded.Opens "<?PHP".toList := List.mem_cons_self
  exact ⟨hranges, hspans _ (hmem _ (by decide)),
    houtside _ (hmem _ (by decide)) ⟨32, 42, .comment⟩ (hmem _ (by decide)) rfl rfl,
    (inertRanges_exact overlapping false).2.2.2.1 rfl, hblock,
    hopens .embedded "<?php '<!--' ?><!-- <?= 1 --> ?><!-- ".toList _ [] rfl hblock rfl⟩

end SiteBundle
