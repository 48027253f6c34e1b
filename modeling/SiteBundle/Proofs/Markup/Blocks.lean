import SiteBundle.Proofs.Markup.Visible

/-!
# What compacting does to blocks of an embedded language

A stretch that neither begins nor ends with layout is walked over on its own, whatever stands before and
behind it (`compactFrom_stretch`).  So each block of a text has an image in the compact text, and the
images keep the order of the blocks (`inOrder_images`).

Nothing begins in a block but the block's own mark (`eq_of_covers_start`).  A block that no honoured
mark runs into is therefore copied (`image_of_free`); of any other one the part in that mark shares its
fate, and the rest is collapsed (`exists_image_of_encloses`).  This tells which blocks stay as they are
(`Spared`): no dropped comment runs into them, and where a tag, an element or a conditional comment ends
inside the block, the rest of it is compact as it is.
-/

namespace SiteBundle

open Text

/-- the parts stand in the text one behind the other -/
inductive InOrder : List Text → Text → Prop
  | nil (t : Text) : InOrder [] t
  | cons (front : Text) {part : Text} {parts : List Text} {back : Text} (h : InOrder parts back) :
      InOrder (part :: parts) (front ++ (part ++ back))

theorem InOrder.prepend {parts : List Text} {t : Text} (h : InOrder parts t) (u : Text) :
    InOrder parts (u ++ t) := by
  cases h with
  | nil => exact .nil _
  | cons front h =>
    rw [← List.append_assoc]
    exact .cons (u ++ front) h

theorem InOrder.sublist {parts chosen : List Text} {t : Text} (h : InOrder parts t)
    (hsub : chosen.Sublist parts) : InOrder chosen t := by
  induction h generalizing chosen with
  | nil t =>
    rw [List.sublist_nil.mp hsub]
    exact .nil t
  | @cons front part parts back h ih =>
    rcases List.sublist_cons_iff.mp hsub with hrest | ⟨rest, rfl, hrest⟩
    · rw [← List.append_assoc]
      exact (ih hrest).prepend (front ++ part)
    · exact .cons front (ih hrest)

/-- a stretch can be cut at a boundary of its text, unless that comes behind it -/
theorem Stretch.Stands.cut {t : Text} {x : Stretch} (h : x.Stands t) {n : Nat} (hn : IsBoundary t n)
    (hle : x.start ≤ n) : ∃ head tail, x.text = head ++ tail ∧
      (x.start + size head = n ∨ tail = [] ∧ x.start + size x.text ≤ n) := by
  by_cases hstop : x.start + size x.text ≤ n
  · exact ⟨x.text, [], (List.append_nil _).symm, .inr ⟨rfl, hstop⟩⟩
  · obtain ⟨front, back, ht, hstart⟩ := h.placed
    obtain ⟨a, b, hab, ha⟩ := isBoundary_iff.mp hn
    obtain ⟨head, rfl, hrest⟩ := eq_append_of_size_le (ht.symm.trans hab) (by omega)
    rw [size_append, hstart] at ha
    obtain ⟨tail, htext, -⟩ := eq_append_of_size_le hrest.symm (by omega)
    exact ⟨head, tail, htext, .inl ha⟩

section
variable {f : Nat → Fate} {t : Text} {x : Stretch}

/-- the stretches of a text are walked over one behind the other -/
theorem inOrder_compactFrom {xs : List Stretch} (hstands : ∀ x ∈ xs, x.Stands t)
    (hapart : xs.Pairwise fun x y => x.stop ≤ y.start) {front rest : Text} (ht : t = front ++ rest)
    (hbehind : ∀ x ∈ xs, size front ≤ x.start) :
    InOrder (xs.map fun x => compactFrom f none x.start x.text)
      (compactFrom f none (size front) rest) := by
  induction xs generalizing front rest with
  | nil => exact .nil _
  | cons x xs ih =>
    obtain ⟨hx, hxs⟩ := List.forall_mem_cons.mp hstands
    obtain ⟨hfirst, hpair⟩ := List.pairwise_cons.mp hapart
    obtain ⟨before, back, hplaced, hstart⟩ := hx.placed
    obtain ⟨mid, rfl, rfl⟩ := eq_append_of_size_le (ht.symm.trans hplaced)
      (hstart ▸ hbehind x List.mem_cons_self)
    rw [size_append] at hstart
    rw [compactFrom_stretch hx ht hstart]
    have hstop : size (front ++ (mid ++ x.text)) = x.stop := by
      rw [size_append, size_append, ← Nat.add_assoc, hstart]
      rfl
    rw [← hstop]
    refine .cons _ (ih hxs hpair ?_ fun y hy => ?_)
    · rw [ht, List.append_assoc, List.append_assoc]
    · rw [hstop]
      exact hfirst y hy

end

/-! ## blocks -/

/-- the text of a range -/
def InertRange.textIn (r : InertRange) (t : Text) : Text := (slice? r.start r.stop t).getD []

/-- the blocks of a text -/
def embeddedBlocks (t : Text) : List InertRange := (inertRanges t true).filter (·.kind == .embedded)

/-- what compacting makes of a block -/
def InertRange.image (r : InertRange) (t : Text) : Text :=
  compactFrom (fates t true) none r.start (r.textIn t)

/-- compacting leaves the block as it is: an honoured mark that began before and runs into it is copied,
and if it ends in the block the rest of the block is compact -/
def Spared (t : Text) (r : InertRange) : Prop :=
  ∀ m ∈ honouredMarks t (inertRanges t true), m.Encloses r.start → m.keep = true ∧
    ∀ head tail, r.textIn t = head ++ tail → r.start + size head = m.stop → collapse none tail = tail

section
variable {t : Text} {r : InertRange}

theorem stands_textIn {embedded : Bool} (h : r ∈ inertRanges t embedded) :
    Stretch.Stands t ⟨r.start, r.textIn t⟩ ∧ r.stop = r.start + size (r.textIn t) := by
  obtain ⟨u, hu, hstop⟩ := stands_of_mem_inertRanges h
  have hslice : slice? r.start (r.start + size u) t = some u := slice?_of_stands hu
  have htext : r.textIn t = u := by
    rw [InertRange.textIn, hstop, hslice]
    rfl
  rw [htext]
  exact ⟨hu, hstop⟩

theorem mem_embeddedBlocks : r ∈ embeddedBlocks t ↔ r ∈ inertRanges t true ∧ r.kind = .embedded := by
  rw [embeddedBlocks, List.mem_filter, beq_iff_eq]

theorem pairwise_embeddedBlocks (t : Text) :
    (embeddedBlocks t).Pairwise fun x y => x.stop ≤ y.start := by
  have hblocks : (rangesOfKind .embedded [] t).filter (·.kind == .embedded) =
      rangesOfKind .embedded [] t :=
    List.filter_eq_self.mpr fun x hx => beq_iff_eq.mpr (spans_of_mem_rangesOfKind hx).1
  have hcomments : (rangesOfKind .comment (rangesOfKind .embedded [] t) t).filter
      (·.kind == .embedded) = [] :=
    List.filter_eq_nil_iff.mpr fun x hx hkind =>
      nomatch (spans_of_mem_rangesOfKind hx).1.symm.trans (beq_iff_eq.mp hkind)
  have heq : embeddedBlocks t = rangesOfKind .embedded [] t := by
    show List.filter _ (rangesOfKind .embedded [] t ++
      rangesOfKind .comment (rangesOfKind .embedded [] t) t) = _
    rw [List.filter_append, hblocks, hcomments, List.append_nil]
  rw [heq]
  exact pairwise_rangesOfKind _ _ _

/-- **The images of the blocks keep their order.** -/
theorem inOrder_images (t : Text) : InOrder ((embeddedBlocks t).map (·.image t))
    (compactFrom (fates t true) none 0 t) := by
  have hstands : ∀ x ∈ (embeddedBlocks t).map fun r => (⟨r.start, r.textIn t⟩ : Stretch),
      x.Stands t := by
    intro x hx
    obtain ⟨r, hr, rfl⟩ := List.mem_map.mp hx
    exact (stands_textIn (mem_embeddedBlocks.mp hr).1).1
  have hapart : ((embeddedBlocks t).map fun r => (⟨r.start, r.textIn t⟩ : Stretch)).Pairwise
      fun x y => x.stop ≤ y.start := by
    refine List.pairwise_map.mpr ((pairwise_embeddedBlocks t).imp_of_mem fun {x y} hx _ hxy => ?_)
    rw [(stands_textIn (mem_embeddedBlocks.mp hx).1).2] at hxy
    exact hxy
  have horder := inOrder_compactFrom (f := fates t true) hstands hapart (List.nil_append t).symm
    fun _ _ => Nat.zero_le _
  rwa [List.map_map] at horder

/-- nothing that compacting looks at begins in a block but the block itself -/
theorem eq_of_covers_start {embedded : Bool} {m : Mark} (hr : r ∈ inertRanges t embedded)
    (hkind : r.kind = .embedded) (hm : m ∈ allMarks t (inertRanges t embedded))
    (hin : r.covers m.start = true) : m = ⟨r.start, r.stop, true⟩ := by
  have hinert : isInert (inertRanges t embedded) m.start = true := List.any_eq_true.mpr ⟨r, hr, hin⟩
  have hout : ∀ pattern, m ∉ spansOf pattern t (inertRanges t embedded) := fun pattern hm => by
    obtain ⟨u, -, hfree, -⟩ := mem_spansOf.mp hm
    exact nomatch hinert.symm.trans hfree
  rcases mem_allMarks.mp hm with hm | hm
  · rcases mem_verbatimSpans.mp hm with ⟨x, hx, hxkind, rfl⟩ | ⟨name, -, hm⟩ | hm
    · have hcover : r.start ≤ x.start ∧ x.start < r.stop := InertRange.covers_iff.mp hin
      rcases apart_of_mem_inertRanges hr hx (hkind.trans hxkind.symm) with rfl | hstop | hstop
      · rfl
      · omega
      · have hpos := (stands_textIn hx).1.start_lt_stop
        have hpos : x.start < x.start + size (x.textIn t) := hpos
        rw [← (stands_textIn hx).2] at hpos
        omega
    · exact absurd hm (hout _)
    · exact absurd hm (hout _)
  · obtain ⟨c, hc, rfl⟩ := List.mem_map.mp hm
    obtain ⟨hc, hckind, -⟩ := mem_looseComments.mp hc
    exact absurd hin (not_covers_comment hr hkind hc hckind)

/-- a block that no honoured mark runs into is copied -/
theorem image_of_free (h : r ∈ embeddedBlocks t)
    (hfree : ∀ m ∈ honouredMarks t (inertRanges t true), ¬ m.Encloses r.start) :
    r.image t = r.textIn t := by
  obtain ⟨hr, hkind⟩ := mem_embeddedBlocks.mp h
  obtain ⟨hstands, hstop⟩ := stands_textIn hr
  have hpos : r.start < r.start + size (r.textIn t) := hstands.start_lt_stop
  have hm : (⟨r.start, r.stop, true⟩ : Mark) ∈ allMarks t (inertRanges t true) :=
    mem_allMarks.mpr (.inl (mem_verbatimSpans.mpr (.inl ⟨r, hr, hkind, rfl⟩)))
  have hown : (⟨r.start, r.stop, true⟩ : Mark) ∈ honouredMarks t (inertRanges t true) := by
    refine mem_honouredMarks hm hfree fun x hx hstart => .inl (eq_of_covers_start hr hkind hx ?_)
    have hstart : x.start = r.start := hstart
    rw [hstart, InertRange.covers_iff, hstop]
    exact ⟨Nat.le_refl _, hpos⟩
  rw [hstop] at hown
  exact compactFrom_of_mem_honoured hown

/-- behind an honoured mark that runs into a block nothing of the block is in a mark, as this one would
begin in the block -/
theorem fates_eq_loose {m : Mark} {o : Nat} (h : r ∈ embeddedBlocks t)
    (hm : m ∈ honouredMarks t (inertRanges t true)) (hin : m.Encloses r.start) (hbehind : m.stop ≤ o)
    (ho : o < r.stop) : fates t true o = .loose := by
  obtain ⟨hr, hkind⟩ := mem_embeddedBlocks.mp h
  obtain ⟨hstart, hend⟩ := hin
  refine fateAt_eq_loose fun x hx hcover => ?_
  have hcover := Mark.covers_iff.mp hcover
  rcases eq_or_related_of_pairwise apart_honouredMarks hx hm with rfl | hxm | hmx
  · omega
  · omega
  · have hbegins : r.covers x.start = true := InertRange.covers_iff.mpr (by omega)
    obtain rfl := eq_of_covers_start hr hkind (mem_allMarks_of_honoured hx) hbegins
    have hmx : m.stop ≤ r.start := hmx
    omega

/-- a block that an honoured mark runs into: what is in the mark shares its fate, and behind the mark
layout collapses -/
theorem exists_image_of_encloses {m : Mark} (h : r ∈ embeddedBlocks t)
    (hm : m ∈ honouredMarks t (inertRanges t true)) (hin : m.Encloses r.start) :
    ∃ head tail, r.textIn t = head ++ tail ∧ head ≠ [] ∧
      (r.start + size head = m.stop ∨ tail = [] ∧ r.stop ≤ m.stop) ∧
      r.image t = (if m.keep then head else []) ++ collapse none tail := by
  obtain ⟨hstands, hstop⟩ := stands_textIn (mem_embeddedBlocks.mp h).1
  have hboundary : IsBoundary t m.stop := (fits_of_mem_allMarks (mem_allMarks_of_honoured hm)).stop
  obtain ⟨head, tail, htext, hcut⟩ := hstands.cut hboundary (Nat.le_of_lt hin.2)
  have htext : r.textIn t = head ++ tail := htext
  have hcut : r.start + size head = m.stop ∨
      tail = [] ∧ r.start + size (r.textIn t) ≤ m.stop := hcut
  rw [← hstop] at hcut
  have hsize := congrArg size htext
  rw [size_append] at hsize
  refine ⟨head, tail, htext, ?_, hcut, ?_⟩
  · rintro rfl
    rw [size_nil] at hcut hsize
    have hpos : r.start < r.start + size (r.textIn t) := hstands.start_lt_stop
    have hlt : r.start < m.stop := hin.2
    rcases hcut with hcut | ⟨rfl, -⟩
    · omega
    · rw [size_nil] at hsize
      omega
  · have hhead : ∀ p ∈ places r.start head, fates t true p.1 = m.fate := by
      intro p hp
      have hp := bounds_of_mem_places hp
      have hlt : m.start < r.start := hin.1
      exact fateAt_of_mem apart_honouredMarks hm (Mark.covers_iff.mpr (by omega))
    have htail : ∀ p ∈ places (r.start + size head) tail, fates t true p.1 = .loose := by
      intro p hp
      have hbounds := bounds_of_mem_places hp
      have hcut : r.start + size head = m.stop := hcut.resolve_right fun hend => by
        rw [hend.1] at hp
        exact nomatch hp
      exact fates_eq_loose h hm hin (by omega) (by omega)
    rw [InertRange.image, htext, compactFrom_marked hhead, collapse_eq htail]

/-- **Exactly the spared blocks are left as they are.** -/
theorem image_eq_textIn_iff (h : r ∈ embeddedBlocks t) : r.image t = r.textIn t ↔ Spared t r := by
  constructor
  · intro himage m hm hin
    obtain ⟨head, tail, htext, hhead, hcut, heq⟩ := exists_image_of_encloses h hm hin
    have hsame : (if m.keep then head else []) ++ collapse none tail = head ++ tail := by
      rw [← heq, himage, htext]
    have hkeep : m.keep = true := by
      by_contra hdrop
      -- the first character of a block is no layout, and nothing stands for it
      obtain ⟨c, inner, hc, hgap⟩ := (stands_textIn (mem_embeddedBlocks.mp h).1).1.begins
      obtain ⟨d, head, rfl⟩ := List.exists_cons_of_ne_nil hhead
      obtain rfl : c = d := (List.cons.inj (hc.symm.trans htext)).1
      have hvisible := congrArg visible hsame
      rw [if_neg hdrop, List.nil_append, visible_collapse, visible_append] at hvisible
      have hnone : visible (c :: head) = [] := List.append_left_eq_self.mp hvisible.symm
      exact absurd (List.filter_eq_nil_iff.mp hnone c List.mem_cons_self) (by rw [hgap]; decide)
    refine ⟨hkeep, fun head' tail' htext' hcut' => ?_⟩
    rw [if_pos hkeep] at hsame
    have htail : collapse none tail = tail := List.append_cancel_left hsame
    rcases hcut with hcut | ⟨-, hstop⟩
    · obtain ⟨-, rfl⟩ := append_inj_of_size (htext'.symm.trans htext) (by omega)
      exact htail
    · have hsize := congrArg size htext'
      have hr := (stands_textIn (mem_embeddedBlocks.mp h).1).2
      rw [size_append] at hsize
      obtain rfl : tail' = [] := size_eq_zero (by omega)
      rfl
  · intro hspared
    by_cases hfree : ∀ m ∈ honouredMarks t (inertRanges t true), ¬ m.Encloses r.start
    · exact image_of_free h hfree
    · simp only [not_forall, not_not] at hfree
      obtain ⟨m, hm, hin⟩ := hfree
      obtain ⟨hkeep, htail⟩ := hspared m hm hin
      obtain ⟨head, tail, htext, -, hcut, himage⟩ := exists_image_of_encloses h hm hin
      rw [himage, if_pos hkeep, htext]
      rcases hcut with hcut | ⟨rfl, -⟩
      · rw [htail head tail htext hcut]
      · rfl

end

/-- **What compacting does to the blocks of a text.**  It gives a text in which the images of the blocks
stand in the order of the blocks.  The image of a block is the block itself exactly if the block is
spared; so the spared blocks are copied, and keep their order. -/
theorem compactMarkup?_blocks (t : Text) : ∃ u, compactMarkup? t (inertRanges t true) = some u ∧
    InOrder ((embeddedBlocks t).map (·.image t)) u ∧
    (∀ r ∈ embeddedBlocks t, r.image t = r.textIn t ↔ Spared t r) ∧
    ∀ rs : List InertRange, rs.Sublist (embeddedBlocks t) → (∀ r ∈ rs, Spared t r) →
      InOrder (rs.map (·.textIn t)) u := by
  refine ⟨_, compactMarkup?_eq t true, inOrder_images t, fun r hr => image_eq_textIn_iff hr,
    fun rs hsub hspared => ?_⟩
  have hsame : rs.map (·.textIn t) = rs.map (·.image t) := List.map_congr_left fun r hr =>
    ((image_eq_textIn_iff (hsub.subset hr)).mpr (hspared r hr)).symm
  rw [hsame]
  exact (inOrder_images t).sublist (hsub.map _)

/-- a block on its own, and one in a comment -/
def blockBeforeComment : Text := "<?= a  b ?>\n\n<!-- <?= c ?> -->".toList

theorem compactMarkup?_blocks_beforeComment :
    Spared blockBeforeComment ⟨0, 11, .embedded⟩ ∧ ¬ Spared blockBeforeComment ⟨18, 26, .embedded⟩ ∧
      ∃ u, compactMarkup? blockBeforeComment (inertRanges blockBeforeComment true) = some u ∧
        InOrder ["<?= a  b ?>".toList] u := by
  have hblocks : embeddedBlocks blockBeforeComment = [⟨0, 11, .embedded⟩, ⟨18, 26, .embedded⟩] := by
    decide
  have hspared : Spared blockBeforeComment ⟨0, 11, .embedded⟩ := fun _ _ hin =>
    absurd hin.1 (Nat.not_lt_zero _)
  have hcomment : (⟨13, 30, .comment⟩ : InertRange) ∈
      looseComments blockBeforeComment (inertRanges blockBeforeComment true) := by decide
  have hnot : ¬ Spared blockBeforeComment ⟨18, 26, .embedded⟩ := fun h =>
    absurd (h _ (honoured_of_mem_looseComments hcomment) (by decide)).1 (by decide)
  obtain ⟨u, hu, -, -, horder⟩ := compactMarkup?_blocks blockBeforeComment
  refine ⟨hspared, hnot, u, hu, horder [⟨0, 11, .embedded⟩] ?_ (List.forall_mem_singleton.mpr hspared)⟩
  rw [hblocks]
  exact .cons_cons _ (List.nil_sublist _)

/-- a comment takes the block along that stands in it -/
theorem compactMarkup?_dropsBlock : ¬ ∀ t : Text, ∃ u, compactMarkup? t (inertRanges t true) = some u ∧
    InOrder ((embeddedBlocks t).map (·.textIn t)) u := by
  intro h
  obtain ⟨u, hu, horder⟩ := h "<!-- <?php a(); ?> -->".toList
  have hblocks : (embeddedBlocks "<!-- <?php a(); ?> -->".toList).map
      (·.textIn "<!-- <?php a(); ?> -->".toList) = ["<?php a(); ?>".toList] := by decide
  have hcomment : (⟨0, 22, .comment⟩ : InertRange) ∈ looseComments "<!-- <?php a(); ?> -->".toList
      (inertRanges "<!-- <?php a(); ?> -->".toList true) := by decide
  have hempty := compactFrom_of_mem_honoured (u := "<!-- <?php a(); ?> -->".toList)
    (honoured_of_mem_looseComments hcomment)
  rw [if_neg (by decide)] at hempty
  obtain rfl := Option.some.inj ((compactMarkup?_eq _ true).symm.trans hu)
  rw [hempty, hblocks] at horder
  generalize hout : ([] : Text) = out at horder
  cases horder with
  | cons front _ =>
    exact List.append_ne_nil_of_left_ne_nil (List.cons_ne_nil _ _) _
      (List.append_eq_nil_iff.mp hout.symm).2

end SiteBundle
