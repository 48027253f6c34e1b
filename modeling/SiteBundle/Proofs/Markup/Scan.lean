import SiteBundle.Markup.Document
import SiteBundle.Proofs.Text.Findings
import SiteBundle.Proofs.Text.Reading

/-!
# Scanned elements stand in the text

An element stands in a text when the text holds it, as written, at its offset (`Element.Stands`).
All elements that a scan finds stand in the text, and those of one tag follow each other without
overlap.  Every element begins with `<` and ends with `>`.

* `stands_of_mem_scan`, `pairwise_scan`   what a scan finds;
* `isBoundary_anchorOffset`   anchors are boundaries of the text;
* `isVacant?_eq_some`         a range between boundaries is vacant when all of it is layout or inert.
-/

namespace SiteBundle

open Text

/-! ## readers take what they report -/

theorem foldChar_eq_less {c : Char} (h : foldChar c = '<') : c = '<' :=
  eq_of_foldChar_eq h rfl

/-- what begins with a `<` as it is read begins with a `<` as it is written -/
theorem head_of_readFold? {lead t m r : Text} (h : readFold? ('<' :: lead) t = some (m, r)) :
    ∃ m', m = '<' :: m' := by
  cases t with
  | nil => cases h
  | cons c t =>
    rw [readFold?] at h
    split at h
    · next hc =>
      obtain ⟨p, _, e⟩ := Option.map_eq_some_iff.mp h
      cases e
      exact ⟨p.1, by rw [foldChar_eq_less hc]⟩
    · cases h

theorem last_of_attributeRun? {q : Option Char} {t m r : Text}
    (h : attributeRun? q t = some (m, r)) : ∃ m', m = m' ++ ['>'] := by
  induction t generalizing q m with
  | nil => cases q <;> cases h
  | cons c t ih =>
    have step : ∀ q', (attributeRun? q' t).map (fun p => (c :: p.1, p.2)) = some (m, r) →
        ∃ m', m = m' ++ ['>'] := by
      intro q' h
      obtain ⟨p, hp, e⟩ := Option.map_eq_some_iff.mp h
      cases e
      obtain ⟨m', e⟩ := ih hp
      exact ⟨c :: m', by rw [e]; rfl⟩
    cases q with
    | some q => exact step _ h
    | none =>
      rw [attributeRun?] at h
      split at h
      · cases h
        exact ⟨[], rfl⟩
      · exact step _ h

theorem last_of_tagEnd? {t m r : Text} (h : tagEnd? t = some (m, r)) : ∃ m', m = m' ++ ['>'] := by
  cases t with
  | nil => cases h
  | cons c t =>
    rw [tagEnd?] at h
    split at h
    · cases h
      exact ⟨[], rfl⟩
    · split at h
      · obtain ⟨p, hp, e⟩ := Option.map_eq_some_iff.mp h
        cases e
        obtain ⟨m', e⟩ := last_of_attributeRun? hp
        exact ⟨c :: m', by rw [e]; rfl⟩
      · cases h

theorem ends_of_openingTag? {name t m r : Text} (h : openingTag? name t = some (m, r)) :
    ∃ inner, m = '<' :: (inner ++ ['>']) := by
  simp only [openingTag?, Option.bind_eq_bind, Option.bind_eq_some_iff, Option.pure_def,
    Option.some.injEq, Prod.mk.injEq, Prod.exists] at h
  obtain ⟨lead, r1, h1, rest, r2, h2, rfl, rfl⟩ := h
  obtain ⟨lead', rfl⟩ := head_of_readFold? h1
  obtain ⟨rest', rfl⟩ := last_of_tagEnd? h2
  exact ⟨lead' ++ rest', by simp⟩

theorem ends_of_closingTag? {name t m r : Text} (h : closingTag? name t = some (m, r)) :
    ∃ inner, m = '<' :: (inner ++ ['>']) := by
  simp only [closingTag?, Option.bind_eq_bind, Option.bind_eq_some_iff, Prod.exists] at h
  obtain ⟨lead, r1, h1, h2⟩ := h
  obtain ⟨lead', rfl⟩ := head_of_readFold? h1
  split at h2
  · cases h2
    exact ⟨lead' ++ r1.takeWhile isBlank, by simp⟩
  · cases h2

/-! ## elements -/

section
variable {name t rest : Text} {e : Enclosed}

theorem append_of_enclosed? (h : enclosed? name t = some (e, rest)) : t = e.text ++ rest := by
  simp only [enclosed?, Option.bind_eq_bind, Option.bind_eq_some_iff, Option.pure_def,
    Option.some.injEq, Prod.mk.injEq, Prod.exists] at h
  obtain ⟨opening, r, h1, body, closing, r', h2, rfl, rfl⟩ := h
  obtain ⟨u, rfl, hc, -⟩ := none_before_of_seek h2
  rw [← openingTag?_append h1, ← closingTag?_append hc]
  simp [Enclosed.text]

theorem ends_of_enclosed? (h : enclosed? name t = some (e, rest)) :
    ∃ inner, e.text = '<' :: (inner ++ ['>']) := by
  simp only [enclosed?, Option.bind_eq_bind, Option.bind_eq_some_iff, Option.pure_def,
    Option.some.injEq, Prod.mk.injEq, Prod.exists] at h
  obtain ⟨opening, r, h1, body, closing, r', h2, rfl, rfl⟩ := h
  obtain ⟨i, rfl⟩ := ends_of_openingTag? h1
  obtain ⟨u, rfl, hc, -⟩ := none_before_of_seek h2
  obtain ⟨j, rfl⟩ := ends_of_closingTag? hc
  exact ⟨i ++ ['>'] ++ body ++ '<' :: j, by simp [Enclosed.text]⟩

variable {tag : Tag}

theorem append_of_read? (h : tag.read? t = some (e, rest)) : t = e.text ++ rest := by
  unfold Tag.read? at h
  split at h
  · exact append_of_enclosed? h
  · obtain ⟨p, hp, e'⟩ := Option.map_eq_some_iff.mp h
    cases e'
    rw [← openingTag?_append hp]
    simp [Enclosed.text]

theorem ends_of_read? (h : tag.read? t = some (e, rest)) :
    ∃ inner, e.text = '<' :: (inner ++ ['>']) := by
  unfold Tag.read? at h
  split at h
  · exact ends_of_enclosed? h
  · obtain ⟨p, hp, e'⟩ := Option.map_eq_some_iff.mp h
    cases e'
    obtain ⟨i, hi⟩ := ends_of_openingTag? hp
    exact ⟨i, by simp [Enclosed.text, hi]⟩

end

/-- the text holds the element, as written, at its offset -/
structure Element.Stands (t : Text) (e : Element) : Prop where
  placed : ∃ front back, t = front ++ (e.text ++ back) ∧ size front = e.start
  bracketed : ∃ inner, e.text = '<' :: (inner ++ ['>'])

namespace Element.Stands
variable {t : Text} {e : Element}

theorem boundary_start (h : e.Stands t) : IsBoundary t e.start := by
  obtain ⟨front, back, rfl, hs⟩ := h.placed
  exact hs ▸ isBoundary_size front _

theorem boundary_stop (h : e.Stands t) : IsBoundary t e.stop := by
  obtain ⟨front, back, rfl, hs⟩ := h.placed
  have hb := isBoundary_size (front ++ e.text) back
  rwa [List.append_assoc, size_append, hs] at hb

theorem start_lt_stop (h : e.Stands t) : e.start < e.stop := by
  obtain ⟨inner, hi⟩ := h.bracketed
  have hpos : 0 < size e.text := size_pos (by rw [hi]; exact List.cons_ne_nil _ _)
  show e.start < e.start + size e.text
  omega

theorem first (h : e.Stands t) : (e.start, '<') ∈ places 0 t := by
  obtain ⟨front, back, rfl, hs⟩ := h.placed
  obtain ⟨inner, hi⟩ := h.bracketed
  rw [places_append, hi, hs, Nat.zero_add]
  exact List.mem_append_right _ List.mem_cons_self

theorem last (h : e.Stands t) : (e.stop - 1, '>') ∈ places 0 t := by
  obtain ⟨front, back, rfl, hs⟩ := h.placed
  obtain ⟨inner, hi⟩ := h.bracketed
  have hstop : e.stop - 1 = size (front ++ '<' :: inner) := by
    have h1 : ('>' : Char).utf8Size = 1 := rfl
    show e.start + size e.text - 1 = _
    rw [hi, size_append, hs, size_cons, size_cons, size_append, size_cons, size_nil, h1]
    omega
  have ht : front ++ (e.text ++ back) = (front ++ '<' :: inner) ++ '>' :: back := by
    rw [hi]
    simp
  rw [ht, places_append, hstop, Nat.zero_add]
  exact List.mem_append_right _ List.mem_cons_self

end Element.Stands

theorem reads_tag (tag : Tag) : Reads (fun _ => tag.read?) Enclosed.text := by
  intro _ t e rest h
  refine ⟨append_of_read? h, ?_⟩
  obtain ⟨inner, hi⟩ := ends_of_read? h
  rw [hi]
  exact List.cons_ne_nil _ _

section
variable {t : Text} {inert : List InertRange} {tag : Tag} {e : Element}

theorem mem_scanElements : e ∈ scanElements t inert tag ↔
    e.tag = tag ∧ (e.start, e.parts) ∈ findings (fun _ => tag.read?) t ∧
      isInert inert e.start = false := by
  unfold scanElements
  rw [List.mem_map]
  constructor
  · rintro ⟨f, hf, rfl⟩
    obtain ⟨hf, hi⟩ := List.mem_filter.mp hf
    exact ⟨rfl, hf, by simpa using hi⟩
  · rintro ⟨rfl, hf, hi⟩
    exact ⟨(e.start, e.parts), List.mem_filter.mpr ⟨hf, by simpa using hi⟩, rfl⟩

theorem stands_of_mem_scan (h : e ∈ scanElements t inert tag) : e.Stands t := by
  obtain ⟨_, hf, _⟩ := mem_scanElements.mp h
  obtain ⟨front, rest, ht, ho, hr⟩ := mem_findings (reads_tag tag) hf
  exact ⟨⟨front, rest, ht, ho⟩, ends_of_read? hr⟩

variable (t inert tag)

theorem pairwise_scan : (scanElements t inert tag).Pairwise fun x y => x.stop ≤ y.start := by
  refine List.pairwise_map.mpr (List.Pairwise.filter _ ?_)
  exact pairwise_findingsFrom (reads_tag tag) .start t

end

/-! ## anchors -/

theorem reads_edge (edge : AnchorEdge) (name : Text) :
    Reads (fun _ => Document.edgeTag? edge name) id := by
  intro _ t m rest h
  cases edge with
  | start =>
    obtain ⟨inner, hi⟩ := ends_of_openingTag? h
    exact ⟨(openingTag?_append h).symm, by rw [hi]; exact List.cons_ne_nil _ _⟩
  | stop =>
    obtain ⟨inner, hi⟩ := ends_of_closingTag? h
    exact ⟨(closingTag?_append h).symm, by rw [hi]; exact List.cons_ne_nil _ _⟩

theorem isBoundary_ownOffset {d : Document} {a : Anchor} {n : Nat} (h : d.ownOffset? a = some n) :
    IsBoundary d.text n := by
  unfold Document.ownOffset? at h
  split at h
  · split at h
    · cases h
      exact isBoundary_zero _
    · cases h
      exact isBoundary_end _
  · next name _ =>
    obtain ⟨f, hf, hn⟩ := Option.map_eq_some_iff.mp h
    obtain ⟨front, rest, ht, ho, _⟩ :=
      mem_findings (reads_edge a.edge name) (List.mem_of_find?_eq_some hf)
    rw [ht]
    split at hn
    · have hb := isBoundary_size (front ++ f.2) rest
      rw [List.append_assoc, size_append, ho] at hb
      exact hn ▸ hb
    · exact hn ▸ ho ▸ isBoundary_size front _

theorem isBoundary_anchorOffset (d : Document) (a : Anchor) :
    IsBoundary d.text (d.anchorOffset a) := by
  unfold Document.anchorOffset
  cases h : a.chain.findSome? d.ownOffset? with
  | none => exact isBoundary_end _
  | some n =>
    obtain ⟨b, _, hb⟩ := List.exists_of_findSome?_eq_some h
    exact isBoundary_ownOffset hb

/-! ## vacancy -/

theorem vacantFrom_iff {inert : List InertRange} {o : Nat} {t : Text} :
    Document.vacantFrom inert o t = true ↔
      ∀ p ∈ places o t, isGap p.2 = true ∨ isInert inert p.1 = true := by
  induction t generalizing o with
  | nil => simp [Document.vacantFrom]
  | cons c t ih => simp [Document.vacantFrom, ih]

theorem isVacant?_eq_some {d : Document} {start stop : Nat} (h1 : IsBoundary d.text start)
    (h2 : IsBoundary d.text stop) : ∃ b, d.isVacant? start stop [] = some b ∧
      (b = true ↔ ∀ p ∈ places 0 d.text, start ≤ p.1 → p.1 < stop →
        isGap p.2 = true ∨ isInert d.inert p.1 = true) := by
  unfold Document.isVacant?
  rw [Nat.min_eq_left h2.le_size]
  by_cases hle : stop ≤ start
  · refine ⟨true, if_pos hle, ?_⟩
    simp only [true_iff]
    intro p _ h3 h4
    omega
  · obtain ⟨a, b, c, ht, ha, hb, hs⟩ := slice?_isSome h1 h2 (by omega)
    refine ⟨Document.vacantFrom (d.inert ++ []) start b, ?_, ?_⟩
    · show (if stop ≤ start then _ else _) = _
      rw [if_neg hle, hs]
      rfl
    · rw [vacantFrom_iff, List.append_nil]
      have hp : places 0 d.text = places 0 a ++ places start b ++ places stop c := by
        rw [ht, places_append, places_append, size_append, Nat.zero_add, Nat.zero_add, ha, ← hb, ha]
      rw [hp]
      constructor
      · intro h p hmem h3 h4
        rcases List.mem_append.mp hmem with hmem | hmem
        · rcases List.mem_append.mp hmem with hmem | hmem
          · have := bounds_of_mem_places hmem
            omega
          · exact h p hmem
        · have := bounds_of_mem_places hmem
          omega
      · intro h p hmem
        have := bounds_of_mem_places hmem
        exact h p (List.mem_append_left _ (List.mem_append_right _ hmem)) (by omega) (by omega)

end SiteBundle
