import SiteBundle.Proofs.Markup.Honoured

/-!
# Elements that compacting copies

An element outside all inert ranges is copied when its mark is honoured, and of what begins where it
begins it is the longest (`findings_or_shorter`): no name of such an element begins another one, and the
opening tag that is found there is its own.  So it is honoured exactly if no honoured mark encloses its
start and the search for its own pattern finds it (`mem_honouredMarks_iff`).

The search goes over inert text as well, and over text that other marks take.  What it matches there
still takes its text along, and an element that begins in it is passed over (`PassedOver`).  Where
nothing that is copied runs over the start of an element, this comes only from a match that begins in an
inert range (`Hidden`, `mem_honouredMarks_iff_not_hidden`).
-/

namespace SiteBundle

open Text

/-! ## opening tags -/

section
variable {name t m r m' r' : Text}

theorem isTagNameChar_of_isBlank {c : Char} (h : isBlank c = true) : isTagNameChar c = false := by
  rw [isTagNameChar, isWord_of_isBlank h, beq_of_isBlank h rfl, beq_of_isBlank h rfl,
    beq_of_isBlank h rfl]
  rfl

/-- the name of a tag ends before the rest of the tag -/
theorem head_of_tagEnd? (h : tagEnd? t = some (m, r)) :
    ∃ c u, t = c :: u ∧ isTagNameChar c = false := by
  cases t with
  | nil => exact nomatch h
  | cons c t =>
    refine ⟨c, t, rfl, ?_⟩
    rw [tagEnd?] at h
    split at h
    · rename_i hc
      subst hc
      decide
    · split at h
      · rename_i hblank
        exact isTagNameChar_of_isBlank hblank
      · cases h

/-- an opening tag of a name is the one that is found there when any name will do -/
theorem eq_of_openingTag? (hname : ∀ l ∈ name, isLetter l = true) (hne : name ≠ [])
    (h : openingTag? name t = some (m, r)) (hany : anyOpeningTag? t = some (m', r')) : m' = m := by
  simp only [openingTag?, Option.bind_eq_bind, Option.bind_eq_some_iff, Option.pure_def,
    Option.some.injEq, Prod.mk.injEq, Prod.exists] at h
  obtain ⟨lead, u, hread, close, r, hclose, rfl, rfl⟩ := h
  obtain ⟨rfl, hlead⟩ := readFold?_eq_some_iff.mp hread
  obtain ⟨c, word, rfl, hc, rfl⟩ := List.map_eq_cons_iff.mp hlead
  obtain rfl := foldChar_eq_less hc
  obtain ⟨d, word, rfl⟩ :=
    List.exists_cons_of_ne_nil fun hnil => hne (congrArg (List.map foldChar) hnil)
  have hword : ∀ x ∈ word, isTagNameChar x = true := fun x hx => by
    have hx := hname (foldChar x) (List.mem_map_of_mem (List.mem_cons_of_mem d hx))
    rw [isTagNameChar, isWord_of_isLetter_foldChar hx]
    rfl
  obtain ⟨e, v, rfl, he⟩ := head_of_tagEnd? hclose
  have he : ¬ isTagNameChar e = true := Bool.eq_false_iff.mp he
  rw [List.cons_append, List.cons_append, anyOpeningTag?, List.dropWhile_append_of_pos hword,
    List.takeWhile_append_of_pos hword, List.dropWhile_cons_of_neg he,
    List.takeWhile_cons_of_neg he, List.append_nil, hclose] at hany
  split at hany
  · cases hany
    rfl
  · cases hany

end

/-! ## elements -/

section
variable {name t rest : Text} {e : Enclosed}

/-- an element is longer than its opening tag -/
theorem opening_of_enclosed? (h : enclosed? name t = some (e, rest)) :
    (∃ r, openingTag? name t = some (e.opening, r)) ∧ size e.opening < size e.text := by
  simp only [enclosed?, Option.bind_eq_bind, Option.bind_eq_some_iff, Option.pure_def,
    Option.some.injEq, Prod.mk.injEq, Prod.exists] at h
  obtain ⟨opening, r, hopen, body, closing, r', hseek, rfl, rfl⟩ := h
  obtain ⟨u, rfl, hclose, -⟩ := none_before_of_seek hseek
  obtain ⟨inner, rfl⟩ := ends_of_closingTag? hclose
  have hpos : 0 < size ('<' :: (inner ++ ['>'])) := size_pos (List.cons_ne_nil _ _)
  refine ⟨⟨_, hopen⟩, ?_⟩
  show size opening < size (opening ++ body ++ '<' :: (inner ++ ['>']))
  rw [size_append, size_append]
  omega

theorem letters_of_mem_verbatimNames :
    ∀ name ∈ verbatimNames, name ≠ [] ∧ ∀ l ∈ name, isLetter l = true := by
  decide

theorem eq_of_prefix_of_mem_verbatimNames :
    ∀ a ∈ verbatimNames, ∀ b ∈ verbatimNames, a <+: b → a = b := by
  decide

/-- only one of the names can be read in a place -/
theorem name_eq_of_enclosed? {name' rest' : Text} {e' : Enclosed} (hname : name ∈ verbatimNames)
    (hname' : name' ∈ verbatimNames) (h : enclosed? name t = some (e, rest))
    (h' : enclosed? name' t = some (e', rest')) : name' = name := by
  have hlead : ∀ {name e rest}, enclosed? name t = some (e, rest) →
      ∃ m r, readFold? ('<' :: name) t = some (m, r) := by
    intro name e rest h
    obtain ⟨⟨r, hopen⟩, -⟩ := opening_of_enclosed? h
    simp only [openingTag?, Option.bind_eq_bind, Option.bind_eq_some_iff, Prod.exists] at hopen
    obtain ⟨m, r, hread, -⟩ := hopen
    exact ⟨m, r, hread⟩
  obtain ⟨m, r, hread⟩ := hlead h
  obtain ⟨m', r', hread'⟩ := hlead h'
  rcases prefix_of_readFold? hread hread' with hprefix | hprefix
  · exact (eq_of_prefix_of_mem_verbatimNames _ hname _ hname'
      ((List.cons_prefix_cons.mp hprefix).2)).symm
  · exact eq_of_prefix_of_mem_verbatimNames _ hname' _ hname ((List.cons_prefix_cons.mp hprefix).2)

end

/-- the mark of an element -/
def Enclosed.markAt (e : Enclosed) (o : Nat) : Mark := ⟨o, o + size e.text, true⟩

/-- an element of one of the names can be read here, outside all inert ranges -/
structure VerbatimAt (t : Text) (inert : List InertRange) (name : Text) (o : Nat) (e : Enclosed) :
    Prop where
  named : name ∈ verbatimNames
  read : ∃ front back rest, t = front ++ back ∧ size front = o ∧ enclosed? name back = some (e, rest)
  free : isInert inert o = false

/-- an earlier match of the pattern goes over this place -/
def PassedOver (t name : Text) (o : Nat) : Prop :=
  ∃ x ∈ findings (fun _ => wholeElement? name) t, x.1 < o ∧ o < x.1 + size x.2

/-- one goes over it that begins in an inert range -/
def Hidden (t : Text) (inert : List InertRange) (name : Text) (o : Nat) : Prop :=
  ∃ x ∈ findings (fun _ => wholeElement? name) t, isInert inert x.1 = true ∧
    x.1 < o ∧ o < x.1 + size x.2

section
variable {t name : Text} {embedded : Bool} {o : Nat} {e : Enclosed}

theorem wholeElement?_eq_some {t u rest : Text} : wholeElement? name t = some (u, rest) ↔
    ∃ e, enclosed? name t = some (e, rest) ∧ e.text = u := by
  rw [wholeElement?, Option.map_eq_some_iff]
  constructor
  · rintro ⟨⟨e, r⟩, he, heq⟩
    cases heq
    exact ⟨e, he, rfl⟩
  · rintro ⟨e, he, rfl⟩
    exact ⟨(e, rest), he, rfl⟩

/-- a finding is read where it stands, whatever else is told of that place -/
theorem read_of_mem_findings {pattern : Text → Option (Text × Text)}
    (hp : Reads (fun _ => pattern) id) {front back u : Text} (ht : t = front ++ back)
    (hu : (size front, u) ∈ findings (fun _ => pattern) t) : ∃ r, pattern back = some (u, r) := by
  obtain ⟨front', r, ht', hsize, hread⟩ := mem_findings hp hu
  obtain ⟨-, rfl⟩ := append_inj_of_size (ht.symm.trans ht') hsize.symm
  exact ⟨r, hread⟩

/-- **What begins where the element begins is the element or shorter.** -/
theorem findings_or_shorter (h : VerbatimAt t (inertRanges t embedded) name o e) {m : Mark}
    (hm : m ∈ allMarks t (inertRanges t embedded)) (hstart : m.start = o) :
    ((o, e.text) ∈ findings (fun _ => wholeElement? name) t ∧ m = e.markAt o) ∨
      m.stop < o + size e.text := by
  obtain ⟨hname, ⟨front, back, rest, ht, rfl, hread⟩, hfree⟩ := h
  have hranges : ∀ r ∈ inertRanges t embedded, r.start ≠ size front := by
    intro r hr heq
    have hfits : Mark.Fits t ⟨r.start, r.stop, true⟩ := fits_of_mem_inertRanges hr
    have hpos : r.start < r.stop := hfits.ordered
    exact List.any_eq_false.mp hfree r hr (InertRange.covers_iff.mpr ⟨Nat.le_of_eq heq, heq ▸ hpos⟩)
  rcases mem_allMarks.mp hm with hm | hm
  · rcases mem_verbatimSpans.mp hm with ⟨r, hr, -, rfl⟩ | ⟨name', hname', hm⟩ | hm
    · exact absurd hstart (hranges r hr)
    · obtain ⟨u, hu, -, hm⟩ := mem_spansOf.mp hm
      rw [hstart] at hu hm
      obtain ⟨r, hu'⟩ := read_of_mem_findings (reads_wholeElement name') ht hu
      obtain ⟨e', he', rfl⟩ := wholeElement?_eq_some.mp hu'
      obtain rfl := name_eq_of_enclosed? hname hname' hread he'
      obtain ⟨rfl, -⟩ := Prod.mk.inj (Option.some.inj (hread.symm.trans he'))
      exact .inl ⟨hu, hm⟩
    · obtain ⟨u, hu, -, hm⟩ := mem_spansOf.mp hm
      rw [hstart] at hu hm
      obtain ⟨r, hu⟩ := read_of_mem_findings reads_anyOpeningTag ht hu
      obtain ⟨⟨r', hopen⟩, hlt⟩ := opening_of_enclosed? hread
      obtain ⟨hne, hletters⟩ := letters_of_mem_verbatimNames name hname
      obtain rfl := eq_of_openingTag? hletters hne hopen hu
      rw [hm]
      exact .inr (Nat.add_lt_add_left hlt _)
  · obtain ⟨r, hr, rfl⟩ := List.mem_map.mp hm
    exact absurd hstart (hranges r (mem_looseComments.mp hr).1)

/-- **An element is copied as a whole** exactly if its pattern's own search does not pass it over, and
no honoured mark runs over its start. -/
theorem mem_honouredMarks_iff (h : VerbatimAt t (inertRanges t embedded) name o e) :
    e.markAt o ∈ honouredMarks t (inertRanges t embedded) ↔ ¬ PassedOver t name o ∧
      ∀ m ∈ honouredMarks t (inertRanges t embedded), ¬ m.Encloses o := by
  constructor
  · intro hown
    have hmem := mem_allMarks_of_honoured hown
    obtain ⟨hfound, -⟩ := (findings_or_shorter h hmem rfl).resolve_right (Nat.lt_irrefl _)
    refine ⟨?_, fun m hm hin => ?_⟩
    · rintro ⟨x, hx, hlt, hin⟩
      have hle := le_of_mem_findingsFrom_of_lt (reads_wholeElement name) hx hfound hlt
      exact absurd hin (Nat.not_lt.mpr hle)
    · have hpos : o < o + size e.text := (fits_of_mem_allMarks hmem).ordered
      have hstart : m.start < o := hin.1
      rcases eq_or_related_of_pairwise apart_honouredMarks hm hown with rfl | hbefore | hbehind
      · exact absurd hstart (Nat.lt_irrefl _)
      · exact absurd hin.2 (Nat.not_lt.mpr hbefore)
      · have hbehind : o + size e.text ≤ m.start := hbehind
        omega
  · rintro ⟨hown, hfree⟩
    obtain ⟨hname, ⟨front, back, rest, ht, rfl, hread⟩, hout⟩ := id h
    have hwhole : wholeElement? name back = some (e.text, rest) :=
      wholeElement?_eq_some.mpr ⟨e, hread, rfl⟩
    rcases mem_or_inside_of_read (reads_wholeElement name) ht hwhole with hfound | ⟨x, hx, hlt, hin⟩
    · have hm : e.markAt (size front) ∈ allMarks t (inertRanges t embedded) :=
        mem_allMarks.mpr (.inl (mem_verbatimSpans.mpr
          (.inr (.inl ⟨name, hname, mem_spansOf.mpr ⟨e.text, hfound, hout, rfl⟩⟩))))
      exact mem_honouredMarks hm hfree fun x hx hstart =>
        (findings_or_shorter h hx hstart).imp_left And.right
    · exact absurd ⟨x, hx, hlt, hin⟩ hown

/-- an element that no span of copied text runs into is copied unless its pattern has passed it over -/
theorem mem_honouredMarks_iff_not_hidden (h : VerbatimAt t (inertRanges t embedded) name o e)
    (hfree : ∀ m ∈ verbatimSpans t (inertRanges t embedded), ¬ m.Encloses o) :
    e.markAt o ∈ honouredMarks t (inertRanges t embedded) ↔
      ¬ Hidden t (inertRanges t embedded) name o := by
  rw [mem_honouredMarks_iff h]
  constructor
  · rintro ⟨hown, -⟩ ⟨x, hx, -, hin⟩
    exact hown ⟨x, hx, hin⟩
  · refine fun hhidden => ⟨?_, fun m hm hin => ?_⟩
    · rintro ⟨x, hx, hin⟩
      cases hinert : isInert (inertRanges t embedded) x.1 with
      | true => exact hhidden ⟨x, hx, hinert, hin⟩
      | false =>
        exact hfree ⟨x.1, x.1 + size x.2, true⟩ (mem_verbatimSpans.mpr
          (.inr (.inl ⟨name, h.named, mem_spansOf.mpr ⟨x.2, hx, hinert, rfl⟩⟩))) hin
    · rcases mem_allMarks.mp (mem_allMarks_of_honoured hm) with hm | hm
      · exact hfree m hm hin
      · -- a comment over the start would make it inert
        obtain ⟨r, hr, rfl⟩ := List.mem_map.mp hm
        have hcover : r.covers o = true := InertRange.covers_iff.mpr ⟨Nat.le_of_lt hin.1, hin.2⟩
        exact List.any_eq_false.mp h.free r (mem_looseComments.mp hr).1 hcover

/-- an element stands in its text as a stretch -/
theorem VerbatimAt.stands {inert : List InertRange} (h : VerbatimAt t inert name o e) :
    Stretch.Stands t ⟨o, e.text⟩ := by
  obtain ⟨front, back, rest, rfl, ho, hread⟩ := h.read
  obtain ⟨inner, htext⟩ := ends_of_enclosed? hread
  exact ⟨⟨front, rest, by rw [append_of_enclosed? hread], ho⟩, ⟨'<', inner ++ ['>'], htext, rfl⟩,
    ⟨'<' :: inner, '>', htext, .inl rfl⟩⟩

/-- what is honoured as an element stands in the compact text, between what comes of the text before it
and of the text behind it -/
theorem compactFrom_of_verbatim (h : VerbatimAt t (inertRanges t embedded) name o e)
    (hown : e.markAt o ∈ honouredMarks t (inertRanges t embedded)) :
    ∃ front back, t = front ++ (e.text ++ back) ∧ size front = o ∧
      compactFrom (fates t embedded) none 0 t = compactFrom (fates t embedded) none 0 front ++
        (e.text ++ compactFrom (fates t embedded) none (o + size e.text) back) := by
  obtain ⟨front, back, ht, ho⟩ := h.stands.placed
  have hwhole : t = [] ++ (front ++ ((⟨o, e.text⟩ : Stretch).text ++ back)) := ht
  have hstart : size [] + size front = (⟨o, e.text⟩ : Stretch).start := (Nat.zero_add _).trans ho
  have hcut : compactFrom (fates t embedded) none 0 (front ++ (e.text ++ back)) =
      compactFrom (fates t embedded) none 0 front ++
        (compactFrom (fates t embedded) none o e.text ++
          compactFrom (fates t embedded) none (o + size e.text) back) :=
    compactFrom_stretch h.stands hwhole hstart
  have hcopied : compactFrom (fates t embedded) none o e.text = e.text :=
    compactFrom_of_mem_honoured hown
  refine ⟨front, back, ht, ho, ?_⟩
  rw [← ht, hcopied] at hcut
  exact hcut

end

/-- **Which elements compacting copies.**  It gives a text, and an element that can be read outside the
inert ranges is copied exactly if the search for its own pattern does not pass it over and no honoured
mark runs over its start.  A copied element stands byte for byte between what becomes of the text before
it and of the text behind it.  If no element that is found, no opening tag and no block runs over the
start of an element, then it is copied unless a match of its pattern that begins in an inert range hides
it. -/
theorem compactMarkup?_verbatim (t : Text) (embedded : Bool) :
    ∃ u, compactMarkup? t (inertRanges t embedded) = some u ∧
      ∀ name o e, VerbatimAt t (inertRanges t embedded) name o e →
        (e.markAt o ∈ honouredMarks t (inertRanges t embedded) ↔ ¬ PassedOver t name o ∧
          ∀ m ∈ honouredMarks t (inertRanges t embedded), ¬ m.Encloses o) ∧
        (e.markAt o ∈ honouredMarks t (inertRanges t embedded) →
          ∃ front back, t = front ++ (e.text ++ back) ∧ size front = o ∧
            u = compactFrom (fates t embedded) none 0 front ++
              (e.text ++ compactFrom (fates t embedded) none (o + size e.text) back)) ∧
        ((∀ m ∈ verbatimSpans t (inertRanges t embedded), ¬ m.Encloses o) →
          (e.markAt o ∈ honouredMarks t (inertRanges t embedded) ↔
            ¬ Hidden t (inertRanges t embedded) name o)) :=
  ⟨_, compactMarkup?_eq t embedded, fun _ _ _ h => ⟨mem_honouredMarks_iff h,
    fun hown => compactFrom_of_verbatim h hown, fun hfree => mem_honouredMarks_iff_not_hidden h hfree⟩⟩

/-- an element behind layout that collapses -/
def preBehindLayout : Text := "<p>a  b</p><pre>a  b</pre>".toList

theorem compactMarkup?_verbatim_behindLayout :
    VerbatimAt preBehindLayout (inertRanges preBehindLayout false) "pre".toList 11
      ⟨"<pre>".toList, "a  b".toList, "</pre>".toList⟩ ∧
    ∃ u, compactMarkup? preBehindLayout (inertRanges preBehindLayout false) = some u ∧
      "<pre>a  b</pre>".toList <:+: u := by
  have hat : VerbatimAt preBehindLayout (inertRanges preBehindLayout false) "pre".toList 11
      ⟨"<pre>".toList, "a  b".toList, "</pre>".toList⟩ :=
    ⟨by decide, ⟨"<p>a  b</p>".toList, "<pre>a  b</pre>".toList, [], rfl, rfl, by decide⟩, by decide⟩
  obtain ⟨u, hu, hcopied⟩ := compactMarkup?_verbatim preBehindLayout false
  have hshown : ¬ Hidden preBehindLayout (inertRanges preBehindLayout false) "pre".toList 11 := by
    unfold Hidden
    decide
  obtain ⟨-, hplace, hiff⟩ := hcopied _ _ _ hat
  obtain ⟨front, back, -, -, rfl⟩ := hplace ((hiff (by decide)).mpr hshown)
  exact ⟨hat, _, hu, _, _, List.append_assoc _ _ _⟩

/-- an element behind a comment with its tag -/
def preBehindComment : Text := "<!-- <pre> --><pre>a  b</pre>".toList

/-- a tag in a comment hides the element behind the comment -/
theorem compactMarkup?_collapsesElement : ¬ ∀ (t : Text) (embedded : Bool) (u : Text),
    compactMarkup? t (inertRanges t embedded) = some u →
    ∀ name o e, VerbatimAt t (inertRanges t embedded) name o e →
      (∀ name' o' e', VerbatimAt t (inertRanges t embedded) name' o' e' →
        ¬ (o' < o ∧ o < o' + size e'.text)) →
      (∀ front back m rest, t = front ++ back → isInert (inertRanges t embedded) (size front) = false →
        anyOpeningTag? back = some (m, rest) → ¬ (size front < o ∧ o < size front + size m)) →
      e.text <:+: u := by
  intro h
  have hall : ∀ o < 14, isInert (inertRanges preBehindComment false) o = true := by decide
  have hspans : verbatimSpans preBehindComment (inertRanges preBehindComment false) ++
      commentMarks preBehindComment (inertRanges preBehindComment false) =
        [⟨14, 19, true⟩, ⟨0, 14, false⟩] := by decide
  have hmarks : allMarks preBehindComment (inertRanges preBehindComment false) =
      [⟨0, 14, false⟩, ⟨14, 19, true⟩] := by
    rw [allMarks, hspans]
    simp [List.mergeSort, markLe]
  have hcompact : compactMarkup? preBehindComment (inertRanges preBehindComment false) =
      some "<pre>a b</pre>".toList := by
    rw [compactMarkup?_eq_layOut?, hmarks]
    decide
  have hat : VerbatimAt preBehindComment (inertRanges preBehindComment false) "pre".toList 14
      ⟨"<pre>".toList, "a  b".toList, "</pre>".toList⟩ :=
    ⟨by decide, ⟨"<!-- <pre> -->".toList, "<pre>a  b</pre>".toList, [], rfl, rfl, by decide⟩, by decide⟩
  -- all that begins before the element is in the comment
  have hcopied := h preBehindComment false _ hcompact _ _ _ hat
    (fun _ o' _ hother hin => Bool.false_ne_true (hother.free.symm.trans (hall o' hin.1)))
    fun front _ _ _ _ hout _ hin => Bool.false_ne_true (hout.symm.trans (hall (size front) hin.1))
  exact absurd hcopied.length_le (by decide)

end SiteBundle
