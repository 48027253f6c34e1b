import SiteBundle.Proofs.Markup.Inert

/-!
# Where anchors are

An anchor is at the first tag of its edge that does not begin in an inert range, behind an opening tag
and before a closing one; when there is none, it is where its fallback is.  Two things can go wrong for
opening tags, whose attributes may hold anything: a tag that begins in an inert range may go on behind
it and take the tags there with it (`Hides`), and a range that begins in an opening tag may go on
behind the tag.  A closing tag holds neither (`clear_of_stop`).

* `Shows`, `Hides`, `Visible`   tags outside the inert ranges, and those that the search comes by;
* `AnchoredAt`   the place of an anchor, for a notion of what tags count;
* `anchoredAt_visible`, `AnchoredAt.inside`   where anchors are, and which of them are in inert text;
* `anchorOffset_exact`   both together.
-/

namespace SiteBundle

open Text

namespace Anchor

theorem edge_of_fallback {a b : Anchor} (h : a.fallback? = some b) : b.edge = a.edge := by
  obtain ⟨element, edge⟩ := a
  cases element <;> cases h <;> rfl

theorem mem_chain (a : Anchor) : a ∈ a.chain := by
  obtain ⟨element, edge⟩ := a
  cases element <;> exact List.mem_cons_self

theorem edge_of_mem_chain (a : Anchor) : ∀ b ∈ a.chain, b.edge = a.edge := by
  obtain ⟨element, edge⟩ := a
  cases element <;> simp [chain]

theorem chain_of_fallback {a b : Anchor} (h : a.fallback? = some b) : a.chain = a :: b.chain := by
  obtain ⟨element, edge⟩ := a
  cases element <;> cases h <;> rfl

end Anchor

namespace Document
variable {d : Document} {a : Anchor} {edge : AnchorEdge} {name m : Text} {o n : Nat}

/-! ## tags -/

/-- a tag of this edge and name stands at the offset, outside the inert ranges -/
def Shows (d : Document) (edge : AnchorEdge) (name : Text) (o : Nat) (m : Text) : Prop :=
  ∃ front back, d.text = front ++ (m ++ back) ∧ size front = o ∧
    edgeTag? edge name (m ++ back) = some (m, back) ∧ isInert d.inert o = false

/-- the tags of an edge and name in the order a search finds them, those that begin in inert text
included -/
def edgeTags (d : Document) (edge : AnchorEdge) (name : Text) : List (Nat × Text) :=
  findings (fun _ => edgeTag? edge name) d.text

/-- the offset lies inside a tag that was found in inert text and goes on over it -/
def Hides (d : Document) (edge : AnchorEdge) (name : Text) (o : Nat) : Prop :=
  ∃ f ∈ d.edgeTags edge name, isInert d.inert f.1 = true ∧ f.1 < o ∧ o < f.1 + size f.2

def Visible (d : Document) (edge : AnchorEdge) (name : Text) (o : Nat) (m : Text) : Prop :=
  d.Shows edge name o m ∧ ¬ d.Hides edge name o

/-- what is found outside inert text is visible -/
theorem visible_of_mem (h : (o, m) ∈ d.edgeTags edge name) (hout : isInert d.inert o = false) :
    d.Visible edge name o m := by
  obtain ⟨front, back, ht, ho, hread⟩ := mem_findings (reads_edge edge name) h
  refine ⟨⟨front, back, ht, ho, hread, hout⟩, ?_⟩
  rintro ⟨f, hf, -, hlt, hin⟩
  have hle : f.1 + size f.2 ≤ o :=
    le_of_mem_findingsFrom_of_lt (reads_edge edge name) hf h hlt
  exact absurd hin (Nat.not_lt.mpr hle)

/-- what is visible is found, or stands in something visible that is found before -/
theorem exists_mem_of_visible (h : d.Visible edge name o m) :
    ∃ f ∈ d.edgeTags edge name, isInert d.inert f.1 = false ∧ f.1 ≤ o := by
  obtain ⟨⟨front, back, ht, ho, hread, hout⟩, hhidden⟩ := h
  subst ho
  rcases mem_or_inside_of_read (reads_edge edge name) ht hread with hmem | ⟨f, hf, hlt, hin⟩
  · exact ⟨_, hmem, hout, Nat.le_refl _⟩
  · refine ⟨f, hf, ?_, Nat.le_of_lt hlt⟩
    exact Bool.eq_false_iff.mpr fun hinert => hhidden ⟨f, hf, hinert, hlt, hin⟩

/-- nothing hides a closing tag -/
theorem not_hides_stop (hname : '<' ∉ name) (h : d.Shows .stop name o m) :
    ¬ d.Hides .stop name o := by
  rintro ⟨⟨o', m'⟩, hf, -, hlt, hin⟩
  obtain ⟨front, back, ht, rfl, hread, -⟩ := h
  obtain ⟨before, rest, ht', rfl, hread'⟩ := mem_findings (reads_edge .stop name) hf
  obtain ⟨inner, rfl⟩ := ends_of_closingTag? hread
  obtain ⟨tail, rfl, hno⟩ : ∃ tail, m' = '<' :: tail ∧ '<' ∉ tail := by
    obtain ⟨⟨lead, r⟩, hlead, hend⟩ := Option.bind_eq_some_iff.mp hread'
    obtain ⟨-, hmap⟩ := readFold?_eq_some_iff.mp hlead
    obtain ⟨c, lead, rfl, hc, htail⟩ := List.map_eq_cons_iff.mp hmap
    obtain rfl := foldChar_eq_less hc
    dsimp only at hend
    split at hend
    · cases hend
      refine ⟨lead ++ r.takeWhile isBlank ++ ['>'], rfl, ?_⟩
      rw [List.mem_append, List.mem_append]
      rintro ((hmem | hmem) | hmem)
      · have hfold : foldChar '<' ∈ '/' :: name := htail ▸ List.mem_map_of_mem hmem
        exact (List.mem_cons.mp hfold).elim (by decide) hname
      · exact absurd (List.all_eq_true.mp List.all_takeWhile _ hmem) (by decide)
      · exact absurd (List.mem_singleton.mp hmem) (by decide)
    · exact nomatch hend
  exact hno (mem_of_inside (ht'.symm.trans ht) hlt hin)

/-! ## places -/

/-- behind an opening tag, before a closing one -/
def edgeOffset : AnchorEdge → Nat → Text → Nat
  | .start, o, m => o + size m
  | .stop, o, _ => o

/-- the place of an anchor when the tags that count are those of which `P` holds -/
inductive AnchoredAt (d : Document) (P : AnchorEdge → Text → Nat → Text → Prop) : Anchor → Nat → Prop
  | tag {a : Anchor} {name m : Text} {o : Nat} (hname : anchorName? a.element = some name)
      (h : P a.edge name o m) (hfirst : ∀ o' m', P a.edge name o' m' → o ≤ o') :
      AnchoredAt d P a (edgeOffset a.edge o m)
  | fallback {a b : Anchor} {name : Text} {n : Nat} (hname : anchorName? a.element = some name)
      (hno : ∀ o m, ¬ P a.edge name o m) (hb : a.fallback? = some b) (h : AnchoredAt d P b n) :
      AnchoredAt d P a n
  | top : AnchoredAt d P ⟨.file, .start⟩ 0
  | bottom : AnchoredAt d P ⟨.file, .stop⟩ (size d.text)

theorem ownOffset?_eq (hname : anchorName? a.element = some name) : d.ownOffset? a =
    ((d.edgeTags a.edge name).find? fun f => !isInert d.inert f.1).map fun f =>
      edgeOffset a.edge f.1 f.2 := by
  unfold ownOffset?
  rw [hname]
  obtain ⟨element, edge⟩ := a
  cases edge <;> rfl

/-- an anchor's own offset is that of the first visible tag -/
theorem ownOffset?_eq_some (hname : anchorName? a.element = some name)
    (h : d.ownOffset? a = some n) : ∃ o m, d.Visible a.edge name o m ∧
      (∀ o' m', d.Visible a.edge name o' m' → o ≤ o') ∧ n = edgeOffset a.edge o m := by
  rw [ownOffset?_eq hname] at h
  obtain ⟨⟨o, m⟩, hfind, rfl⟩ := Option.map_eq_some_iff.mp h
  obtain ⟨hout, before, behind, hsplit, hbefore⟩ := List.find?_eq_some_iff_append.mp hfind
  have hmem := List.mem_of_find?_eq_some hfind
  refine ⟨o, m, visible_of_mem hmem (Bool.not_eq_true' _ ▸ hout), fun o' m' hvisible => ?_, rfl⟩
  obtain ⟨f, hf, hfout, hle⟩ := exists_mem_of_visible hvisible
  refine Nat.le_trans ?_ hle
  have hpair : (d.edgeTags a.edge name).Pairwise fun x y => x.1 + size x.2 ≤ y.1 :=
    pairwise_findingsFrom (reads_edge a.edge name) .start d.text
  rw [hsplit] at hf hpair
  rcases List.mem_append.mp hf with hf | hf
  · exact absurd (hbefore f hf) (by rw [hfout]; decide)
  · rcases List.mem_cons.mp hf with rfl | hf
    · exact Nat.le_refl _
    · have hbehind := (List.pairwise_cons.mp (List.pairwise_append.mp hpair).2.1).1 f hf
      exact Nat.le_trans (Nat.le_add_right _ _) hbehind

theorem ownOffset?_eq_none (hname : anchorName? a.element = some name) (h : d.ownOffset? a = none)
    (o : Nat) (m : Text) : ¬ d.Visible a.edge name o m := by
  intro hvisible
  obtain ⟨f, hf, hout, -⟩ := exists_mem_of_visible hvisible
  rw [ownOffset?_eq hname, Option.map_eq_none_iff, List.find?_eq_none] at h
  exact absurd hout (by simpa using h f hf)

/-- an anchor that a document lacks is where its fallback is -/
theorem anchorOffset_of_fallback {b : Anchor} (hb : a.fallback? = some b) :
    d.anchorOffset a = (d.ownOffset? a).getD (d.anchorOffset b) := by
  unfold anchorOffset
  rw [Anchor.chain_of_fallback hb, List.findSome?_cons]
  cases d.ownOffset? a <;> rfl

/-- one step: from the place of the fallback to that of the anchor -/
theorem anchoredAt_of_fallback {b : Anchor} (hname : anchorName? a.element = some name)
    (hb : a.fallback? = some b) (h : d.AnchoredAt d.Visible b (d.anchorOffset b)) :
    d.AnchoredAt d.Visible a (d.anchorOffset a) := by
  rw [anchorOffset_of_fallback hb]
  cases hown : d.ownOffset? a with
  | none => exact .fallback hname (ownOffset?_eq_none hname hown) hb h
  | some n =>
    obtain ⟨o, m, hvisible, hfirst, rfl⟩ := ownOffset?_eq_some hname hown
    exact .tag hname hvisible hfirst

theorem anchoredAt_visible (d : Document) (a : Anchor) :
    d.AnchoredAt d.Visible a (d.anchorOffset a) := by
  obtain ⟨element, edge⟩ := a
  have hfile : d.AnchoredAt d.Visible ⟨.file, edge⟩ (d.anchorOffset ⟨.file, edge⟩) := by
    cases edge with
    | start => exact .top
    | stop => exact .bottom
  have hdocument : d.AnchoredAt d.Visible ⟨.document, edge⟩ (d.anchorOffset ⟨.document, edge⟩) :=
    anchoredAt_of_fallback rfl rfl hfile
  cases element with
  | head => exact anchoredAt_of_fallback rfl rfl hdocument
  | body => exact anchoredAt_of_fallback rfl rfl hdocument
  | document => exact hdocument
  | file => exact hfile

/-! ## what is hidden, and what is inert -/

/-- no tag that the anchor or one of its fallbacks looks for is hidden -/
def Clear (d : Document) (a : Anchor) : Prop :=
  ∀ b ∈ a.chain, ∀ name, anchorName? b.element = some name →
    ∀ o m, d.Shows b.edge name o m → ¬ d.Hides b.edge name o

theorem Clear.visible_iff {b : Anchor} (h : d.Clear a) (hb : b ∈ a.chain)
    (hname : anchorName? b.element = some name) :
    d.Visible b.edge name o m ↔ d.Shows b.edge name o m :=
  ⟨fun hvisible => hvisible.1, fun hshows => ⟨hshows, h b hb name hname o m hshows⟩⟩

theorem AnchoredAt.of_clear (h : d.AnchoredAt d.Visible a n) (hclear : d.Clear a) :
    d.AnchoredAt d.Shows a n := by
  induction h with
  | @tag a name m o hname h hfirst =>
    refine .tag hname h.1 fun o' m' hshows => hfirst o' m' ?_
    exact (hclear.visible_iff a.mem_chain hname).mpr hshows
  | @fallback a b name n hname hno hb _ ih =>
    refine .fallback hname (fun o m hshows => hno o m ?_) hb (ih fun c hc => hclear c ?_)
    · exact (hclear.visible_iff a.mem_chain hname).mpr hshows
    · rw [Anchor.chain_of_fallback hb]
      exact List.mem_cons_of_mem a hc
  | top => exact .top
  | bottom => exact .bottom

/-- the names of elements have no `<` -/
theorem less_not_mem_name {element : AnchorElement} (h : anchorName? element = some name) :
    '<' ∉ name := by
  cases element <;> cases h <;> decide

theorem clear_of_stop (h : a.edge = .stop) : d.Clear a := by
  intro b hb name hname o m hshows
  rw [a.edge_of_mem_chain b hb, h] at hshows ⊢
  exact not_hides_stop (less_not_mem_name hname) hshows

/-- an anchor in an inert range is behind an opening tag in which the range begins -/
theorem AnchoredAt.inside (h : d.AnchoredAt d.Visible a n) {r : InertRange} (hr : r ∈ d.inert)
    (hlt : r.start < n) (hin : n < r.stop) : a.edge = .start ∧
      ∃ name o m, d.Visible .start name o m ∧ n = o + size m ∧ o < r.start := by
  have hout : ∀ {o}, isInert d.inert o = false → ¬ (r.start ≤ o ∧ o < r.stop) := by
    intro o ho hcovers
    exact List.any_eq_false.mp ho r hr (InertRange.covers_iff.mpr hcovers)
  induction h with
  | @tag a name m o hname h hfirst =>
    obtain ⟨-, -, -, -, -, ho⟩ := h.1
    cases hedge : a.edge with
    | start =>
      rw [hedge] at h hlt hin
      refine ⟨rfl, name, o, m, h, rfl, Nat.lt_of_not_le fun hle => hout ho ⟨hle, ?_⟩⟩
      exact Nat.lt_of_le_of_lt (Nat.le_add_right o (size m)) hin
    | stop =>
      rw [hedge] at hlt hin
      exact absurd ⟨Nat.le_of_lt hlt, hin⟩ (hout ho)
  | fallback hname hno hb h ih =>
    obtain ⟨hedge, hfound⟩ := ih hlt hin
    exact ⟨(Anchor.edge_of_fallback hb).symm.trans hedge, hfound⟩
  | top => exact absurd hlt (Nat.not_lt_zero _)
  | bottom =>
    obtain ⟨u, hstands, hstop⟩ := stands_of_mem_inertRanges hr
    have hle : r.start + size u ≤ size d.text := hstands.stop_le_size
    omega

/-- **Where anchors are.**  An anchor is at a boundary of the text, at the first visible tag of its edge
or, when there is none, where its fallback is.  At the end of an element, and wherever nothing is
hidden, that is the first tag outside the inert ranges.  It lies inside an inert range only at the
start of an element, when the range begins in the opening tag and goes on behind it. -/
theorem anchorOffset_exact (d : Document) (a : Anchor) :
    IsBoundary d.text (d.anchorOffset a) ∧ d.anchorOffset a ≤ size d.text ∧
    d.AnchoredAt d.Visible a (d.anchorOffset a) ∧
    (a.edge = .stop ∨ d.Clear a → d.AnchoredAt d.Shows a (d.anchorOffset a)) ∧
    ∀ r ∈ d.inert, r.start < d.anchorOffset a → d.anchorOffset a < r.stop →
      a.edge = .start ∧ ∃ name o m, d.Visible .start name o m ∧ d.anchorOffset a = o + size m ∧
        o < r.start := by
  have hboundary := isBoundary_anchorOffset d a
  have hplace := anchoredAt_visible d a
  exact ⟨hboundary, hboundary.le_size, hplace,
    fun hclear => hplace.of_clear (hclear.elim clear_of_stop id),
    fun r hr hlt hin => hplace.inside hr hlt hin⟩

/-! ## a block in an opening tag -/

/-- a closing tag in a comment, and one behind it -/
def commented : Document :=
  .ofText "<html><head><!-- </head> --></head><body class='x'></body></html>".toList false

/-- a `>` in a block among the attributes of the body -/
def torn : Document := .ofText "<body <?php if (1>0) echo 'x'; ?>><p></p></body>".toList true

theorem anchorOffset_exact_commented : commented.anchorOffset ⟨.head, .stop⟩ = 28 ∧
    commented.AnchoredAt commented.Shows ⟨.head, .stop⟩ (commented.anchorOffset ⟨.head, .stop⟩) ∧
    (⟨6, 33, .embedded⟩ : InertRange) ∈ torn.inert ∧ torn.anchorOffset ⟨.body, .start⟩ = 18 ∧
    ∃ name o m, torn.Visible .start name o m ∧ torn.anchorOffset ⟨.body, .start⟩ = o + size m ∧
      o < 6 := by
  have hmem : (⟨6, 33, .embedded⟩ : InertRange) ∈ torn.inert := by decide
  have hoffset : torn.anchorOffset ⟨.body, .start⟩ = 18 := by decide
  obtain ⟨-, -, -, hplace, -⟩ := anchorOffset_exact commented ⟨.head, .stop⟩
  obtain ⟨-, -, -, -, hinside⟩ := anchorOffset_exact torn ⟨.body, .start⟩
  obtain ⟨-, hopening⟩ := hinside _ hmem (by decide) (by decide)
  exact ⟨by decide, hplace (.inl rfl), hmem, hoffset, hopening⟩

/-- an opening tag in a comment that takes the body's own one along -/
def veiled : Document := .ofText "<!-- <body class=' --><body><p>it's</p></body>".toList false

/-- the start of one body is in a block, and that of another one is not behind its tag -/
theorem anchorOffset_inBlock :
    (¬ ∀ r ∈ torn.inert, ¬ (r.start < torn.anchorOffset ⟨.body, .start⟩ ∧
      torn.anchorOffset ⟨.body, .start⟩ < r.stop)) ∧
    veiled.Shows .start "body".toList 22 "<body>".toList ∧
    (∀ o m, veiled.Shows .start "body".toList o m → 22 ≤ o) ∧
    veiled.anchorOffset ⟨.body, .start⟩ = 0 := by
  refine ⟨by decide, ?_, fun o m hshows => Nat.le_of_not_lt fun hlt => ?_, by decide⟩
  · exact ⟨"<!-- <body class=' -->".toList, "<p>it's</p></body>".toList, rfl, rfl, by decide, by decide⟩
  · obtain ⟨-, -, -, -, -, hout⟩ := hshows
    have hcomment : (⟨0, 22, .comment⟩ : InertRange) ∈ veiled.inert := by decide
    refine List.any_eq_false.mp hout _ hcomment ?_
    rw [InertRange.covers, Bool.and_eq_true, decide_eq_true_eq, decide_eq_true_eq]
    exact ⟨Nat.zero_le o, hlt⟩

end Document
end SiteBundle
