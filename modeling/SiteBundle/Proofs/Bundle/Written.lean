import SiteBundle.Proofs.Bundle.Pass
import SiteBundle.Proofs.Bundle.Sources
import SiteBundle.Proofs.Markup.Attributes
import SiteBundle.Proofs.Markup.Markers

/-!
# Written elements are read back

An element written from its attributes and a body that its closing tag does not stand in is found
again by a scan of what was written, alone and whole, whether or not the document may hold embedded
blocks: no range that begins behind its first character makes it inert.

* `openingTag?_written`   the opening tag ends where its attributes do, whatever their values hold;
* `read?_written`         the element ends with its own closing tag, whatever follows;
* `not_isInert_written`   it does not start in an inert range;
* `scanElements_elementText`   the scan, and what it says of absolute references written anew.
-/

namespace SiteBundle

open Text

/-! ## opening tags -/

namespace Attributes

theorem attributeRun?_outside {t : Text} (h : ∀ c ∈ t, c ≠ '>' ∧ c ≠ '"' ∧ c ≠ '\'') (rest : Text) :
    attributeRun? none (t ++ rest) = (attributeRun? none rest).map fun p => (t ++ p.1, p.2) := by
  induction t with
  | nil => simp
  | cons c t ih =>
    obtain ⟨⟨hgreater, hdouble, hsingle⟩, h⟩ := List.forall_mem_cons.mp h
    rw [List.cons_append, attributeRun?, if_neg hgreater, if_neg (not_or.mpr ⟨hdouble, hsingle⟩),
      ih h, Option.map_map]
    rfl

theorem attributeRun?_inside {q : Char} {t : Text} (h : q ∉ t) (rest : Text) :
    attributeRun? (some q) (t ++ q :: rest) =
      (attributeRun? none rest).map fun p => (t ++ q :: p.1, p.2) := by
  induction t with
  | nil =>
    rw [List.nil_append, attributeRun?, if_pos rfl]
    rfl
  | cons c t ih =>
    obtain ⟨hc, h⟩ := List.ne_and_not_mem_of_not_mem_cons h
    rw [List.cons_append, attributeRun?, if_neg (Ne.symm hc), ih h, Option.map_map]
    rfl

theorem attributeRun?_name {name : Text} (h : ∀ c ∈ name, isNameChar c = true) (rest : Text) :
    attributeRun? none (' ' :: name ++ rest) =
      (attributeRun? none rest).map fun p => (' ' :: name ++ p.1, p.2) := by
  refine attributeRun?_outside (fun c hc => ?_) rest
  rcases List.mem_cons.mp hc with rfl | hc
  · decide
  · exact ⟨ne_of_isNameChar (h c hc) (by decide), ne_of_isNameChar (h c hc) (by decide),
      ne_of_isNameChar (h c hc) (by decide)⟩

/-- a written entry is passed over, whatever its value holds -/
theorem attributeRun?_entryText {e : Text × Option Text} (h : EntryFits e) (rest : Text) :
    attributeRun? none (entryText e ++ rest) =
      (attributeRun? none rest).map fun p => (entryText e ++ p.1, p.2) := by
  obtain ⟨name, value⟩ := e
  cases value with
  | none =>
    rw [entryText_flag]
    exact attributeRun?_name h.name rest
  | some v =>
    have hquoted : attributeRun? none ('=' :: quoteOf v :: (v ++ quoteOf v :: rest)) =
        (attributeRun? none rest).map fun p =>
          ('=' :: quoteOf v :: (v ++ quoteOf v :: p.1), p.2) := by
      have hopen : quoteOf v ≠ '>' ∧ (quoteOf v = '"' ∨ quoteOf v = '\'') := by
        refine ⟨?_, quoteOf_cases v⟩
        rcases quoteOf_cases v with hq | hq
        · rw [hq]
          decide
        · rw [hq]
          decide
      rw [attributeRun?, if_neg (by decide), if_neg (by decide), attributeRun?, if_neg hopen.1,
        if_pos hopen.2, attributeRun?_inside (quoteOf_not_mem (h.value v rfl)), Option.map_map,
        Option.map_map]
      rfl
    have happend : ∀ r, entryText (name, some v) ++ r =
        ' ' :: name ++ '=' :: quoteOf v :: (v ++ quoteOf v :: r) := by
      intro r
      rw [entryText_value]
      simp
    rw [happend, attributeRun?_name h.name, hquoted, Option.map_map]
    refine congrArg (Option.map · _) (funext fun p => ?_)
    rw [happend]
    rfl

theorem attributeRun?_text {es : List (Text × Option Text)} (hes : ∀ e ∈ es, EntryFits e)
    (rest : Text) : attributeRun? none (es.flatMap entryText ++ '>' :: rest) =
      some (es.flatMap entryText ++ ['>'], rest) := by
  induction es with
  | nil => rw [List.flatMap_nil, List.nil_append, attributeRun?, if_pos rfl]; rfl
  | cons e es ih =>
    obtain ⟨he, hes⟩ := List.forall_mem_cons.mp hes
    rw [List.flatMap_cons, List.append_assoc, attributeRun?_entryText he, ih hes, Option.map_some,
      List.append_assoc]

/-- the attributes of a tag end where they were written to -/
theorem tagEnd?_text {a : Attributes} (h : ∀ e ∈ a.entries, EntryFits e) (rest : Text) :
    tagEnd? (a.text ++ '>' :: rest) = some (a.text ++ ['>'], rest) := by
  have hrun := attributeRun?_text h rest
  rw [text]
  cases hes : a.entries with
  | nil => rw [List.flatMap_nil, List.nil_append, tagEnd?, if_pos rfl]; rfl
  | cons e es =>
    -- the first character of an entry is the space before its name
    have hspace : ∃ r, (e :: es).flatMap entryText = ' ' :: r := by
      rw [List.flatMap_cons]
      unfold entryText
      split
      · exact ⟨_, rfl⟩
      · split
        · exact ⟨_, rfl⟩
        · exact ⟨_, rfl⟩
    obtain ⟨r, hr⟩ := hspace
    rw [hes, hr] at hrun
    rw [hr]
    rw [List.cons_append, attributeRun?, if_neg (by decide), if_neg (by decide)] at hrun
    rw [List.cons_append, tagEnd?, if_neg (by decide), if_pos (by decide)]
    exact hrun

end Attributes

/-! ## elements -/

namespace Tag
variable (tag : Tag)

theorem name_ne_nil : tag.name ≠ [] := by
  cases tag <;> decide

theorem isNameChar_name : ∀ c ∈ tag.name, Attributes.isNameChar c = true := by
  cases tag <;> decide

theorem foldChar_name : ∀ c ∈ tag.name, foldChar c = c := by
  cases tag <;> decide

/-- the tag's closing tag stands somewhere in the text -/
def closes (t : Text) : Bool := tag.hasBody && (seek (closingTag? tag.name) t).isSome

end Tag

section
variable {tag : Tag} {a : Attributes} {body : Text}

/-- the opening tag of an element written with these attributes -/
def openingText (tag : Tag) (a : Attributes) : Text := '<' :: (tag.name ++ (a.text ++ ['>']))

/-- the closing tag of a written element -/
def closingText (tag : Tag) : Text := '<' :: '/' :: (tag.name ++ ['>'])

theorem openingTag?_written (h : a.Writable) (rest : Text) :
    openingTag? tag.name (openingText tag a ++ rest) = some (openingText tag a, rest) := by
  have hlead : readFold? ('<' :: tag.name) ('<' :: tag.name ++ (a.text ++ '>' :: rest)) =
      some ('<' :: tag.name, a.text ++ '>' :: rest) := by
    refine readFold?_self (fun c hc => ?_) _
    rcases List.mem_cons.mp hc with rfl | hc
    · decide
    · exact tag.foldChar_name c hc
  have htext : openingText tag a ++ rest = '<' :: tag.name ++ (a.text ++ '>' :: rest) := by
    simp [openingText]
  rw [htext, openingTag?, hlead]
  show (tagEnd? (a.text ++ '>' :: rest)).bind _ = _
  rw [Attributes.tagEnd?_text h.entries]
  rfl

theorem closingTag?_written (tag : Tag) :
    closingTag? tag.name (closingText tag) = some (closingText tag, []) := by
  cases tag <;> decide

theorem closingTag?_append_right {name t m r : Text} (h : closingTag? name t = some (m, r))
    (u : Text) : closingTag? name (t ++ u) = some (m, r ++ u) := by
  obtain ⟨⟨lead, behind⟩, hlead, hend⟩ := Option.bind_eq_some_iff.mp h
  dsimp only at hend
  split at hend
  · rename_i rest hrest
    cases hend
    have hblank : behind.takeWhile isBlank ++ '>' :: r = behind := by
      rw [← hrest, List.takeWhile_append_dropWhile]
    have hall : ∀ c ∈ behind.takeWhile isBlank, isBlank c = true :=
      List.all_eq_true.mp List.all_takeWhile
    have hdrop : (behind ++ u).dropWhile isBlank = '>' :: (r ++ u) := by
      rw [← hblank, List.append_assoc, List.dropWhile_append_of_pos hall, List.cons_append,
        List.dropWhile_cons_of_neg (by decide)]
    have htake : (behind ++ u).takeWhile isBlank = behind.takeWhile isBlank := calc
      _ = (behind.takeWhile isBlank ++ '>' :: (r ++ u)).takeWhile isBlank := by
        rw [← List.cons_append, ← List.append_assoc, hblank]
      _ = behind.takeWhile isBlank := by
        rw [List.takeWhile_append_of_pos hall, List.takeWhile_cons_of_neg (by decide),
          List.append_nil]
    rw [closingTag?, readFold?_append_right hlead, Option.bind_eq_bind, Option.bind_some]
    dsimp only
    rw [hdrop, htake]
    rfl
  · cases hend

/-- a closing tag does not reach into the next tag -/
theorem closingTag?_before {name v u : Text} (hname : '<' ∉ name)
    (hno : closingTag? name v = none) (hv : v ≠ []) : closingTag? name (v ++ '<' :: u) = none := by
  have hslash : foldChar '<' ∉ '/' :: name := by
    refine fun hmem => ?_
    rcases List.mem_cons.mp hmem with e | hmem
    · exact absurd e (by decide)
    · exact hname hmem
  rw [Option.eq_none_iff_forall_ne_some]
  intro found hfound
  obtain ⟨⟨lead, r⟩, hlead, hend⟩ := Option.bind_eq_some_iff.mp hfound
  obtain ⟨front, hfront, rfl⟩ := readFold?_of_append_head hslash hv hlead
  -- the same is read without what follows, so no `>` stands behind it
  have hopen : ∀ rest, front.dropWhile isBlank ≠ '>' :: rest := by
    intro rest hrest
    refine absurd hno (Option.ne_none_iff_exists'.mpr
      ⟨(lead ++ front.takeWhile isBlank ++ ['>'], rest), ?_⟩)
    rw [closingTag?, hfront, Option.bind_eq_bind, Option.bind_some]
    dsimp only
    rw [hrest]
    rfl
  dsimp only at hend
  rw [List.dropWhile_append] at hend
  split at hend
  · rename_i rest heq
    split at heq
    · rw [List.dropWhile_cons_of_neg (by decide)] at heq
      exact absurd (List.cons.inj heq).1 (by decide)
    · cases hdrop : front.dropWhile isBlank with
      | nil =>
        rw [hdrop] at heq
        exact absurd (List.cons.inj heq).1 (by decide)
      | cons d ds =>
        rw [hdrop] at heq
        rw [(List.cons.inj heq).1] at hdrop
        exact hopen ds hdrop
  · cases hend

theorem elementText_of_body (h : tag.hasBody = true) :
    elementText tag a (some body) = (openingText tag a ++ body) ++ closingText tag := by
  unfold elementText openingText closingText
  rw [if_pos h]
  simp

theorem elementText_of_no_body (h : tag.hasBody = false) :
    elementText tag a (some body) = openingText tag a := by
  unfold elementText openingText
  rw [h, if_neg Bool.false_ne_true]
  simp

/-- what a written element is read as -/
def writtenParts (tag : Tag) (a : Attributes) (body : Text) : Enclosed :=
  if tag.hasBody then ⟨openingText tag a, body, closingText tag⟩ else ⟨openingText tag a, [], []⟩

/-- a written element is read up to its end, whatever follows -/
theorem read?_written (h : a.Writable) (hbody : tag.closes body = false) (rest : Text) :
    tag.read? (elementText tag a (some body) ++ rest) = some (writtenParts tag a body, rest) := by
  unfold Tag.read? writtenParts
  by_cases htag : tag.hasBody = true
  · have hname : '<' ∉ tag.name := by
      cases tag <;> decide
    have hseek : seek (closingTag? tag.name) body = none := by
      unfold Tag.closes at hbody
      rw [htag, Bool.true_and] at hbody
      exact Option.not_isSome_iff_eq_none.mp (Bool.eq_false_iff.mp hbody)
    have hfound : seek (closingTag? tag.name) (body ++ (closingText tag ++ rest)) =
        some (body, closingText tag, rest) := by
      refine seek_append (fun front back e hne => ?_) (List.cons_ne_nil _ _)
        (closingTag?_append_right (closingTag?_written tag) rest)
      exact closingTag?_before hname (seek_eq_none.mp hseek front back e hne) hne
    rw [if_pos htag, if_pos htag, elementText_of_body htag, List.append_assoc, List.append_assoc,
      enclosed?, openingTag?_written h]
    show (seek (closingTag? tag.name) (body ++ (closingText tag ++ rest))).bind _ = _
    rw [hfound]
    rfl
  · rw [if_neg htag, if_neg htag, elementText_of_no_body (Bool.eq_false_iff.mpr htag),
      openingTag?_written h]
    rfl

/-! ## scans -/

theorem opener?_of_tag {c : Char} (hc : foldChar c ≠ '!' ∧ foldChar c ≠ '?') (kind : InertKind)
    (t : Text) : kind.opener? ('<' :: c :: t) = none := by
  have hread : ∀ d lead, foldChar c ≠ d → readFold? ('<' :: d :: lead) ('<' :: c :: t) = none := by
    intro d lead hd
    rw [readFold?, if_pos (by decide), readFold?, if_neg hd]
    rfl
  cases kind with
  | comment => exact hread '!' "--".toList hc.1
  | embedded =>
    show (readFold? ('<' :: '?' :: "php".toList) _).or (readFold? ('<' :: '?' :: "=".toList) _) = none
    rw [hread '?' _ hc.2, hread '?' _ hc.2]
    rfl

/-- a text that begins with a tag begins outside all inert ranges -/
theorem not_isInert_of_tag {c : Char} (hc : foldChar c ≠ '!' ∧ foldChar c ≠ '?') (t : Text)
    (embedded : Bool) : isInert (inertRanges ('<' :: c :: t) embedded) 0 = false := by
  have hno : ∀ kind earlier, ∀ r ∈ rangesOfKind kind earlier ('<' :: c :: t),
      ¬ r.covers 0 = true := by
    intro kind earlier r hr hcovers
    obtain ⟨-, -, front, m, inner, back, ht, hstart, hm, -, -⟩ := spans_of_mem_rangesOfKind hr
    have hcovers := InertRange.covers_iff.mp hcovers
    obtain rfl : front = [] := size_eq_zero (by omega)
    rw [List.nil_append] at ht
    have hopen : r.kind.opener? (m ++ (inner ++ back)) = some (m, inner ++ back) :=
      InertKind.opener?_eq_some_iff.mpr ⟨rfl, hm⟩
    rw [← ht, opener?_of_tag hc] at hopen
    cases hopen
  rw [Bool.eq_false_iff]
  intro hinert
  obtain ⟨r, hr, hcovers⟩ := List.any_eq_true.mp hinert
  rcases List.mem_append.mp hr with hr | hr
  · cases embedded with
    | false => cases hr
    | true => exact hno _ _ r hr hcovers
  · exact hno _ _ r hr hcovers

theorem not_isInert_written (tag : Tag) (a : Attributes) (body : Text) (embedded : Bool) :
    isInert (inertRanges (elementText tag a (some body)) embedded) 0 = false := by
  cases tag with
  | script => exact not_isInert_of_tag (by decide) _ embedded
  | style => exact not_isInert_of_tag (by decide) _ embedded
  | link => exact not_isInert_of_tag (by decide) _ embedded

theorem text_writtenParts (tag : Tag) (a : Attributes) (body : Text) :
    (writtenParts tag a body).text = elementText tag a (some body) := by
  unfold writtenParts Enclosed.text
  by_cases htag : tag.hasBody = true
  · rw [if_pos htag, elementText_of_body htag]
  · rw [if_neg htag, elementText_of_no_body (Bool.eq_false_iff.mpr htag), List.append_nil,
      List.append_nil]

/-- the scan of a written element finds it, and nothing else -/
theorem scanElements_written (h : a.Writable) (hbody : tag.closes body = false) (embedded : Bool) :
    scanElements (elementText tag a (some body))
      (inertRanges (elementText tag a (some body)) embedded) tag =
        [⟨tag, 0, writtenParts tag a body⟩] := by
  have hread := read?_written h hbody []
  have hfindings : findings (fun _ => tag.read?) (elementText tag a (some body)) =
      [(0, writtenParts tag a body)] := by
    rw [← text_writtenParts] at hread ⊢
    rw [← List.append_nil (Enclosed.text _)]
    exact findingsFrom_some (reads_tag tag) (s := .start) hread
  unfold scanElements
  rw [hfindings, List.filter_cons_of_pos (by rw [not_isInert_written]; rfl), List.filter_nil]
  rfl

theorem attributes_writtenParts (h : a.Writable) : .parse (writtenParts tag a body).opening = a := by
  have hparse := Attributes.parse_written tag.name_ne_nil tag.isNameChar_name h
  unfold writtenParts
  split
  · exact hparse
  · exact hparse

end

/-! ## elements that are scanned -/

section
variable {tag : Tag} {e : Element} {t : Text} {inert : List InertRange}

/-- the closing tag of an element does not stand in its body -/
theorem not_closes_body (h : e ∈ scanElements t inert tag) : tag.closes e.body = false := by
  obtain ⟨-, hf, -⟩ := mem_scanElements.mp h
  obtain ⟨front, rest, -, -, hread⟩ := mem_findings (reads_tag tag) hf
  unfold Tag.closes
  cases htag : tag.hasBody with
  | false => rfl
  | true =>
    rw [Tag.read?, if_pos htag, enclosed?] at hread
    obtain ⟨⟨opening, r⟩, -, hread⟩ := Option.bind_eq_some_iff.mp hread
    obtain ⟨⟨body, closing, r'⟩, hseek, hparts⟩ := Option.bind_eq_some_iff.mp hread
    obtain ⟨u, -, -, hbefore⟩ := none_before_of_seek hseek
    obtain rfl : e.parts.body = body := by
      rw [← (Prod.mk.inj (Option.some.inj hparts)).1]
    have hno : seek (closingTag? tag.name) e.body = none := by
      refine seek_eq_none.mpr fun front back e hne => ?_
      rw [Option.eq_none_iff_forall_ne_some]
      rintro ⟨m, rest⟩ hfound
      have hlater := hbefore front back e hne
      rw [closingTag?_append_right hfound] at hlater
      cases hlater
    rw [hno]
    rfl

/-- a `style` element refers to nothing -/
theorem tag_of_absolute {p : Page} {policy : Policy} {tree : Tree} {a : Asset}
    (h : a ∈ p.assets policy tree) (habs : a.source.isAbsolute = true) :
    a.element.tag ≠ .style := by
  intro hstyle
  have helement := Page.mem_elements_of_asset h
  obtain ⟨c, hc, ha⟩ := List.mem_filterMap.mp h
  obtain ⟨e, -, rfl⟩ := List.mem_map.mp hc
  have hsame : a.element = e := by
    rw [Classified.element_of_asset ha, element_classify]
  cases hf : policy.family with
  | script =>
    rw [hf] at helement
    have htag : a.element.tag = .script := tag_of_mem_elements helement
    exact nomatch htag.symm.trans hstyle
  | style =>
    have hrefers := refersTo_classifySheet policy e (.ofReference tree p.dir (sheetReference? e))
    have hclass : classify tree p.dir policy e =
        classifySheet policy e (.ofReference tree p.dir (sheetReference? e)) := by
      rw [classify, hf]
    have hnone : sheetReference? e = none := by
      rw [sheetReference?, ← hsame, hstyle]
    rw [hclass] at ha
    rw [hnone] at hrefers ha
    cases hsheet : classifySheet policy e (.ofReference tree p.dir none) with
    | asset b =>
      rw [hsheet] at ha hrefers
      obtain rfl := Option.some.inj ha
      rw [hrefers.1] at habs
      exact nomatch habs
    | missing m url =>
      rw [hsheet] at ha
      exact nomatch ha
    | untouched m file =>
      rw [hsheet] at ha
      exact nomatch ha

end

/-! ## the round trip -/

/-- the scan of the text finds one element, with these attributes and this body, and it is all of the
text; embedded blocks or not -/
def ScansAs (u : Text) (tag : Tag) (a : Attributes) (body : Text) : Prop :=
  ∀ embedded, ∃ e, scanElements u (inertRanges u embedded) tag = [e] ∧ e.start = 0 ∧ e.text = u ∧
    e.attributes = a ∧ (tag.hasBody = true → e.body = body)

/-- **Written elements scan back unchanged.**  Every attribute list that was read can be written.  An
element written from a list that can be, and a body in which its closing tag does not stand, is the
only element that a scan of the written text finds: it begins at its first character, is all of it
and has the attributes, names, values and order, and the body it was written from.  So an absolute
reference that is written anew keeps all of its attributes and its body. -/
theorem scanElements_elementText :
    (∀ opening, (Attributes.parse opening).Writable) ∧
    (∀ tag a body, a.Writable → tag.closes body = false →
      ScansAs (elementText tag a (some body)) tag a body) ∧
    (∀ (p : Page) (policy : Policy) (tree : Tree), ∀ a ∈ p.assets policy tree,
      a.source.isAbsolute = true → ScansAs (standaloneText a.element) a.element.tag
        a.element.attributes a.element.body) := by
  have hwritten : ∀ tag a body, a.Writable → tag.closes body = false →
      ScansAs (elementText tag a (some body)) tag a body := by
    intro tag a body ha hbody embedded
    refine ⟨_, scanElements_written ha hbody embedded, rfl, text_writtenParts tag a body,
      attributes_writtenParts ha, fun htag => ?_⟩
    show (writtenParts tag a body).body = body
    rw [writtenParts, if_pos htag]
  refine ⟨Attributes.writable_parse, hwritten, fun p policy tree a ha habs => ?_⟩
  obtain ⟨tag, hscan⟩ := exists_tag_of_mem (Page.mem_elements_of_asset ha)
  obtain rfl := tag_of_mem_elements hscan
  have htext : standaloneText a.element =
      elementText a.element.tag a.element.attributes (some a.element.body) := by
    unfold standaloneText
    split
    · rename_i hstyle
      exact absurd hstyle (tag_of_absolute ha habs)
    · rfl
  rw [htext]
  exact hwritten _ _ _ (Attributes.writable_parse _) (not_closes_body hscan)

/-- quotes, markers and tags in values -/
def Attributes.awkward : Attributes :=
  ⟨[("data-when".toList, some "a > \"b\"</script>".toList), ("defer".toList, none),
    (":title".toList, some "<?php it's --> ".toList)]⟩

theorem scanElements_elementText_awkward :
    Attributes.awkward.Writable ∧ Tag.script.closes "a('</scripts>') // <!--".toList = false ∧
      ScansAs (elementText .script .awkward (some "a('</scripts>') // <!--".toList)) .script .awkward
        "a('</scripts>') // <!--".toList ∧
      ∃ a ∈ Page.withTemplate.assets (Page.withTemplate.options.policy .script) Site.bare.tree,
        a.source.isAbsolute = true ∧
          ScansAs (standaloneText a.element) a.element.tag a.element.attributes a.element.body := by
  have hwritable : Attributes.awkward.Writable := by decide +kernel
  have hbody : Tag.script.closes "a('</scripts>') // <!--".toList = false := by decide
  refine ⟨hwritable, hbody, scanElements_elementText.2.1 .script .awkward _ hwritable hbody, ?_⟩
  have hasset : ∃ a ∈ Page.withTemplate.assets (Page.withTemplate.options.policy .script)
      Site.bare.tree, a.source.isAbsolute = true := by
    decide +kernel
  obtain ⟨a, ha, habs⟩ := hasset
  exact ⟨a, ha, habs, scanElements_elementText.2.2 _ _ _ a ha habs⟩

end SiteBundle
