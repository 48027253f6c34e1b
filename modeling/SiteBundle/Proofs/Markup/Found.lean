import SiteBundle.Proofs.Markup.Inert

/-!
# What a scan finds and what it passes over

A scan goes over the whole text, inert ranges included, and drops afterwards what starts in one of
them (`droppedElements`).  A dropped element still takes its text: an opening tag in a comment that is
closed only by a tag behind the comment hides all that stands between the two.  Apart from that a scan
misses nothing (`scanElements_exact`).

* `Element.ReadIn`     the element can be read at its offset, whatever stands before it;
* `Element.Encloses`   an offset inside the element, behind its first byte;
* `mem_scan_iff`       of the elements that can be read outside the inert ranges, those are found that
  no other element encloses.
-/

namespace SiteBundle

open Text

/-- the elements that are read from a text but start at an inert offset -/
def droppedElements (t : Text) (inert : List InertRange) (tag : Tag) : List Element :=
  ((findings (fun _ => tag.read?) t).filter fun f => isInert inert f.1).map fun f =>
    ⟨tag, f.1, f.2⟩

namespace Element

/-- the pattern of its tag reads the element at its offset of the text -/
def ReadIn (t : Text) (e : Element) : Prop :=
  ∃ front back rest, t = front ++ back ∧ size front = e.start ∧ e.tag.read? back = some (e.parts, rest)

/-- the offset lies in the element, and not at its start -/
def Encloses (e : Element) (offset : Nat) : Prop := e.start < offset ∧ offset < e.stop

end Element

section
variable {t : Text} {inert : List InertRange} {tag : Tag} {e x : Element}

theorem mem_droppedElements : e ∈ droppedElements t inert tag ↔
    e.tag = tag ∧ (e.start, e.parts) ∈ findings (fun _ => tag.read?) t ∧
      isInert inert e.start = true := by
  unfold droppedElements
  rw [List.mem_map]
  constructor
  · rintro ⟨f, hf, rfl⟩
    obtain ⟨hf, hi⟩ := List.mem_filter.mp hf
    exact ⟨rfl, hf, hi⟩
  · rintro ⟨rfl, hf, hi⟩
    exact ⟨(e.start, e.parts), List.mem_filter.mpr ⟨hf, hi⟩, rfl⟩

/-- what is read is found or dropped -/
theorem mem_scan_append_dropped : e ∈ scanElements t inert tag ++ droppedElements t inert tag ↔
    e.tag = tag ∧ (e.start, e.parts) ∈ findings (fun _ => tag.read?) t := by
  rw [List.mem_append, mem_scanElements, mem_droppedElements]
  constructor
  · rintro (⟨htag, hf, -⟩ | ⟨htag, hf, -⟩) <;> exact ⟨htag, hf⟩
  · rintro ⟨htag, hf⟩
    cases hinert : isInert inert e.start with
    | false => exact .inl ⟨htag, hf, rfl⟩
    | true => exact .inr ⟨htag, hf, rfl⟩

theorem readIn_of_mem_findings (htag : e.tag = tag)
    (h : (e.start, e.parts) ∈ findings (fun _ => tag.read?) t) : e.ReadIn t := by
  subst htag
  obtain ⟨front, rest, ht, ho, hread⟩ := mem_findings (reads_tag e.tag) h
  exact ⟨front, _, rest, ht, ho, hread⟩

/-- nothing that is read stands inside something else that is read -/
theorem not_encloses (he : e ∈ scanElements t inert tag ++ droppedElements t inert tag)
    (hx : x ∈ scanElements t inert tag ++ droppedElements t inert tag) : ¬ x.Encloses e.start := by
  rintro ⟨hlt, hin⟩
  have hle : x.start + size x.parts.text ≤ e.start :=
    le_of_mem_findingsFrom_of_lt (reads_tag tag) (mem_scan_append_dropped.mp hx).2
      (mem_scan_append_dropped.mp he).2 hlt
  exact absurd hin (Nat.not_lt.mpr hle)

/-- **What can be read outside the inert ranges is found**, unless it stands inside another element,
one that is found or one that is dropped. -/
theorem mem_scan_iff (htag : e.tag = tag) (hread : e.ReadIn t) (hout : isInert inert e.start = false) :
    e ∈ scanElements t inert tag ↔
      ∀ x ∈ scanElements t inert tag ++ droppedElements t inert tag, ¬ x.Encloses e.start := by
  constructor
  · intro he x hx
    exact not_encloses (List.mem_append_left _ he) hx
  · intro hfree
    obtain ⟨front, back, rest, ht, hs, hread⟩ := hread
    subst htag
    have hcases := mem_or_inside_of_read (reads_tag e.tag) ht hread
    rw [hs] at hcases
    rcases hcases with hmem | ⟨⟨o, parts⟩, hmem, hlt, hin⟩
    · exact mem_scanElements.mpr ⟨rfl, hmem, hout⟩
    · have hx : (⟨e.tag, o, parts⟩ : Element) ∈
          scanElements t inert e.tag ++ droppedElements t inert e.tag :=
        mem_scan_append_dropped.mpr ⟨rfl, hmem⟩
      exact absurd ⟨hlt, hin⟩ (hfree _ hx)

end

/-- **A scan is exact.**  What it finds comes in ascending order and does not overlap; each element is
cut out of the text at its offset, where the tag's pattern reads it, and none starts in an inert range.
What it drops is read in the same way, and starts in an inert range.  And nothing else is missing: what
the pattern reads outside the inert ranges is found unless it stands inside an element that was found or
one that was dropped. -/
theorem scanElements_exact (t : Text) (inert : List InertRange) (tag : Tag) :
    ((scanElements t inert tag).Pairwise fun x y => x.start < y.start ∧ x.stop ≤ y.start) ∧
    (∀ e ∈ scanElements t inert tag, e.tag = tag ∧ e.ReadIn t ∧ isInert inert e.start = false ∧
      slice? e.start e.stop t = some e.text ∧
      e.text = e.parts.opening ++ (e.body ++ e.parts.closing)) ∧
    (∀ x ∈ droppedElements t inert tag, x.tag = tag ∧ x.ReadIn t ∧ isInert inert x.start = true) ∧
    ∀ e : Element, e.tag = tag → e.ReadIn t → isInert inert e.start = false →
      (e ∈ scanElements t inert tag ↔
        ∀ x ∈ scanElements t inert tag ++ droppedElements t inert tag, ¬ x.Encloses e.start) := by
  refine ⟨?_, fun e he => ?_, fun x hx => ?_, fun e htag hread hout => mem_scan_iff htag hread hout⟩
  · refine (pairwise_scan t inert tag).imp_of_mem fun {x y} hx _ hle => ⟨?_, hle⟩
    exact Nat.lt_of_lt_of_le (stands_of_mem_scan hx).start_lt_stop hle
  · obtain ⟨htag, hmem, hout⟩ := mem_scanElements.mp he
    exact ⟨htag, readIn_of_mem_findings htag hmem, hout,
      slice?_of_stands (stands_of_mem_scan he).stretch, List.append_assoc _ _ _⟩
  · obtain ⟨htag, hmem, hin⟩ := mem_droppedElements.mp hx
    exact ⟨htag, readIn_of_mem_findings htag hmem, hin⟩

/-! ## an opening tag in a comment -/

namespace Element

/-- a script that stands behind a comment with an opening tag, and one behind that -/
def behindComment : Text := "<!-- <script> --><script src='a.js'></script><script>b()</script>".toList

/-- the first script -/
def missedScript : Element := ⟨.script, 17, ⟨"<script src='a.js'>".toList, [], "</script>".toList⟩⟩

theorem missedScript_readIn : missedScript.ReadIn behindComment :=
  ⟨"<!-- <script> -->".toList, "<script src='a.js'></script><script>b()</script>".toList,
    "<script>b()</script>".toList, rfl, rfl, by decide⟩

/-- the one behind it -/
def foundScript : Element := ⟨.script, 45, ⟨"<script>".toList, "b()".toList, "</script>".toList⟩⟩

end Element

open Element in
theorem scanElements_exact_behindComment :
    scanElements behindComment (inertRanges behindComment false) .script = [foundScript] ∧
      foundScript.ReadIn behindComment ∧ isInert (inertRanges behindComment false) 45 = false ∧
      slice? 45 65 behindComment = some "<script>b()</script>".toList ∧
      (missedScript ∈ scanElements behindComment (inertRanges behindComment false) .script ↔
        ∀ x ∈ scanElements behindComment (inertRanges behindComment false) .script ++
          droppedElements behindComment (inertRanges behindComment false) .script,
            ¬ x.Encloses 17) := by
  have hscan : scanElements behindComment (inertRanges behindComment false) .script = [foundScript] := by
    decide
  obtain ⟨-, hfound, -, hmissing⟩ :=
    scanElements_exact behindComment (inertRanges behindComment false) .script
  obtain ⟨-, hread, hout, hslice, -⟩ := hfound foundScript (hscan ▸ List.mem_cons_self)
  exact ⟨hscan, hread, hout, hslice, hmissing missedScript rfl missedScript_readIn (by decide)⟩

open Element in
/-- a script outside all comments that no scanned element holds is not found -/
theorem scanElements_misses_script : ¬ ∀ e : Element, e.tag = .script → e.ReadIn behindComment →
    isInert (inertRanges behindComment false) e.start = false →
    (∀ x ∈ scanElements behindComment (inertRanges behindComment false) .script,
      ¬ (x.start ≤ e.start ∧ e.start < x.stop)) →
    ∃ y ∈ scanElements behindComment (inertRanges behindComment false) .script,
      y.start = e.start := by
  intro h
  have hfound := h missedScript rfl missedScript_readIn (by decide) (by decide)
  exact absurd hfound (by decide)

end SiteBundle
