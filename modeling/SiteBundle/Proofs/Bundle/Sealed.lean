import SiteBundle.Proofs.Bundle.Written
import SiteBundle.Proofs.Text.Replacing

/-!
# Sealed code stays in its element

Code that is written into an element could end the element with a closing tag of its own.  Sealing
replaces the `<` of every beginning of such a tag, in either case of its letters, and nothing else
(`Family.Sealed`).  What is left cannot be the beginning of a closing tag: neither in the code, where
an escape begins with a backslash, which no closing tag has, nor over its end, where a `<` follows
(`Sealed.not_read`, `Sealed.not_read_before`).  So the element is read up to its own closing tag,
whatever stands behind it (`read?_sealed`).
-/

namespace SiteBundle

open Text

namespace Family

/-- the beginning of the closing tag of the family's element, in small letters -/
def closer (f : Family) : Text := '<' :: '/' :: f.tag.name

/-- the second text is the first one with the `<` of each beginning of a closing tag escaped; all
other characters stay, those of the tag's name included -/
inductive Sealed (f : Family) : Text → Text → Prop
  | nil : Sealed f [] []
  | plain {c t u} (hno : readFold? f.closer (c :: t) = none) (h : Sealed f t u) :
      Sealed f (c :: t) (c :: u)
  | escaped {m t u} (hm : m.map foldChar = f.closer) (h : Sealed f t u) :
      Sealed f (m ++ t) (f.lessEscape ++ (m.drop 1 ++ u))

variable {f : Family}

theorem sealText_plain {c : Char} {t : Text} (h : readFold? f.closer (c :: t) = none) :
    f.sealText (c :: t) = c :: f.sealText t :=
  replace_cons (Option.map_eq_none_iff.mpr h)

theorem sealText_closer {m t : Text} (hm : m.map foldChar = f.closer) :
    f.sealText (m ++ t) = f.lessEscape ++ (m.drop 1 ++ f.sealText t) := by
  have hread : readFold? f.closer (m ++ t) = some (m, t) := readFold?_eq_some_iff.mpr ⟨rfl, hm⟩
  have hne : m ≠ [] := by
    rintro rfl
    exact nomatch hm
  have hsealed : f.sealedCloser? (m ++ t) = some (f.lessEscape ++ m.drop 1, t) :=
    Option.map_eq_some_iff.mpr ⟨(m, t), hread, rfl⟩
  rw [← List.append_assoc]
  exact replace_found hne hsealed

theorem sealed_sealText (f : Family) (code : Text) : f.Sealed code (f.sealText code) := by
  induction hn : code.length using Nat.strongRecOn generalizing code with
  | _ n ih =>
    subst hn
    cases code with
    | nil => exact .nil
    | cons c t =>
      cases h : readFold? f.closer (c :: t) with
      | none =>
        rw [sealText_plain h]
        exact .plain h (ih t.length (Nat.lt_succ_self _) t rfl)
      | some found =>
        obtain ⟨m, r⟩ := found
        obtain ⟨ht, hm⟩ := readFold?_eq_some_iff.mp h
        rw [ht, sealText_closer hm]
        refine .escaped hm (ih r.length ?_ r rfl)
        have hpos : 0 < m.length := by
          rw [← List.length_map (f := foldChar), hm]
          exact Nat.succ_pos _
        rw [ht, List.length_append]
        omega

/-! ## no closing tag begins in sealed code -/

/-- an escape begins with a backslash and has no `<` -/
theorem lessEscape_eq (f : Family) : ∃ e, f.lessEscape = '\\' :: e ∧ '<' ∉ f.lessEscape := by
  cases f with
  | script => exact ⟨_, rfl, by decide⟩
  | style => exact ⟨_, rfl, by decide⟩

/-- behind its `<`, a closing tag begins without another one and without a backslash -/
theorem closer_tail (f : Family) :
    foldChar '<' ∉ '/' :: f.tag.name ∧ foldChar '\\' ∉ '/' :: f.tag.name := by
  cases f <;> decide

/-- what is read without a backslash is read in the code as well -/
theorem Sealed.read {code sealedCode word m r : Text} (h : f.Sealed code sealedCode)
    (hword : foldChar '\\' ∉ word) (hread : readFold? word sealedCode = some (m, r)) :
    ∃ r', readFold? word code = some (m, r') := by
  induction h generalizing word m with
  | nil => exact ⟨r, hread⟩
  | plain hno h ih =>
    cases word with
    | nil =>
      cases hread
      exact ⟨_, rfl⟩
    | cons l word =>
      rw [readFold?] at hread
      split at hread
      · rename_i hc
        obtain ⟨⟨m', r₁⟩, htail, e⟩ := Option.map_eq_some_iff.mp hread
        cases e
        obtain ⟨r', hr'⟩ := ih (fun hmem => hword (List.mem_cons_of_mem _ hmem)) htail
        exact ⟨r', by rw [readFold?, if_pos hc, hr']; rfl⟩
      · cases hread
  | escaped hm h ih =>
    cases word with
    | nil =>
      cases hread
      exact ⟨_, rfl⟩
    | cons l word =>
      obtain ⟨e, he, -⟩ := f.lessEscape_eq
      rw [he, List.cons_append, readFold?, if_neg (List.ne_of_not_mem_cons hword)] at hread
      cases hread

/-- nothing that begins with a `<` is read where none stands -/
theorem readFold?_behind {lead w u front back : Text} (hw : '<' ∉ w) (h : w ++ u = front ++ back)
    (hno : ∀ front back, u = front ++ back → readFold? ('<' :: lead) back = none) :
    readFold? ('<' :: lead) back = none := by
  rcases List.append_eq_append_iff.mp h with ⟨v, rfl, rfl⟩ | ⟨v, rfl, rfl⟩
  · exact hno v back rfl
  · cases v with
    | nil => exact hno [] u rfl
    | cons c v =>
      have hc : foldChar c ≠ '<' := fun hc =>
        hw (List.mem_append_right _ (foldChar_eq_less hc ▸ List.mem_cons_self))
      rw [List.cons_append, readFold?, if_neg hc]

/-- **No closing tag begins in sealed code.** -/
theorem Sealed.not_read {code sealedCode front back : Text} (h : f.Sealed code sealedCode)
    (heq : sealedCode = front ++ back) : readFold? f.closer back = none := by
  induction h generalizing front back with
  | nil =>
    obtain ⟨-, rfl⟩ := List.append_eq_nil_iff.mp heq.symm
    rfl
  | @plain c t u hno h ih =>
    cases front with
    | cons d front => exact ih (List.cons.inj heq).2
    | nil =>
      rw [List.nil_append] at heq
      subst heq
      -- it would have begun at the same character of the code
      rw [Option.eq_none_iff_forall_ne_some]
      rintro ⟨m, r⟩ hread
      rw [closer, readFold?] at hread
      split at hread
      · rename_i hc
        obtain ⟨⟨m', r'⟩, htail, -⟩ := Option.map_eq_some_iff.mp hread
        obtain ⟨r'', hcode⟩ := h.read f.closer_tail.2 htail
        rw [closer, readFold?, if_pos hc, hcode] at hno
        cases hno
      · cases hread
  | @escaped m t u hm h ih =>
    obtain ⟨-, -, hescape⟩ := f.lessEscape_eq
    obtain ⟨c, m, rfl, -, hm⟩ := List.map_eq_cons_iff.mp hm
    have hname : '<' ∉ m := by
      intro hmem
      refine f.closer_tail.1 ?_
      rw [← hm]
      exact List.mem_map_of_mem hmem
    exact readFold?_behind hescape heq fun _ _ h' => readFold?_behind hname h' fun _ _ => ih

/-- nor does one begin there that goes on behind the code -/
theorem Sealed.not_read_before {code sealedCode front back rest : Text}
    (h : f.Sealed code sealedCode) (heq : sealedCode = front ++ back) (hback : back ≠ []) :
    readFold? f.closer (back ++ '<' :: rest) = none := by
  rw [Option.eq_none_iff_forall_ne_some]
  rintro ⟨m, r⟩ hread
  obtain ⟨r', hr', -⟩ := readFold?_of_append_head f.closer_tail.1 hback hread
  exact nomatch (h.not_read heq).symm.trans hr'

theorem not_closes_sealText (f : Family) (code : Text) :
    f.tag.closes (f.sealText code) = false := by
  have hno : seek (closingTag? f.tag.name) (f.sealText code) = none := by
    refine seek_eq_none.mpr fun front back heq _ => ?_
    have hread : readFold? ('<' :: '/' :: f.tag.name) back = none :=
      (sealed_sealText f code).not_read heq
    rw [closingTag?, hread]
    rfl
  rw [Tag.closes, hno]
  exact Bool.and_false _

end Family

/-! ## written elements with sealed code -/

theorem Attributes.writable_withFlag_defer (deferred : Bool) :
    (Attributes.empty.withFlag "defer" deferred).Writable := by
  cases deferred <;> decide +kernel

/-- what an element with sealed code is read as -/
def sealedParts (f : Family) (a : Attributes) (code : Text) : Enclosed :=
  ⟨openingText f.tag a, f.sealText code, closingText f.tag⟩

theorem writtenParts_sealText (f : Family) (a : Attributes) (code : Text) :
    writtenParts f.tag a (f.sealText code) = sealedParts f a code := by
  cases f <;> rfl

/-- **Sealed code cannot close its element.**  Written into the element of its family, with a list of
attributes that was read or can be written, it is read as the body of that element, all of it and
nothing more, whatever stands behind the element; so is the code of every bundle that is put into a
page and sealed.  No closing tag begins in sealed code, in either case of its letters, and none begins
there and ends behind it.  And sealing changes nothing but the `<` of what would be a closing tag. -/
theorem read?_sealed (f : Family) (code : Text) :
    (∀ a : Attributes, a.Writable → ∀ rest,
      f.tag.read? (elementText f.tag a (some (f.sealText code)) ++ rest) =
        some (sealedParts f a code, rest)) ∧
    (∀ opening rest,
      f.tag.read? (elementText f.tag (.parse opening) (some (f.sealText code)) ++ rest) =
        some (sealedParts f (.parse opening) code, rest)) ∧
    (∀ p : Policy, p.family = f → p.sanitize = true → ∀ deferred rest,
      f.tag.read? (p.inlineText code deferred ++ rest) =
        some (sealedParts f (Attributes.empty.withFlag "defer" deferred) code, rest)) ∧
    ¬ Occurs f.closer (f.sealText code) ∧
    (∀ front back rest, f.sealText code = front ++ back → back ≠ [] →
      readFold? f.closer (back ++ (closingText f.tag ++ rest)) = none) ∧
    f.Sealed code (f.sealText code) := by
  have hsealed := Family.sealed_sealText f code
  have hread : ∀ a : Attributes, a.Writable → ∀ rest,
      f.tag.read? (elementText f.tag a (some (f.sealText code)) ++ rest) =
        some (sealedParts f a code, rest) := by
    intro a ha rest
    rw [read?_written ha (Family.not_closes_sealText f code), writtenParts_sealText]
  refine ⟨hread, fun opening => hread _ (Attributes.writable_parse opening),
    fun p hp hsanitize deferred => ?_, ?_, fun front back rest heq hback => ?_, hsealed⟩
  · subst hp
    rw [Policy.inlineText, if_pos hsanitize]
    exact hread _ (Attributes.writable_withFlag_defer deferred)
  · rintro ⟨front, back, heq, hsome⟩
    rw [hsealed.not_read heq] at hsome
    exact nomatch hsome
  · exact hsealed.not_read_before heq hback

/-- closing tags in both cases and with a long s, one without its end, and the beginning of one -/
def Family.hostile : Text := "a('</SCRIPT>','</\u017Fcript',\"</script \n>\")</scrip".toList

theorem read?_sealed_hostile :
    Attributes.awkward.Writable ∧ Family.script.sealText Family.hostile =
        "a('\\u003c/SCRIPT>','\\u003c/\u017Fcript',\"\\u003c/script \n>\")</scrip".toList ∧
      Tag.script.read? (elementText .script .awkward (some (Family.script.sealText Family.hostile)) ++
          "t></script>".toList) =
        some (sealedParts .script .awkward Family.hostile, "t></script>".toList) := by
  have hwritable : Attributes.awkward.Writable := by decide +kernel
  exact ⟨hwritable, by decide, (read?_sealed .script Family.hostile).1 _ hwritable _⟩

end SiteBundle
