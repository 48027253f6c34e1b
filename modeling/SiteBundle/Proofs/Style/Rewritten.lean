import SiteBundle.Proofs.Style.Prefixed

/-!
# Strings of rewritten stylesheets

Tidying and prefixing look for their patterns everywhere, within strings too.  What that does to the
strings of a stylesheet is told for both at once (`styleStrings_rewritten`):

* the clean-ups of semicolons go through each string, so they keep those without idle semicolons;
* rounds of taking out empty rules leave out strings of hollow rows, if the rows lie outside strings
  (`RowsOutside`);
* prefixes keep every string and bring no new ones, if the declarations lie outside strings
  (`DeclarationsOutside`).
-/

namespace SiteBundle

open Text

variable {t : Text}

/-- the strings behind all rounds, where the rows lie outside strings -/
theorem readsOn_tidyStyle (h : RowsOutside (tidySemicolons t)) : ∃ rows : List (Text × Text),
    (∀ r ∈ rows, Hollow r.2 ∧ ∃ x, tidySemicolons t = r.1 ++ (r.2 ++ x)) ∧
    ReadsOn (tidySemicolons t) (tidyStyle t) (rows.flatMap fun r => stretchStrings r.1 r.2) := by
  have hstart : ReadsOn [] [] [] := by
    refine ⟨fun _ => rfl, fun _ => List.Sublist.refl _, fun x => ?_⟩
    rw [List.append_nil]
  have hnext : RuleNext [] := fun _ => nofun
  exact (thinned_tidyStyle t).readsOn (fun _ => hnext) h hstart

/-- **What the rewriters do to the strings of a stylesheet** whose strings and comments are closed. -/
theorem styleStrings_rewritten (h : styleFault? t = none) :
    (styleStrings (tidySemicolons t) = (styleStrings t).map tidySemicolons ∧
      (styleStrings (tidySemicolons t) = styleStrings t ↔ ∀ l ∈ styleStrings t, NoIdle l)) ∧
    (RowsOutside (tidySemicolons t) → styleFault? (tidyStyle t) = none ∧
      (styleStrings (tidyStyle t)).Sublist (styleStrings (tidySemicolons t)) ∧
      ∃ rows : List (Text × Text),
        (∀ r ∈ rows, Hollow r.2 ∧ ∃ x, tidySemicolons t = r.1 ++ (r.2 ++ x)) ∧
        (styleStrings (tidySemicolons t)).Perm
          (styleStrings (tidyStyle t) ++ rows.flatMap fun r => stretchStrings r.1 r.2)) ∧
    (DeclarationsOutside t → styleFault? (addVendorPrefixes t) = none ∧
      (styleStrings t).Sublist (styleStrings (addVendorPrefixes t)) ∧
      ∀ l ∈ styleStrings (addVendorPrefixes t), l ∈ styleStrings t) := by
  have hopen := openAt_eq_none_iff.mpr h
  obtain ⟨hstrings, hsemicolons⟩ := styleStrings_tidySemicolons hopen
  refine ⟨⟨hstrings, styleStrings_tidySemicolons_eq_iff hopen⟩, fun hrows => ?_, fun houtside => ?_⟩
  · obtain ⟨rows, hmem, hon⟩ := readsOn_tidyStyle hrows
    have hopens := hon.opens []
    have hsublist := hon.sublist []
    have hperm := hon.perm []
    rw [List.append_nil, List.append_nil] at hopens hsublist hperm
    exact ⟨openAt_eq_none_iff.mp (hopens.symm.trans hsemicolons), hsublist, rows, hmem, hperm⟩
  · have hcopies := copies_addVendorPrefixes houtside
    have hopens := hcopies.opens []
    have hsublist := hcopies.sublist []
    have hmem := hcopies.mem []
    rw [List.append_nil, List.append_nil] at hopens hsublist
    rw [List.append_nil, List.append_nil] at hmem
    exact ⟨openAt_eq_none_iff.mp (hopens.symm.trans hopen), hsublist, hmem⟩

/-! ## a sheet with strings -/

theorem Hollow.not_mem_semicolon {m : Text} (h : Hollow m) : ';' ∉ m := by
  induction h with
  | nil => exact List.not_mem_nil
  | rule _ hselector _ hblanks _ hinside hrest =>
    simp only [List.mem_append, List.mem_cons, not_or]
    refine ⟨fun hmem => absurd (hselector _ hmem) (by decide), by decide, hinside,
      fun hmem => absurd (hblanks _ hmem) (by decide), by decide, hrest⟩

/-- whether a stretch from where a rule may begin to a closing brace, without semicolons, begins outside
strings and ends in what it begins in -/
def isOutside (s : Text) (i j : Nat) : Bool :=
  !(i < j && (s.take i).getLast?.all (fun c => !isSelectorChar c) &&
      (s.take j).getLast? == some '\x7d' && !((s.take j).drop i).contains ';') ||
    (openAt (s.take i) != some .string && openAt (s.take j) == openAt (s.take i))

theorem rowsOutside_of_isOutside {s : Text}
    (h : ∀ i < s.length + 1, ∀ j < s.length + 1, isOutside s i j = true) : RowsOutside s := by
  intro a m x heq hnext hm hne
  have ha : s.take a.length = a := by rw [heq, List.take_left]
  have ham : s.take (a ++ m).length = a ++ m := by rw [heq, ← List.append_assoc, List.take_left]
  have hlength : s.length = a.length + (m.length + x.length) := by
    rw [heq, List.length_append, List.length_append]
  have hrule : a.getLast?.all (fun c => !isSelectorChar c) = true := by
    rw [Option.all_eq_true]
    intro c hc
    rw [hnext c hc]
    rfl
  have hlast : (a ++ m).getLast? = some '\x7d' := by
    rw [List.getLast?_append, hm.getLast? hne]
    rfl
  have hfree : ((a ++ m).drop a.length).contains ';' = false := by
    rw [List.drop_left]
    simpa using hm.not_mem_semicolon
  have hshort : a.length < (a ++ m).length := by
    rw [List.length_append]
    exact Nat.lt_add_of_pos_right (List.length_pos_iff.mpr hne)
  have hcheck := h a.length (by omega) (a ++ m).length (by rw [List.length_append]; omega)
  rw [isOutside, ha, ham, hrule, hlast, hfree, decide_eq_true hshort] at hcheck
  simpa using hcheck

/-- an empty rule with a string, a string with a brace, and a string in a declaration that gets a copy -/
def quotedSheet : Text := "a[t='x']\x7b\x7db\x7bcontent:'y\x7bz';mask-image:url('m')\x7d".toList

theorem declarationsOutside_quotedSheet : DeclarationsOutside quotedSheet := by
  intro front m rest new heq hmem
  have hfindings : findings (withTaken ledDeclaration?) quotedSheet =
      [(25, ";-webkit-mask-image:url('m');mask-image:url('m')".toList, ";mask-image:url('m')".toList)] :=
    by decide +kernel
  have hfront : quotedSheet = "a[t='x']\x7b\x7db\x7bcontent:'y\x7bz'".toList ++
      ";mask-image:url('m')\x7d".toList := by decide +kernel
  rw [hfindings, List.mem_singleton] at hmem
  obtain ⟨hsize, -, rfl⟩ := Prod.mk.inj hmem |>.imp_right Prod.mk.inj
  obtain ⟨rfl, -⟩ := append_inj_of_size (heq.symm.trans hfront) hsize
  decide +kernel

theorem styleStrings_rewritten_quotedSheet :
    styleFault? quotedSheet = none ∧ styleFault? (tidyStyle quotedSheet) = none ∧
    (styleStrings (tidyStyle quotedSheet)).Sublist (styleStrings quotedSheet) ∧
    (styleStrings quotedSheet).Sublist (styleStrings (addVendorPrefixes quotedSheet)) := by
  have hclosed : styleFault? quotedSheet = none := by decide +kernel
  have htidy : tidySemicolons quotedSheet = quotedSheet := by decide +kernel
  obtain ⟨-, hrows, hdeclarations⟩ := styleStrings_rewritten hclosed
  rw [htidy] at hrows
  obtain ⟨htidied, hsublist, -⟩ := hrows (rowsOutside_of_isOutside (by decide +kernel))
  obtain ⟨-, hprefixed, -⟩ := hdeclarations declarationsOutside_quotedSheet
  exact ⟨hclosed, htidied, hsublist, hprefixed⟩

/-- a string of two semicolons loses one -/
theorem styleStrings_rewritten_fails : ¬ ∀ t, styleFault? t = none →
    (styleStrings (tidyStyle t)).Sublist (styleStrings t) ∧
      ∀ l ∈ styleStrings t, l ∈ styleStrings (addVendorPrefixes t) := by
  intro h
  obtain ⟨hsublist, -⟩ := h "a\x7bcontent:\";;\"\x7d".toList (by decide +kernel)
  have htidy : tidyStyle "a\x7bcontent:\";;\"\x7d".toList = "a\x7bcontent:\";\"\x7d".toList :=
    dropAllEmptyRules_of_readsNowhere ((replace_eq_self_iff shrinks_emptyRule?).mp (by decide +kernel))
  rw [htidy] at hsublist
  have hmem : "\";\"".toList ∈ styleStrings "a\x7bcontent:\";;\"\x7d".toList :=
    hsublist.subset (by decide +kernel)
  exact absurd hmem (by decide +kernel)

end SiteBundle
