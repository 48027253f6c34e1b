import SiteBundle.Proofs.Text.Shrinking
import SiteBundle.Style.Tidy

/-!
# Idle semicolons

A semicolon is idle where nothing but white space stands between it and the next semicolon or closing
brace: it ends no declaration (`IsIdle`).  These are the places where one of the two clean-ups of
semicolons reads (`isIdle_iff_reads`).

* `firstSign t`        the first character of `t` that is no white space;
* `tidySemicolons t`   the sheet behind the two clean-ups;
* `noIdle_tidySemicolons`   it has no idle semicolon;
* `tidySemicolons_cases`   a sheet stays as it is, if it has none, or gets shorter.
-/

namespace SiteBundle

open Text

variable {p : Text → Option (Text × Text)} {c : Char} {t u r rest new : Text}

/-! ## what a semicolon has behind it -/

/-- the first character that is no white space -/
def firstSign (t : Text) : Option Char := (t.dropWhile isBlank).head?

theorem firstSign_blank (h : isBlank c = true) (t : Text) : firstSign (c :: t) = firstSign t := by
  rw [firstSign, List.dropWhile_cons_of_pos h]
  rfl

theorem firstSign_sign (h : isBlank c = false) (t : Text) : firstSign (c :: t) = some c := by
  rw [firstSign, List.dropWhile_cons_of_neg (Bool.eq_false_iff.mp h)]
  rfl

theorem firstSign_semicolon (t : Text) : firstSign (';' :: t) = some ';' :=
  firstSign_sign rfl t

/-- the next sign ends a declaration, or ends it with its block -/
def EndsNext (t : Text) : Prop := firstSign t = some ';' ∨ firstSign t = some '}'

/-- a semicolon that ends no declaration stands at the front -/
def IsIdle (t : Text) : Prop := ∃ r, t = ';' :: r ∧ EndsNext r

/-- no semicolon of the text is idle -/
def NoIdle (t : Text) : Prop := ∀ a b, t = a ++ b → ¬ IsIdle b

theorem isIdle_semicolon : IsIdle (';' :: t) ↔ EndsNext t :=
  ⟨fun ⟨_, e, h⟩ => (List.cons.inj e).2 ▸ h, fun h => ⟨t, rfl, h⟩⟩

theorem noIdle_nil : NoIdle [] := by
  rintro a b e ⟨r, rfl, -⟩
  exact absurd (List.append_eq_nil_iff.mp e.symm).2 (List.cons_ne_nil _ _)

theorem noIdle_cons : NoIdle (c :: t) ↔ (c = ';' → ¬ EndsNext t) ∧ NoIdle t := by
  constructor
  · intro h
    refine ⟨?_, fun a b e => h (c :: a) b (congrArg (c :: ·) e)⟩
    rintro rfl hends
    exact h [] _ rfl (isIdle_semicolon.mpr hends)
  · rintro ⟨hc, ht⟩ a b e
    cases a with
    | nil =>
      rintro ⟨r, rfl, hends⟩
      obtain ⟨rfl, rfl⟩ := List.cons.inj e
      exact hc rfl hends
    | cons d a => exact ht a b (List.cons.inj e).2

/-! ## where the clean-ups read -/

theorem repeatedSemicolons?_other (c : Char) (t : Text) (h : c ≠ ';') :
    repeatedSemicolons? (c :: t) = none := by
  unfold repeatedSemicolons?
  split
  · rename_i heq
    exact absurd (List.cons.inj heq).1 h
  · rfl

theorem trailingSemicolons?_other (c : Char) (t : Text) (h : c ≠ ';') :
    trailingSemicolons? (c :: t) = none := by
  unfold trailingSemicolons?
  split
  · rename_i heq
    exact absurd (List.cons.inj heq).1 h
  · rfl

/-- where a clean-up reads, a semicolon stands -/
theorem exists_semicolon (hnil : p [] = none) (hp : ∀ c t, c ≠ ';' → p (c :: t) = none)
    (h : p t ≠ none) : ∃ r, t = ';' :: r := by
  cases t with
  | nil => exact absurd hnil h
  | cons c t =>
    by_cases hc : c = ';'
    · exact ⟨t, by rw [hc]⟩
    · exact absurd (hp c t hc) h

theorem behindSemicolons?_eq_none_iff : behindSemicolons? t = none ↔ firstSign t ≠ some ';' := by
  induction t with
  | nil => exact ⟨fun _ => nofun, fun _ => rfl⟩
  | cons c t ih =>
    rw [behindSemicolons?]
    by_cases hc : c = ';'
    · subst hc
      rw [if_pos rfl, firstSign_semicolon]
      exact ⟨nofun, fun h => absurd rfl h⟩
    · rw [if_neg hc]
      by_cases hblank : isBlank c = true
      · rw [if_pos hblank, firstSign_blank hblank, ih]
      · rw [if_neg hblank, firstSign_sign (Bool.eq_false_iff.mpr hblank)]
        exact ⟨fun _ h => hc (Option.some.inj h), fun _ => rfl⟩

/-- what stands behind all semicolons, and what they are -/
theorem of_behindSemicolons? (h : behindSemicolons? t = some rest) : ∃ m, t = m ++ rest ∧ m ≠ [] ∧
    (∀ c ∈ m, c = ';' ∨ isBlank c = true) ∧ firstSign rest ≠ some ';' := by
  induction t with
  | nil => exact nomatch h
  | cons c t ih =>
    rw [behindSemicolons?] at h
    split at h
    · rename_i hc
      have hone : ∀ d ∈ [c], d = ';' ∨ isBlank d = true := fun d hd =>
        .inl ((List.mem_singleton.mp hd).trans hc)
      cases hbehind : behindSemicolons? t with
      | none =>
        rw [hbehind] at h
        obtain rfl : t = rest := Option.some.inj h
        exact ⟨[c], rfl, List.cons_ne_nil _ _, hone, behindSemicolons?_eq_none_iff.mp hbehind⟩
      | some r =>
        rw [hbehind] at h
        obtain rfl : r = rest := Option.some.inj h
        obtain ⟨m, rfl, -, hm, hfirst⟩ := ih hbehind
        refine ⟨c :: m, rfl, List.cons_ne_nil _ _, ?_, hfirst⟩
        exact List.forall_mem_cons.mpr ⟨.inl hc, hm⟩
    · split at h
      · rename_i hblank
        obtain ⟨m, rfl, -, hm, hfirst⟩ := ih h
        exact ⟨c :: m, rfl, List.cons_ne_nil _ _, List.forall_mem_cons.mpr ⟨.inr hblank, hm⟩, hfirst⟩
      · exact nomatch h

/-- several semicolons, with what is left of them -/
theorem of_repeatedSemicolons? (h : repeatedSemicolons? t = some (new, rest)) : new = [';'] ∧
    ∃ m, t = ';' :: (m ++ rest) ∧ m ≠ [] ∧ (∀ c ∈ m, c = ';' ∨ isBlank c = true) ∧
      firstSign rest ≠ some ';' := by
  obtain ⟨t, rfl⟩ := exists_semicolon rfl repeatedSemicolons?_other (by rw [h]; exact nofun)
  obtain ⟨r, hr, e⟩ := Option.map_eq_some_iff.mp h
  obtain ⟨rfl, rfl⟩ := Prod.mk.inj e
  obtain ⟨m, rfl, hm⟩ := of_behindSemicolons? hr
  exact ⟨rfl, m, rfl, hm⟩

/-- semicolons before a brace, with what is left of them -/
theorem of_trailingSemicolons? (h : trailingSemicolons? t = some (new, rest)) : new = ['}'] ∧
    ∃ m, t = ';' :: (m ++ '}' :: rest) ∧ ∀ c ∈ m, c = ';' ∨ isBlank c = true := by
  obtain ⟨t, rfl⟩ := exists_semicolon rfl trailingSemicolons?_other (by rw [h]; exact nofun)
  rw [trailingSemicolons?] at h
  split at h
  · rename_i r hr
    obtain ⟨rfl, rfl⟩ := Prod.mk.inj (Option.some.inj h)
    refine ⟨rfl, t.takeWhile (· == ';') ++ (t.dropWhile (· == ';')).takeWhile isBlank, ?_, ?_⟩
    · rw [List.append_assoc, ← hr, List.takeWhile_append_dropWhile,
        List.takeWhile_append_dropWhile]
    · intro c hc
      rcases List.mem_append.mp hc with hc | hc
      · exact .inl (eq_of_beq (List.all_eq_true.mp List.all_takeWhile c hc))
      · exact .inr (List.all_eq_true.mp List.all_takeWhile c hc)
  · exact nomatch h

theorem shrinks_repeatedSemicolons? : Shrinks repeatedSemicolons? := by
  intro t new rest h
  obtain ⟨rfl, m, rfl, hm, -⟩ := of_repeatedSemicolons? h
  have hpos := List.length_pos_iff.mpr hm
  exact ⟨';' :: m, rfl, Nat.succ_lt_succ hpos⟩

theorem shrinks_trailingSemicolons? : Shrinks trailingSemicolons? := by
  intro t new rest h
  obtain ⟨rfl, m, rfl, -⟩ := of_trailingSemicolons? h
  refine ⟨';' :: (m ++ ['}']), by simp, ?_⟩
  simp

theorem repeatedSemicolons?_eq_none_iff : repeatedSemicolons? (';' :: t) = none ↔
    firstSign t ≠ some ';' := by
  rw [repeatedSemicolons?, Option.map_eq_none_iff, behindSemicolons?_eq_none_iff]

theorem trailingSemicolons?_of_firstSign (h : firstSign t = some '}') :
    trailingSemicolons? (';' :: t) ≠ none := by
  have hno : t.dropWhile (· == ';') = t := by
    cases t with
    | nil => rfl
    | cons c t =>
      refine List.dropWhile_cons_of_neg fun hc => ?_
      rw [eq_of_beq hc, firstSign_semicolon] at h
      exact nomatch h
  obtain ⟨r, hr⟩ := List.head?_eq_some_iff.mp h
  rw [trailingSemicolons?, hno, hr]
  exact nofun

theorem endsNext_of_trailingSemicolons? (h : trailingSemicolons? (';' :: t) ≠ none) :
    EndsNext t := by
  cases t with
  | nil => exact absurd rfl h
  | cons c t =>
    by_cases hc : c = ';'
    · exact .inl (hc ▸ firstSign_semicolon t)
    · right
      rw [trailingSemicolons?, List.dropWhile_cons_of_neg (by simpa using hc)] at h
      split at h
      · rename_i r hr
        rw [firstSign, hr]
        rfl
      · exact absurd rfl h

/-- **Idle semicolons are those that the clean-ups read.** -/
theorem isIdle_iff_reads : IsIdle t ↔ repeatedSemicolons? t ≠ none ∨ trailingSemicolons? t ≠ none := by
  constructor
  · rintro ⟨r, rfl, hsemicolon | hbrace⟩
    · exact .inl fun hnone => repeatedSemicolons?_eq_none_iff.mp hnone hsemicolon
    · exact .inr (trailingSemicolons?_of_firstSign hbrace)
  · intro h
    obtain ⟨t, rfl⟩ : ∃ r, t = ';' :: r :=
      h.elim (exists_semicolon rfl repeatedSemicolons?_other)
        (exists_semicolon rfl trailingSemicolons?_other)
    refine isIdle_semicolon.mpr ?_
    rcases h with h | h
    · exact .inl (Decidable.byContradiction fun hno => h (repeatedSemicolons?_eq_none_iff.mpr hno))
    · exact endsNext_of_trailingSemicolons? h

theorem noIdle_iff :
    NoIdle t ↔ ReadsNowhere repeatedSemicolons? t ∧ ReadsNowhere trailingSemicolons? t := by
  constructor
  · intro h
    refine ⟨fun a b e => ?_, fun a b e => ?_⟩
    · exact Decidable.byContradiction fun hread => h a b e (isIdle_iff_reads.mpr (.inl hread))
    · exact Decidable.byContradiction fun hread => h a b e (isIdle_iff_reads.mpr (.inr hread))
  · rintro ⟨hrepeated, htrailing⟩ a b e hidle
    exact (isIdle_iff_reads.mp hidle).elim (absurd (hrepeated a b e)) (absurd (htrailing a b e))

/-! ## the clean-ups -/

/-- the first sign stays if the pattern does not read there -/
theorem firstSign_replace (hp : ∀ c t, c ≠ ';' → p (c :: t) = none) (h : firstSign t ≠ some ';') :
    firstSign (replace (fun _ => p) t) = firstSign t := by
  induction t with
  | nil => rfl
  | cons c t ih =>
    have hc : c ≠ ';' := by
      rintro rfl
      exact h (firstSign_semicolon t)
    rw [replace_cons (hp c t hc)]
    cases hblank : isBlank c with
    | true =>
      rw [firstSign_blank hblank] at h
      rw [firstSign_blank hblank, firstSign_blank hblank, ih h]
    | false => rw [firstSign_sign hblank, firstSign_sign hblank]

/-- no semicolons are repeated behind the first clean-up -/
theorem readsNowhere_repeatedSemicolons? (t : Text) :
    ReadsNowhere repeatedSemicolons? (replace (fun _ => repeatedSemicolons?) t) := by
  -- a semicolon keeps the sign that follows it
  have hone : ∀ {t : Text}, firstSign t ≠ some ';' →
      repeatedSemicolons? (';' :: replace (fun _ => repeatedSemicolons?) t) = none := fun h =>
    repeatedSemicolons?_eq_none_iff.mpr (by rwa [firstSign_replace repeatedSemicolons?_other h])
  refine replace_induction shrinks_repeatedSemicolons?
    (motive := fun _ u => ReadsNowhere repeatedSemicolons? u) ?_ ?_ ?_ t
  · exact readsNowhere_nil shrinks_repeatedSemicolons?
  · intro c t hc ih
    refine readsNowhere_cons.mpr ⟨?_, ih⟩
    by_cases hsemicolon : c = ';'
    · subst hsemicolon
      exact hone (repeatedSemicolons?_eq_none_iff.mp hc)
    · exact repeatedSemicolons?_other c _ hsemicolon
  · intro m new t hread _ ih
    obtain ⟨rfl, -, -, -, -, hfirst⟩ := of_repeatedSemicolons? hread
    exact readsNowhere_cons.mpr ⟨hone hfirst, ih⟩

/-- no semicolon is idle behind the second clean-up if none is repeated before it -/
theorem noIdle_replace (h : ReadsNowhere repeatedSemicolons? t) :
    NoIdle (replace (fun _ => trailingSemicolons?) t) := by
  refine replace_induction shrinks_trailingSemicolons?
    (motive := fun t u => ReadsNowhere repeatedSemicolons? t → NoIdle u) ?_ ?_ ?_ t h
  · exact fun _ => noIdle_nil
  · intro c t hc ih h
    obtain ⟨hrepeated, ht⟩ := readsNowhere_cons.mp h
    refine noIdle_cons.mpr ⟨?_, ih ht⟩
    rintro rfl hends
    have hno : firstSign t ≠ some ';' := repeatedSemicolons?_eq_none_iff.mp hrepeated
    rw [EndsNext, firstSign_replace trailingSemicolons?_other hno] at hends
    exact trailingSemicolons?_of_firstSign (hends.resolve_left hno) hc
  · intro m new t hread _ ih h
    obtain ⟨rfl, -⟩ := of_trailingSemicolons? hread
    exact noIdle_cons.mpr ⟨nofun, ih h.behind⟩

/-- the sheet behind the clean-ups of semicolons -/
def tidySemicolons (t : Text) : Text :=
  replace (fun _ => trailingSemicolons?) (replace (fun _ => repeatedSemicolons?) t)

/-- **The clean-ups leave no idle semicolon.** -/
theorem noIdle_tidySemicolons (t : Text) : NoIdle (tidySemicolons t) :=
  noIdle_replace (readsNowhere_repeatedSemicolons? t)

/-- a sheet with an idle semicolon becomes shorter, any other one stays as it is -/
theorem tidySemicolons_cases (t : Text) : NoIdle t ∧ tidySemicolons t = t ∨
    ¬ NoIdle t ∧ (tidySemicolons t).length < t.length := by
  by_cases hrepeated : ReadsNowhere repeatedSemicolons? t
  · by_cases htrailing : ReadsNowhere trailingSemicolons? t
    · left
      refine ⟨noIdle_iff.mpr ⟨hrepeated, htrailing⟩, ?_⟩
      rw [tidySemicolons, replace_eq_self hrepeated, replace_eq_self htrailing]
    · right
      refine ⟨fun h => htrailing (noIdle_iff.mp h).2, ?_⟩
      rw [tidySemicolons, replace_eq_self hrepeated]
      exact length_replace_lt shrinks_trailingSemicolons? htrailing
  · right
    refine ⟨fun h => hrepeated (noIdle_iff.mp h).1, ?_⟩
    exact Nat.lt_of_le_of_lt (length_replace_le shrinks_trailingSemicolons? _)
      (length_replace_lt shrinks_repeatedSemicolons? hrepeated)

end SiteBundle
