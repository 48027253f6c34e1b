import Mathlib.Logic.Function.Iterate
import SiteBundle.Proofs.Style.Hollow

/-!
# What tidying leaves of a stylesheet

The clean-ups of semicolons leave no idle semicolon (`noIdle_tidySemicolons`), and they run once.  Then
rounds of taking out empty rules follow until a round changes nothing (`exists_rounds`), and what they
take out are hollow rows (`thinned_tidyStyle`).

A row that goes can bring a semicolon next to the one that follows, or to the end of its block.  That
happens exactly where a semicolon had nothing but a hollow row before it ends (`Masked`), since a round
leaves of such a place such a place (`Masked.dropEmptyRules`), and in the end the row is gone.  So a tidy
stylesheet is settled, for all three clean-ups, exactly if there was no such place behind the clean-ups
of semicolons (`tidyStyle_settles`).
-/

namespace SiteBundle

open Text

variable {s t u : Text}

/-! ## rounds -/

theorem dropAllEmptyRules_of_readsNowhere (h : ReadsNowhere emptyRule? t) :
    dropAllEmptyRules t = t := by
  have heq : dropEmptyRules t = t := replace_eq_self h
  rw [dropAllEmptyRules]
  show (if (dropEmptyRules t).length < t.length then _ else t) = t
  rw [heq, if_neg (Nat.lt_irrefl _)]

theorem dropAllEmptyRules_of_reads (h : ¬ ReadsNowhere emptyRule? t) :
    dropAllEmptyRules t = dropAllEmptyRules (dropEmptyRules t) := by
  rw [dropAllEmptyRules]
  exact if_pos (length_replace_lt shrinks_emptyRule? h)

/-- induction along the rounds -/
theorem rounds_induction {motive : Text → Prop}
    (last : ∀ t, ReadsNowhere emptyRule? t → motive t)
    (round : ∀ t, ¬ ReadsNowhere emptyRule? t → motive (dropEmptyRules t) → motive t)
    (t : Text) : motive t := by
  induction hn : t.length using Nat.strongRecOn generalizing t with
  | _ n ih =>
    by_cases h : ReadsNowhere emptyRule? t
    · exact last t h
    · have hlt := length_replace_lt shrinks_emptyRule? h
      exact round t h (ih _ (hn ▸ hlt) _ rfl)

/-- **The rounds end.**  Each one before the last finds an empty rule, and then there is none. -/
theorem exists_rounds (t : Text) : ∃ n, n ≤ t.length ∧ dropAllEmptyRules t = dropEmptyRules^[n] t ∧
    (∀ k < n, ¬ ReadsNowhere emptyRule? (dropEmptyRules^[k] t)) ∧
    ReadsNowhere emptyRule? (dropAllEmptyRules t) := by
  refine rounds_induction (motive := fun t => ∃ n, n ≤ t.length ∧
    dropAllEmptyRules t = dropEmptyRules^[n] t ∧
    (∀ k < n, ¬ ReadsNowhere emptyRule? (dropEmptyRules^[k] t)) ∧
    ReadsNowhere emptyRule? (dropAllEmptyRules t)) (fun t h => ?_) (fun t h ih => ?_) t
  · rw [dropAllEmptyRules_of_readsNowhere h]
    exact ⟨0, Nat.zero_le _, rfl, nofun, h⟩
  · obtain ⟨n, hle, heq, hbefore, hlast⟩ := ih
    have hlt : (dropEmptyRules t).length < t.length := length_replace_lt shrinks_emptyRule? h
    rw [dropAllEmptyRules_of_reads h]
    refine ⟨n + 1, by omega, heq, fun k hk => ?_, hlast⟩
    cases k with
    | zero => exact h
    | succ k => exact hbefore k (Nat.lt_of_succ_lt_succ hk)

theorem readsNowhere_dropAllEmptyRules (t : Text) :
    ReadsNowhere emptyRule? (dropAllEmptyRules t) := by
  obtain ⟨-, -, -, -, h⟩ := exists_rounds t
  exact h

theorem length_dropAllEmptyRules_le (t : Text) : (dropAllEmptyRules t).length ≤ t.length := by
  refine rounds_induction (motive := fun t => (dropAllEmptyRules t).length ≤ t.length)
    (fun t h => ?_) (fun t h ih => ?_) t
  · exact Nat.le_of_eq (congrArg List.length (dropAllEmptyRules_of_readsNowhere h))
  · rw [dropAllEmptyRules_of_reads h]
    exact Nat.le_trans ih (length_replace_le shrinks_emptyRule? t)

theorem thinned_dropAllEmptyRules (t : Text) : Thinned true t (dropAllEmptyRules t) := by
  refine rounds_induction (motive := fun t => Thinned true t (dropAllEmptyRules t))
    (fun t h => ?_) (fun t h ih => ?_) t
  · rw [dropAllEmptyRules_of_readsNowhere h]
    exact .refl true t
  · rw [dropAllEmptyRules_of_reads h]
    exact (thinned_dropEmptyRules t).trans ih

theorem tidyStyle_eq (t : Text) : tidyStyle t = dropAllEmptyRules (tidySemicolons t) := rfl

/-- **Tidying takes out hollow rows**, behind the clean-ups of semicolons. -/
theorem thinned_tidyStyle (t : Text) : Thinned true (tidySemicolons t) (tidyStyle t) :=
  thinned_dropAllEmptyRules _

/-! ## semicolons that become idle -/

theorem endsNext_iff : EndsNext t ↔ ∃ blanks c r, t = blanks ++ c :: r ∧
    (∀ d ∈ blanks, isBlank d = true) ∧ (c = ';' ∨ c = '\x7d') := by
  constructor
  · intro h
    obtain ⟨c, hc, hfirst⟩ : ∃ c, (c = ';' ∨ c = '\x7d') ∧ firstSign t = some c :=
      h.elim (fun h => ⟨_, .inl rfl, h⟩) fun h => ⟨_, .inr rfl, h⟩
    obtain ⟨r, hr⟩ := List.head?_eq_some_iff.mp hfirst
    refine ⟨t.takeWhile isBlank, c, r, ?_, List.all_eq_true.mp List.all_takeWhile, hc⟩
    rw [← hr, List.takeWhile_append_dropWhile]
  · rintro ⟨blanks, c, r, rfl, hblanks, hc⟩
    have hfirst : firstSign (blanks ++ c :: r) = some c := by
      rw [firstSign, List.dropWhile_append_of_pos hblanks]
      rcases hc with rfl | rfl <;> rfl
    rcases hc with rfl | rfl
    · exact .inl hfirst
    · exact .inr hfirst

/-- a semicolon has nothing but a hollow row and white space behind it, up to the next semicolon or the
end of its block -/
def Masked (t : Text) : Prop :=
  ∃ a m r, t = a ++ ';' :: (m ++ r) ∧ Hollow m ∧ EndsNext r

theorem isSelectorChar_of_ends {c : Char} (h : c = ';' ∨ c = '\x7d') : isSelectorChar c = false := by
  rcases h with rfl | rfl <;> rfl

/-- a round does not move what ends a declaration -/
theorem endsNext_dropEmptyRules (h : EndsNext t) : EndsNext (dropEmptyRules t) := by
  obtain ⟨blanks, c, r, rfl, hblanks, hc⟩ := endsNext_iff.mp h
  have hno : c = '\x7b' → firstSign r ≠ some '\x7d' := by
    rintro rfl
    exact absurd hc (by decide)
  rw [dropEmptyRules_run (fun d hd => isSelectorChar_of_isBlank (hblanks d hd))
    (isSelectorChar_of_ends hc) hno]
  exact endsNext_iff.mpr ⟨blanks, c, _, rfl, hblanks, hc⟩

/-- **A round leaves such a place where there was one.** -/
theorem Masked.dropEmptyRules (h : Masked t) : Masked (dropEmptyRules t) := by
  obtain ⟨a, m, r, rfl, hm, hr⟩ := h
  obtain ⟨a', ha⟩ := dropEmptyRules_semicolon a (m ++ r)
  obtain ⟨m', hm', hrow⟩ := dropEmptyRules_hollow hm
  rw [ha, hrow]
  exact ⟨a', m', _, rfl, hm', endsNext_dropEmptyRules hr⟩

theorem Masked.dropAllEmptyRules (h : Masked t) : Masked (dropAllEmptyRules t) := by
  refine rounds_induction (motive := fun t => Masked t → Masked (SiteBundle.dropAllEmptyRules t))
    (fun t hno h => ?_) (fun t hread ih h => ?_) t h
  · rw [dropAllEmptyRules_of_readsNowhere hno]
    exact h
  · rw [dropAllEmptyRules_of_reads hread]
    exact ih h.dropEmptyRules

/-- without empty rules, such a place is an idle semicolon -/
theorem Masked.not_noIdle (h : Masked t) (hno : ReadsNowhere emptyRule? t) : ¬ NoIdle t := by
  obtain ⟨a, m, r, rfl, hm, hr⟩ := h
  by_cases hnil : m = []
  · subst hnil
    exact fun hidle => hidle a _ rfl (isIdle_semicolon.mpr hr)
  · obtain ⟨front, back, rfl, hread⟩ := hm.reads hnil
    exact absurd (hno (a ++ ';' :: front) (back ++ r) (by simp)) (hread r)

/-- an idle semicolon of a thinned sheet had nothing but a hollow row behind it -/
theorem masked_of_thinned (h : Thinned true s u) (hidle : ¬ NoIdle u) : Masked s := by
  simp only [NoIdle, not_forall, not_not] at hidle
  obtain ⟨a, b, rfl, r, rfl, hr⟩ := hidle
  obtain ⟨blanks, c, r, rfl, hblanks, hc⟩ := endsNext_iff.mp hr
  obtain ⟨a', s', rfl, hrest⟩ := h.of_append
  obtain ⟨m, s'', rfl, hm, -⟩ := hrest.of_selector fun d hd => isSelectorChar_of_isBlank (hblanks d hd)
  exact ⟨a', m, _, rfl, hm, endsNext_iff.mpr ⟨blanks, c, s'', rfl, hblanks, hc⟩⟩

/-- **Semicolons become idle exactly there.** -/
theorem noIdle_tidyStyle_iff (t : Text) : NoIdle (tidyStyle t) ↔ ¬ Masked (tidySemicolons t) := by
  constructor
  · intro h hmasked
    exact hmasked.dropAllEmptyRules.not_noIdle (readsNowhere_dropAllEmptyRules _) h
  · intro h
    exact Classical.byContradiction fun hidle => h (masked_of_thinned (thinned_tidyStyle t) hidle)

/-- a tidy sheet stays as it is exactly if it has no idle semicolon -/
theorem tidyStyle_tidyStyle_iff (t : Text) :
    tidyStyle (tidyStyle t) = tidyStyle t ↔ NoIdle (tidyStyle t) := by
  have hno : ReadsNowhere emptyRule? (tidyStyle t) := readsNowhere_dropAllEmptyRules _
  generalize tidyStyle t = u at hno
  rw [tidyStyle_eq]
  rcases tidySemicolons_cases u with ⟨hidle, heq⟩ | ⟨hidle, hlt⟩
  · rw [heq]
    exact ⟨fun _ => hidle, fun _ => dropAllEmptyRules_of_readsNowhere hno⟩
  · refine ⟨fun heq => absurd hlt ?_, fun h => absurd h hidle⟩
    have hle := length_dropAllEmptyRules_le (tidySemicolons u)
    rw [heq] at hle
    exact Nat.not_lt.mpr hle

/-- **How far a tidy stylesheet is settled.**  The rounds end: each one before the last finds an empty
rule, and then there is none.  They take out hollow rows of a sheet without idle semicolons.  The result
is settled for the clean-ups of semicolons, and tidying it again changes nothing, exactly if no semicolon
of that sheet had a hollow row alone behind it. -/
theorem tidyStyle_settles (t : Text) :
    (∃ n, n ≤ (tidySemicolons t).length ∧ tidyStyle t = dropEmptyRules^[n] (tidySemicolons t) ∧
      ∀ k < n, ¬ ReadsNowhere emptyRule? (dropEmptyRules^[k] (tidySemicolons t))) ∧
    ReadsNowhere emptyRule? (tidyStyle t) ∧
    NoIdle (tidySemicolons t) ∧ Thinned true (tidySemicolons t) (tidyStyle t) ∧
    (ReadsNowhere repeatedSemicolons? (tidyStyle t) ∧
      ReadsNowhere trailingSemicolons? (tidyStyle t) ↔ ¬ Masked (tidySemicolons t)) ∧
    (tidyStyle (tidyStyle t) = tidyStyle t ↔ ¬ Masked (tidySemicolons t)) := by
  obtain ⟨n, hle, heq, hbefore, hlast⟩ := exists_rounds (tidySemicolons t)
  refine ⟨⟨n, hle, heq, hbefore⟩, hlast, noIdle_tidySemicolons t, thinned_tidyStyle t, ?_, ?_⟩
  · rw [← noIdle_iff, noIdle_tidyStyle_iff]
  · rw [tidyStyle_tidyStyle_iff, noIdle_tidyStyle_iff]

/-- an empty rule behind the last declaration of a block -/
def emptyRuleLast : Text := "a\x7bb:c;d\x7b\x7d\x7d".toList

/-- taking out an empty rule leaves a semicolon before the end of the block -/
theorem tidyStyle_settles_fails : ¬ ∀ t, ReadsNowhere repeatedSemicolons? (tidyStyle t) ∧
    ReadsNowhere trailingSemicolons? (tidyStyle t) ∧ ReadsNowhere emptyRule? (tidyStyle t) := by
  intro h
  have hsemicolons : tidySemicolons emptyRuleLast = emptyRuleLast := rfl
  have hmasked : Masked (tidySemicolons emptyRuleLast) := by
    rw [hsemicolons]
    have hrow : Hollow (['d'] ++ '\x7b' :: ([] ++ ([] ++ '\x7d' :: []))) :=
      .rule (by decide) (by decide) .nil nofun .nil
    exact ⟨"a\x7bb:c".toList, _, ['\x7d'], rfl, hrow, .inr rfl⟩
  obtain ⟨hrepeated, htrailing, -⟩ := h emptyRuleLast
  exact (noIdle_tidyStyle_iff emptyRuleLast).mp (noIdle_iff.mpr ⟨hrepeated, htrailing⟩) hmasked

end SiteBundle
