import SiteBundle.Proofs.Style.Swept
import SiteBundle.Proofs.Style.Tidy

/-!
# Strings of a tidy stylesheet

Empty rules are taken out wherever the text looks like one.  A stretch of a stylesheet that goes leaves
the reading of the rest alone if it ends in what it begins in, and that is no string
(`styleStrings_stretch`): then only its own strings go.

* `stretchStrings a m`   the strings of the stretch `m` behind `a`;
* `RowsOutside s`        every hollow row of `s` is such a stretch;
* `ReadsOn a a' gone`    `a'` is read on as `a`, with the strings `gone` left out;
* `Thinned.readsOn`      so is a thinned text, with the strings of the rows left out.
-/

namespace SiteBundle

open Text

variable {a a' m s t u v w x y : Text} {b : Bool} {c : Char} {gone l : List Text} {o : Option Unclosed}

/-! ## stretches -/

/-- a text that no comment mark can begin at the end of -/
def ClearEnd (t : Text) : Prop := ∀ c ∈ t.getLast?, c ≠ '/' ∧ c ≠ '*'

/-- a character that opens and closes nothing -/
def isPlain (c : Char) : Bool := !(c == '"' || c == '\'' || c == '/' || c == '*')

theorem Outline.openAt_cases (h : Outline t l o) :
    o = none ∨ o = some .comment ∨ o = some .string := by
  induction h with
  | done => exact .inl rfl
  | char _ _ _ ih => exact ih
  | comment _ _ ih => exact ih
  | string _ _ _ ih => exact ih
  | openComment => exact .inr (.inl rfl)
  | openString => exact .inr (.inr rfl)

theorem openAt_cases (ho : openAt t ≠ some .string) : openAt t = none ∨ openAt t = some .comment := by
  rcases (outline t).openAt_cases with h | h | h
  · exact .inl h
  · exact .inr h
  · exact absurd h ho

/-- what is opened again is open, and has no strings -/
theorem outline_opening (ho : openAt t ≠ some .string) :
    styleStrings (opening (openAt t)) = [] ∧ openAt (opening (openAt t)) = openAt t := by
  rcases openAt_cases ho with h | h
  · rw [h]
    exact ⟨rfl, rfl⟩
  · rw [h]
    exact ⟨rfl, rfl⟩

/-- a plain character behind a text outside strings -/
theorem outline_plain (ho : openAt t ≠ some .string) (hc : isPlain c = true) :
    styleStrings (t ++ [c]) = styleStrings t ∧ openAt (t ++ [c]) = openAt t := by
  have hc : ¬ (c = '"' ∨ c = '\'') ∧ c ≠ '/' ∧ c ≠ '*' := by
    simpa [isPlain, and_assoc] using hc
  have hapart : Apart t [c] := .inr fun d hd => by
    rw [← Option.some.inj hd]
    exact hc.2
  have hone : Outline (opening (openAt t) ++ [c]) [] (openAt t) := by
    rcases openAt_cases ho with h | h
    · rw [h]
      exact .char hc.1 (fun _ => nofun) .done
    · rw [h]
      exact .openComment fun hcloses => absurd hcloses.length_le (by simp)
  obtain ⟨hstrings, hopen⟩ := outline_iff.mp ((outline t).append ho hapart hone)
  rw [List.append_nil] at hstrings
  exact ⟨hstrings.symm, hopen.symm⟩

theorem outline_allPlain (ho : openAt t ≠ some .string) (hw : ∀ c ∈ w, isPlain c = true) :
    styleStrings (t ++ w) = styleStrings t ∧ openAt (t ++ w) = openAt t := by
  induction w generalizing t with
  | nil => rw [List.append_nil]; exact ⟨rfl, rfl⟩
  | cons c w ih =>
    obtain ⟨hc, hw⟩ := List.forall_mem_cons.mp hw
    obtain ⟨hstrings, hopen⟩ := outline_plain ho hc
    obtain ⟨hstrings', hopen'⟩ := ih (t := t ++ [c]) (by rw [hopen]; exact ho) hw
    rw [List.append_assoc, List.singleton_append] at hstrings' hopen'
    exact ⟨hstrings'.trans hstrings, hopen'.trans hopen⟩

/-- the strings of a stretch, behind what stands before it -/
def stretchStrings (a m : Text) : List Text := styleStrings (opening (openAt a) ++ m)

/-- **A stretch that ends in what it begins in** leaves alone how the rest is read. -/
theorem styleStrings_stretch (ho : openAt a ≠ some .string) (hm : openAt (a ++ m) = openAt a)
    (ha : ClearEnd a) (ham : ClearEnd (a ++ m)) (x : Text) :
    openAt (a ++ (m ++ x)) = openAt (a ++ x) ∧ ∃ behind,
      styleStrings (a ++ x) = styleStrings a ++ behind ∧
      styleStrings (a ++ (m ++ x)) = styleStrings a ++ (stretchStrings a m ++ behind) := by
  obtain ⟨hstrings, hopen⟩ := outline_append (x := x) ho (.inl ha)
  obtain ⟨hstrings', hopen'⟩ := outline_append (t := a ++ m) (x := x) (by rw [hm]; exact ho) (.inl ham)
  rw [hm, List.append_assoc] at hstrings' hopen'
  refine ⟨hopen'.trans hopen.symm, _, hstrings, ?_⟩
  rw [hstrings', (outline_append ho (.inl ha)).1, List.append_assoc]
  rfl

/-! ## rows that go -/

/-- a rule may begin behind the text -/
def RuleNext (a : Text) : Prop := ∀ c ∈ a.getLast?, isSelectorChar c = false

/-- no hollow row begins or ends in a string, and each ends in what it begins in -/
def RowsOutside (s : Text) : Prop := ∀ a m x, s = a ++ (m ++ x) → RuleNext a → Hollow m → m ≠ [] →
  openAt a ≠ some .string ∧ openAt (a ++ m) = openAt a

theorem RuleNext.clearEnd (h : RuleNext a) : ClearEnd a := by
  intro c hc
  refine ⟨?_, ?_⟩
  · rintro rfl
    exact nomatch h _ hc
  · rintro rfl
    exact nomatch h _ hc

theorem Hollow.getLast? (h : Hollow m) (hne : m ≠ []) : m.getLast? = some '\x7d' := by
  induction h with
  | nil => exact absurd rfl hne
  | @rule selector inside blanks rest _ _ _ _ _ _ ih =>
    by_cases hrest : rest = []
    · rw [hrest, show selector ++ '\x7b' :: (inside ++ (blanks ++ ['\x7d'])) =
        (selector ++ '\x7b' :: (inside ++ blanks)) ++ ['\x7d'] by simp, List.getLast?_concat]
    · rw [show selector ++ '\x7b' :: (inside ++ (blanks ++ '\x7d' :: rest)) =
        (selector ++ '\x7b' :: (inside ++ (blanks ++ ['\x7d']))) ++ rest by simp,
        List.getLast?_append, ih hrest]
      rfl

theorem RuleNext.append (h : RuleNext a) (hm : Hollow m) : RuleNext (a ++ m) := by
  by_cases hne : m = []
  · rw [hne, List.append_nil]
    exact h
  · intro c hc
    rw [List.getLast?_append, hm.getLast? hne] at hc
    rw [← Option.some.inj hc]
    rfl

/-- the second text is read on as the first one, with the strings that are gone left out -/
structure ReadsOn (a a' : Text) (gone : List Text) : Prop where
  opens : ∀ x, openAt (a ++ x) = openAt (a' ++ x)
  sublist : ∀ x, (styleStrings (a' ++ x)).Sublist (styleStrings (a ++ x))
  perm : ∀ x, (styleStrings (a ++ x)).Perm (styleStrings (a' ++ x) ++ gone)

theorem ReadsOn.keep (h : ReadsOn a a' gone) (c : Char) : ReadsOn (a ++ [c]) (a' ++ [c]) gone := by
  refine ⟨fun x => ?_, fun x => ?_, fun x => ?_⟩
  · rw [List.append_assoc, List.append_assoc]
    exact h.opens _
  · rw [List.append_assoc, List.append_assoc]
    exact h.sublist _
  · rw [List.append_assoc, List.append_assoc]
    exact h.perm _

theorem ReadsOn.drop (h : ReadsOn a a' gone) (ho : openAt a ≠ some .string)
    (hm : openAt (a ++ m) = openAt a) (ha : ClearEnd a) (ham : ClearEnd (a ++ m)) :
    ReadsOn (a ++ m) a' (gone ++ stretchStrings a m) := by
  refine ⟨fun x => ?_, fun x => ?_, fun x => ?_⟩
  · rw [List.append_assoc, (styleStrings_stretch ho hm ha ham x).1]
    exact h.opens x
  · obtain ⟨-, behind, hx, hmx⟩ := styleStrings_stretch ho hm ha ham x
    have hmore : (styleStrings a ++ behind).Sublist
        (styleStrings a ++ (stretchStrings a m ++ behind)) :=
      (List.sublist_append_right _ _).append_left _
    rw [List.append_assoc, hmx]
    exact (hx ▸ h.sublist x).trans hmore
  · obtain ⟨-, behind, hx, hmx⟩ := styleStrings_stretch ho hm ha ham x
    have hperm := h.perm x
    rw [hx] at hperm
    rw [List.append_assoc, hmx, ← List.append_assoc (styleStrings (a' ++ x))]
    have hswap : (styleStrings a ++ (stretchStrings a m ++ behind)).Perm
        ((styleStrings a ++ behind) ++ stretchStrings a m) := by
      rw [List.append_assoc]
      exact List.perm_append_comm.append_left _
    exact hswap.trans (hperm.append_right _)

/-- **What thinning does to strings**: those of the rows go, all others stay. -/
theorem Thinned.readsOn (h : Thinned b s u) (hb : b = true → RuleNext a)
    (hrows : RowsOutside (a ++ s)) (hread : ReadsOn a a' gone) :
    ∃ rows : List (Text × Text),
      (∀ r ∈ rows, Hollow r.2 ∧ ∃ x, a ++ s = r.1 ++ (r.2 ++ x)) ∧
      ReadsOn (a ++ s) (a' ++ u) (gone ++ rows.flatMap fun r => stretchStrings r.1 r.2) := by
  induction h generalizing a a' gone with
  | done =>
    refine ⟨[], nofun, ?_⟩
    simpa using hread
  | @keep b c s u _ ih =>
    have hs : a ++ c :: s = (a ++ [c]) ++ s := by simp
    have hu : a' ++ c :: u = (a' ++ [c]) ++ u := by simp
    rw [hs] at hrows ⊢
    rw [hu]
    refine ih (fun hc d hd => ?_) hrows (hread.keep c)
    rw [List.getLast?_concat] at hd
    rw [← Option.some.inj hd]
    simpa using hc
  | @drop m s u hm _ ih =>
    have hnext := hb rfl
    by_cases hne : m = []
    · rw [hne, List.nil_append] at hrows ⊢
      exact ih (fun _ => hnext) hrows hread
    · obtain ⟨ho, hopen⟩ := hrows a m s rfl hnext hm hne
      have hread := hread.drop ho hopen hnext.clearEnd (hnext.append hm).clearEnd
      rw [← List.append_assoc] at hrows ⊢
      obtain ⟨rows, hmem, hon⟩ := ih (fun _ => hnext.append hm) hrows hread
      refine ⟨(a, m) :: rows, List.forall_mem_cons.mpr ⟨⟨hm, s, List.append_assoc _ _ _⟩, hmem⟩, ?_⟩
      rw [List.flatMap_cons, ← List.append_assoc]
      exact hon

end SiteBundle
