import SiteBundle.Proofs.Glob.Deepened

/-!
# Asking for any directories in front

`depthPrefix` in front of a pattern asks for what the pattern names in any directory.  Reading it goes
as reading the pattern alone, with one more token under all others:

* `led`                    the open groups and the current branch, with that token under them;
* `readGlob_led`           a pattern that does not begin with two stars of its own stays readable, and
  its tokens get that one in front;
* `readGlob_depthPrefix`   the same from the beginning of the pattern on.
-/

namespace SiteBundle

open Text

variable {before : Option Char} {groups : List OpenGroup} {current tokens : List GlobToken}
  {mode : Option OpenClass} {r t : Text}

/-- what makes a pattern match in any directory -/
def depthPrefix : Text := ['*', '*', '/']

/-! ## one more token under those read so far -/

/-- any directories under what is read so far: in the outermost branch -/
def led : List OpenGroup → List GlobToken → List OpenGroup × List GlobToken
  | [], current => ([], current ++ [.deepStart])
  | g :: groups, current =>
    (⟨(led groups g.outer).2, g.branches⟩ :: (led groups g.outer).1, current)

theorem led_nil (current : List GlobToken) : led [] current = ([], current ++ [.deepStart]) := rfl

theorem led_token (groups : List OpenGroup) (t : GlobToken) (current : List GlobToken) :
    led groups (t :: current) = ((led groups current).1, t :: (led groups current).2) := by
  cases groups <;> rfl

theorem isEmpty_led (groups : List OpenGroup) (current : List GlobToken) :
    (led groups current).1.isEmpty = groups.isEmpty := by
  cases groups <;> rfl

/-- two stars behind something are read alike over any directories -/
theorem doubleStar_append (inGroup : Bool) (last : GlobToken) (earlier under : List GlobToken)
    (r : Text) : doubleStar before inGroup (last :: earlier ++ under) r =
      ((doubleStar before inGroup (last :: earlier) r).1 ++ under,
        (doubleStar before inGroup (last :: earlier) r).2) := by
  unfold doubleStar
  dsimp only [List.cons_append]
  split
  · rfl
  · split
    · cases last <;> rfl
    · cases last <;> rfl
    · split
      · cases last <;> rfl
      · rfl

/-- two stars would be read alike at this place with any directories under it -/
def StarsAlike (before before' : Option Char) (groups : List OpenGroup) (current : List GlobToken)
    (t : Text) : Prop :=
  ∀ r, t = '*' :: '*' :: r → doubleStar before' (!groups.isEmpty) (led groups current).2 r =
    ((led groups (doubleStar before (!groups.isEmpty) current r).1).2,
      (doubleStar before (!groups.isEmpty) current r).2)

theorem starsAlike_of_ne_nil (h : groups = [] → current ≠ []) :
    StarsAlike before before groups current t := by
  intro r _
  cases groups with
  | cons g groups => rfl
  | nil =>
    obtain ⟨last, earlier, rfl⟩ := List.exists_cons_of_ne_nil (h rfl)
    exact doubleStar_append false last earlier [.deepStart] r

theorem doubleStar_ne_nil {inGroup swallow : Bool}
    (h : doubleStar before inGroup current r = (tokens, swallow)) : tokens ≠ [] := by
  obtain ⟨-, rfl | ⟨-, t, rfl, -⟩⟩ := of_doubleStar h
  · exact List.cons_ne_nil _ _
  · exact List.cons_ne_nil _ _

theorem led_fst (groups : List OpenGroup) (current current' : List GlobToken) :
    (led groups current).1 = (led groups current').1 := by
  cases groups <;> rfl

theorem head?_ne_of_onlyAtStart (h : OnlyAtStart (current ++ [.deepStart])) :
    current.reverse.head? ≠ some .deepStart := by
  rw [List.head?_reverse]
  induction current with
  | nil => exact nofun
  | cons t current ih =>
    cases current with
    | nil => exact fun hlast => absurd (h.1 (Option.some.inj hlast)) (List.cons_ne_nil _ _)
    | cons u current =>
      rw [List.getLast?_cons_cons]
      exact ih h.2

/-- the state behind two stars -/
theorem reading_led_stars {before' : Option Char} {swallow : Bool}
    (hr : Reading before' (led groups current).1 (led groups current).2 none)
    (halike : StarsAlike before before' groups current ('*' :: '*' :: r))
    (h : doubleStar before (!groups.isEmpty) current r = (tokens, swallow)) (c : Option Char) :
    doubleStar before' (!(led groups current).1.isEmpty) (led groups current).2 r =
        ((led groups tokens).2, swallow) ∧
      Reading c (led groups tokens).1 (led groups tokens).2 none := by
  have hdouble : doubleStar before' (!groups.isEmpty) (led groups current).2 r =
      ((led groups tokens).2, swallow) := by
    rw [halike r rfl, h]
  refine ⟨by rw [isEmpty_led, hdouble], onlyAtStart_doubleStar hr.start hdouble, ?_, ?_⟩
  · rw [led_fst groups tokens current]
    exact hr.outer
  · intro _ hempty hone
    -- something stands over the directories
    cases groups with
    | cons g groups => exact nomatch hempty
    | nil =>
      rw [led_nil] at hone
      exact absurd (by simpa using hone) (doubleStar_ne_nil h)

/-- **A pattern is read over any directories as it is read alone.** -/
theorem readGlob_led {before' : Option Char}
    (hr : Reading before' (led groups current).1 (led groups current).2 mode)
    (halike : mode = none → StarsAlike before before' groups current t)
    (h : readGlob before groups current mode t = .ok tokens) :
    readGlob before' (led groups current).1 (led groups current).2 mode t =
      .ok (.deepStart :: tokens) ∧ tokens.head? ≠ some .deepStart := by
  have hpush : ∀ {groups : List OpenGroup} {t : GlobToken} {current : List GlobToken} {r : Text}
      {c : Option Char}, StarsAlike c c groups (t :: current) r :=
    starsAlike_of_ne_nil fun _ => List.cons_ne_nil _ _
  have hgroup : ∀ {g : OpenGroup} {groups : List OpenGroup} {current : List GlobToken} {r : Text}
      {c : Option Char}, StarsAlike c c (g :: groups) current r := starsAlike_of_ne_nil nofun
  have hclass : ∀ {k : OpenClass} {p : Prop}, some k = none → p := fun hk =>
    absurd hk (Option.some_ne_none _)
  fun_induction readGlob before groups current mode t generalizing before' with
  | case1 | case3 | case6 | case11 | case17 => cases h
  | case2 before groups current k c r hc ih =>
    rw [readGlob, if_pos hc]
    rw [led_token] at ih
    exact ih (hr.push (by simp [OpenClass.token])) (fun _ => hpush) h
  | case4 before groups current k c r hc k' hk ih =>
    rw [readGlob, if_neg hc, hk]
    exact ih (hr.inClass k') hclass h
  | case5 before groups current hempty =>
    obtain rfl := List.isEmpty_iff.mp hempty
    obtain rfl := Except.ok.inj h
    refine ⟨?_, head?_ne_of_onlyAtStart hr.start⟩
    rw [led_nil, readGlob, List.reverse_append]
    rfl
  | case7 before groups current tokens' c r hstar ih =>
    rw [hstar] at h
    obtain ⟨hdouble, hreading⟩ := reading_led_stars hr (halike rfl) hstar (some c)
    rw [readGlob_swallow hdouble, led_fst groups current tokens']
    refine ih hreading (fun _ => starsAlike_of_ne_nil fun _ => doubleStar_ne_nil hstar) h
  | case8 before groups current tokens' swallow r hswallow hstar ih =>
    obtain ⟨hdouble, hreading⟩ := reading_led_stars hr (halike rfl) hstar (some '*')
    have hplain : r = [] ∨ swallow = false := by
      cases r with
      | nil => exact .inl rfl
      | cons c r => exact .inr (Bool.eq_false_iff.mpr (hswallow c r rfl))
    have h : readGlob (some '*') groups tokens' none r = .ok tokens := by
      rw [hstar] at h
      cases r with
      | nil => cases swallow <;> exact h
      | cons c r =>
        obtain rfl : swallow = false := hplain.resolve_left (List.cons_ne_nil _ _)
        exact h
    rw [readGlob_doubleStar hplain hdouble, led_fst groups current tokens']
    exact ih hreading (fun _ => starsAlike_of_ne_nil fun _ => doubleStar_ne_nil hstar) h
  | case9 before groups current r ih | case10 before groups current r ih =>
    exact ih (hr.inClass _) hclass h
  | case12 before groups current c r ih | case13 before groups current r _ _ _ _ _ ih =>
    rw [led_token] at ih
    exact ih (hr.push (by simp)) (fun _ => hpush) h
  | case14 before groups current r hstar _ _ _ _ _ ih =>
    rw [led_token] at ih
    rw [readGlob_star fun s hs => hstar s rfl hs]
    exact ih (hr.push (by simp)) (fun _ => hpush) h
  | case15 before groups current r _ hneg hneg' _ _ _ _ ih =>
    rw [readGlob_class (fun s hs => hneg s rfl hs) fun s hs => hneg' s rfl hs]
    exact ih (hr.inClass _) hclass h
  | case16 before groups current r _ _ _ _ _ _ _ _ ih =>
    exact ih (hr.openGroup []) (fun _ => hgroup) h
  | case18 before current r g groups _ _ _ _ _ _ _ _ _ ih =>
    rw [led_token] at ih
    exact ih (hr.closeGroup _) (fun _ => hpush) h
  | case19 before current r _ _ _ _ _ _ _ _ _ _ ih =>
    exact ih (hr.push (by simp)) (fun _ => hpush) h
  | case20 before current r g groups _ _ _ _ _ _ _ _ _ _ ih =>
    exact ih (hr.nextBranch _) (fun _ => hgroup) h
  | case21 before groups current c r _ _ _ hend hescape hany hstar hclass hopen hclose hcomma ih =>
    rw [led_token] at ih
    rw [readGlob_literal]
    · exact ih (hr.push (by simp)) (fun _ => hpush) h
    · intro hc
      simp only [List.mem_cons, List.not_mem_nil, or_false, hany, hstar, hclass, hopen, hclose,
        hcomma] at hc
      cases r with
      | nil => exact hend hc rfl
      | cons d r => exact hescape d r hc rfl

/-- a pattern that begins with two stars of its own, taking the place of any directories -/
def LeadsDeep (pattern : Text) : Prop :=
  ∃ r, pattern = '*' :: '*' :: r ∧ (r = [] ∨ r.head? = some '/')

/-- **A readable pattern stays readable in any directory**, and it says nothing about leading
directories itself. -/
theorem readGlob_depthPrefix (hlead : ¬ LeadsDeep t) (h : globTokens t = .ok tokens) :
    globTokens (depthPrefix ++ t) = .ok (.deepStart :: tokens) ∧
      tokens.head? ≠ some .deepStart := by
  have hreading : Reading (some '/') (led [] []).1 (led [] []).2 none :=
    ⟨⟨fun _ => rfl, trivial⟩, nofun, fun _ _ _ => rfl⟩
  have halike : StarsAlike none (some '/') [] [] t := by
    rintro r rfl
    match r, not_exists.mp hlead r with
    | [], hr => exact absurd ⟨rfl, .inl rfl⟩ hr
    | c :: r, hr =>
      have hc : c ≠ '/' := fun hc => hr ⟨rfl, .inr (congrArg some hc)⟩
      simp [doubleStar, led, hc]
  exact readGlob_led hreading (fun _ => halike) h

end SiteBundle
