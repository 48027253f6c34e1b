import SiteBundle.Glob.Pattern

/-!
# Asking for everything below

`deepSuffix` behind a pattern asks for everything below what the pattern names.  Reading it gives the
tokens of the pattern and one more, unless the pattern ends with two stars of its own:

* `Deepened`              the tokens that result;
* `Reading`               what holds of the tokens read so far: any directories stand at the start of a
  branch only, and a pattern that is nothing else has just taken a slash along;
* `readGlob_deepSuffix`   a readable pattern stays readable, and its tokens change so.
-/

namespace SiteBundle

open Text

variable {before : Option Char} {groups : List OpenGroup} {current tokens : List GlobToken}
  {mode : Option OpenClass} {r : Text}

/-- what makes a pattern match everything below what it names -/
def deepSuffix : Text := ['/', '*', '*']

/-- how the tokens of a pattern change with everything below; `last` is the last character of the
pattern -/
inductive Deepened (last : Option Char) (tokens : List GlobToken) : List GlobToken → Prop where
  | more : (tokens = [.deepStart] → last = some '/') → Deepened last tokens (tokens ++ [.deepEnd])
  | same (front : List GlobToken) : tokens = front ++ [.deepEnd] → Deepened last tokens tokens
  | all : Deepened last tokens [.deepStart]

/-! ## one step of reading -/

attribute [local simp] readGlob

theorem readGlob_star (h : ∀ s, r ≠ '*' :: s) : readGlob before groups current none ('*' :: r) =
    readGlob (some '*') groups (.star :: current) none r := by
  cases groups <;> simp [h]

theorem readGlob_class (h : ∀ s, r ≠ '!' :: s) (h' : ∀ s, r ≠ '^' :: s) :
    readGlob before groups current none ('[' :: r) =
      readGlob (some '[') groups current (some ⟨false, [], true, false⟩) r := by
  cases groups <;> simp [h, h']

theorem readGlob_literal {c : Char} (h : c ∉ ['\\', '?', '*', '[', '\x7b', '\x7d', ',']) :
    readGlob before groups current none (c :: r) =
      readGlob (some c) groups (.literal c :: current) none r := by
  simp only [List.mem_cons, not_or] at h
  cases groups <;> simp [h]

/-- of what is behind two stars, only the first character matters -/
theorem doubleStar_cons (inGroup : Bool) (c : Char) (r s : Text) :
    doubleStar before inGroup current (c :: r) = doubleStar before inGroup current (c :: s) := by
  by_cases hc : c = '/'
  · rw [hc]
    cases current <;> rfl
  · cases current with
    | nil => simp [doubleStar, hc]
    | cons last earlier => simp [doubleStar]

theorem readGlob_swallow {c : Char}
    (h : doubleStar before (!groups.isEmpty) current (c :: r) = (tokens, true)) :
    readGlob before groups current none ('*' :: '*' :: c :: r) =
      readGlob (some c) groups tokens none r := by
  rw [readGlob]
  exact h

theorem readGlob_doubleStar {swallow : Bool} (hswallow : r = [] ∨ swallow = false)
    (h : doubleStar before (!groups.isEmpty) current r = (tokens, swallow)) :
    readGlob before groups current none ('*' :: '*' :: r) =
      readGlob (some '*') groups tokens none r := by
  rw [readGlob]
  case heq => exact h
  rintro c s rfl rfl
  exact hswallow.elim nofun nofun

/-- the suffix itself, behind a pattern that is read -/
theorem readGlob_deepSuffix_nil :
    readGlob before [] current none deepSuffix = .ok (current.reverse ++ [.deepEnd]) := by
  rw [← List.reverse_cons]
  rfl

/-! ## the tokens read so far -/

/-- any directories stand at the start only; the tokens are last first -/
def OnlyAtStart : List GlobToken → Prop
  | [] => True
  | t :: r => (t = .deepStart → r = []) ∧ OnlyAtStart r

structure Reading (before : Option Char) (groups : List OpenGroup) (current : List GlobToken)
    (mode : Option OpenClass) : Prop where
  start : OnlyAtStart current
  outer : ∀ g ∈ groups, OnlyAtStart g.outer
  slash : mode = none → groups = [] → current = [.deepStart] → before = some '/'

namespace Reading

variable {c : Option Char} {t : GlobToken}

theorem nil : Reading none [] [] none := ⟨trivial, nofun, nofun⟩

theorem push (h : Reading before groups current mode) (ht : t ≠ .deepStart) :
    Reading c groups (t :: current) none where
  start := ⟨fun he => absurd he ht, h.start⟩
  outer := h.outer
  slash := fun _ _ he => absurd (List.cons.inj he).1 ht

theorem inClass (h : Reading before groups current mode) (k : OpenClass) :
    Reading c groups current (some k) := ⟨h.start, h.outer, nofun⟩

theorem openGroup (h : Reading before groups current mode) (branches : List (List GlobToken)) :
    Reading c (⟨current, branches⟩ :: groups) [] none :=
  ⟨trivial, List.forall_mem_cons.mpr ⟨h.start, h.outer⟩, nofun⟩

theorem nextBranch {g : OpenGroup} (h : Reading before (g :: groups) current mode)
    (branches : List (List GlobToken)) : Reading c (⟨g.outer, branches⟩ :: groups) [] none :=
  ⟨trivial, List.forall_mem_cons.mpr (List.forall_mem_cons.mp h.outer), nofun⟩

theorem closeGroup {g : OpenGroup} (h : Reading before (g :: groups) current mode)
    (branches : List (List GlobToken)) : Reading c groups (.choice branches :: g.outer) none :=
  ⟨⟨nofun, h.outer g List.mem_cons_self⟩, (List.forall_mem_cons.mp h.outer).2, nofun⟩

end Reading

/-- the token that takes the place of the last one -/
theorem exists_replaced {last t : GlobToken} (earlier : List GlobToken) (ht : t ≠ .deepStart) :
    ∃ t', (match last with
      | .deepStart => GlobToken.deepStart :: earlier
      | .deepEnd => .deepEnd :: earlier
      | _ => t :: earlier) = t' :: earlier ∧
        (t' = .deepStart → last :: earlier = [] ∨ (last :: earlier).head? = some .deepStart) := by
  cases last with
  | deepStart => exact ⟨_, rfl, fun _ => .inr rfl⟩
  | deepEnd => exact ⟨_, rfl, nofun⟩
  | _ => exact ⟨_, rfl, fun h => absurd h ht⟩

/-- two stars are two single stars or take the place of the last token; then they take a slash along
or stand at the end, or at the end of a branch -/
theorem of_doubleStar {inGroup swallow : Bool}
    (h : doubleStar before inGroup current r = (tokens, swallow)) :
    (swallow = true → r.head? = some '/') ∧ (tokens = .star :: .star :: current ∨
      (r = [] ∨ swallow = true ∨ inGroup = true) ∧ ∃ t, tokens = t :: current.tail ∧
        (t = .deepStart → current = [] ∨ current.head? = some .deepStart)) := by
  cases current with
  | nil =>
    unfold doubleStar at h
    dsimp only at h
    split at h <;> obtain ⟨rfl, rfl⟩ := Prod.mk.inj h
    · exact ⟨nofun, .inr ⟨.inl rfl, _, rfl, fun _ => .inl rfl⟩⟩
    · exact ⟨fun _ => rfl, .inr ⟨.inr (.inl rfl), _, rfl, fun _ => .inl rfl⟩⟩
    · exact ⟨nofun, .inl rfl⟩
  | cons last earlier =>
    unfold doubleStar at h
    dsimp only at h
    split at h
    · obtain ⟨rfl, rfl⟩ := Prod.mk.inj h
      exact ⟨nofun, .inl rfl⟩
    · split at h
      · obtain ⟨rfl, rfl⟩ := Prod.mk.inj h
        exact ⟨nofun, .inr ⟨.inl rfl, exists_replaced earlier nofun⟩⟩
      · obtain ⟨rfl, rfl⟩ := Prod.mk.inj h
        exact ⟨fun _ => rfl, .inr ⟨.inr (.inl rfl), exists_replaced earlier nofun⟩⟩
      · split at h
        · rename_i hgroup
          obtain ⟨rfl, rfl⟩ := Prod.mk.inj h
          exact ⟨nofun, .inr ⟨.inr (.inr (Bool.and_eq_true_iff.mp hgroup).1),
            exists_replaced earlier nofun⟩⟩
        · obtain ⟨rfl, rfl⟩ := Prod.mk.inj h
          exact ⟨nofun, .inl rfl⟩

theorem onlyAtStart_doubleStar {inGroup swallow : Bool} (hcurrent : OnlyAtStart current)
    (h : doubleStar before inGroup current r = (tokens, swallow)) : OnlyAtStart tokens := by
  obtain ⟨-, rfl | ⟨-, t, rfl, ht⟩⟩ := of_doubleStar h
  · exact ⟨nofun, nofun, hcurrent⟩
  · cases current with
    | nil => exact ⟨fun _ => rfl, trivial⟩
    | cons last earlier =>
      refine ⟨fun hall => ?_, hcurrent.2⟩
      rcases ht hall with hnil | hlast
      · exact nomatch hnil
      · exact hcurrent.1 (Option.some.inj hlast)

/-- any directories alone, with something behind them: they took the slash along -/
theorem swallows_of_doubleStar {swallow : Bool} {c : Char}
    (h : doubleStar before false current (c :: r) = ([.deepStart], swallow)) : swallow = true := by
  obtain ⟨-, hplain | ⟨hnil | hswallow | hgroup, -⟩⟩ := of_doubleStar h
  · exact nomatch hplain
  · exact nomatch hnil
  · exact hswallow
  · exact nomatch hgroup

/-! ## reading with everything below -/

/-- the last character, or else the one before -/
def lastBehind (before : Option Char) (t : Text) : Option Char := t.getLast?.or before

theorem lastBehind_append (m : Text) (c : Char) (r : Text) :
    lastBehind before (m ++ c :: r) = lastBehind (some c) r := by
  unfold lastBehind
  rw [List.getLast?_append, List.getLast?_cons]
  cases r.getLast? <;> rfl

/-- reading goes on with everything below as it would without -/
def Deepens (before : Option Char) (groups : List OpenGroup) (current : List GlobToken)
    (mode : Option OpenClass) (t : Text) (tokens : List GlobToken) : Prop :=
  ∃ deep, readGlob before groups current mode (t ++ deepSuffix) = .ok deep ∧
    Deepened (lastBehind before t) tokens deep

theorem Deepens.step {c : Char} {groups' : List OpenGroup} {current' : List GlobToken}
    {mode' : Option OpenClass} (h : Deepens (some c) groups' current' mode' r tokens) (m : Text)
    (hread : readGlob before groups current mode (m ++ c :: (r ++ deepSuffix)) =
      readGlob (some c) groups' current' mode' (r ++ deepSuffix)) :
    Deepens before groups current mode (m ++ c :: r) tokens := by
  obtain ⟨deep, hdeep, hd⟩ := h
  refine ⟨deep, ?_, (lastBehind_append m c r).symm ▸ hd⟩
  rw [List.append_assoc, List.cons_append, hread, hdeep]

/-- two stars at the end of a pattern -/
theorem deepens_doubleStar {swallow : Bool} (hr : Reading before [] current none)
    (h : doubleStar before false current [] = (tokens, swallow)) :
    Deepens before [] current none ['*', '*'] tokens.reverse := by
  obtain rfl := congrArg Prod.fst h
  cases current with
  | nil => exact ⟨_, rfl, .all⟩
  | cons last earlier =>
    by_cases hbefore : before = some '/'
    · subst hbefore
      cases last with
      | deepStart =>
        obtain rfl := hr.start.1 rfl
        exact ⟨_, rfl, .all⟩
      | _ => exact ⟨_, rfl, .same earlier.reverse List.reverse_cons⟩
    · have hplain : ∀ r, doubleStar before false (last :: earlier) r =
          (.star :: .star :: last :: earlier, false) := fun r => if_pos ⟨hbefore, .inl rfl⟩
      have hdeep : readGlob before [] (last :: earlier) none ('*' :: '*' :: deepSuffix) = _ :=
        readGlob_doubleStar (.inr rfl) (hplain deepSuffix)
      rw [hplain]
      refine ⟨_, hdeep.trans readGlob_deepSuffix_nil, .more fun hall => ?_⟩
      have hlength := congrArg List.length hall
      simp at hlength

/-- **A readable pattern stays readable with everything below.** -/
theorem readGlob_deepSuffix {t : Text} (hr : Reading before groups current mode)
    (h : readGlob before groups current mode t = .ok tokens) :
    Deepens before groups current mode t tokens := by
  fun_induction readGlob before groups current mode t with
  | case1 => exact nomatch h
  | case2 before groups current k c r hc ih =>
    refine (ih (hr.push nofun) h).step [] ?_
    rw [List.nil_append, readGlob, if_pos hc]
  | case3 => exact nomatch h
  | case4 before groups current k c r hc k' hk ih =>
    refine (ih (hr.inClass k') h).step [] ?_
    rw [List.nil_append, readGlob, if_neg hc, hk]
  | case5 before groups current hempty =>
    obtain rfl := List.isEmpty_iff.mp hempty
    obtain rfl := Except.ok.inj h
    refine ⟨_, readGlob_deepSuffix_nil, .more fun hall => ?_⟩
    exact hr.slash rfl rfl (by rw [← List.reverse_reverse current, hall]; rfl)
  | case6 => exact nomatch h
  | case7 before groups current tokens' c r hstar ih =>
    rw [hstar] at h
    obtain rfl := Option.some.inj ((of_doubleStar hstar).1 rfl)
    have hreading : Reading (some '/') groups tokens' none :=
      ⟨onlyAtStart_doubleStar hr.start hstar, hr.outer, fun _ _ _ => rfl⟩
    refine (ih hreading h).step ['*', '*'] (readGlob_swallow ?_)
    rw [doubleStar_cons _ _ _ r, hstar]
  | case8 before groups current tokens' swallow r hswallow hstar ih =>
    cases r with
    | nil =>
      have h : readGlob (some '*') groups tokens' none [] = .ok tokens := by
        rw [hstar] at h
        cases swallow <;> exact h
      cases groups with
      | nil =>
        obtain rfl := Except.ok.inj h
        exact deepens_doubleStar hr hstar
      | cons g groups => exact nomatch h
    | cons c r =>
      obtain rfl : swallow = false := Bool.eq_false_iff.mpr (hswallow c r rfl)
      rw [hstar] at h
      have hreading : Reading (some '*') groups tokens' none := by
        refine ⟨onlyAtStart_doubleStar hr.start hstar, hr.outer, ?_⟩
        rintro - rfl rfl
        exact nomatch swallows_of_doubleStar hstar
      refine (ih hreading h).step ['*'] (readGlob_doubleStar (.inr rfl) ?_)
      rw [List.cons_append, doubleStar_cons _ _ _ r, hstar]
  | case9 before groups current r ih => exact (ih (hr.inClass _) h).step ['['] rfl
  | case10 before groups current r ih => exact (ih (hr.inClass _) h).step ['['] rfl
  | case11 => exact nomatch h
  | case12 before groups current c r ih => exact (ih (hr.push nofun) h).step ['\\'] rfl
  | case13 before groups current r _ _ _ _ _ ih => exact (ih (hr.push nofun) h).step [] rfl
  | case14 before groups current r hstar _ _ _ _ _ ih =>
    refine (ih (hr.push nofun) h).step [] (readGlob_star fun s hs => ?_)
    cases r with
    | nil => exact nomatch hs
    | cons c r => exact hstar r rfl (by rw [(List.cons.inj hs).1])
  | case15 before groups current r _ hneg hneg' _ _ _ _ ih =>
    refine (ih (hr.inClass _) h).step [] (readGlob_class (fun s hs => ?_) fun s hs => ?_)
    · cases r with
      | nil => exact nomatch hs
      | cons c r => exact hneg r rfl (by rw [(List.cons.inj hs).1])
    · cases r with
      | nil => exact nomatch hs
      | cons c r => exact hneg' r rfl (by rw [(List.cons.inj hs).1])
  | case16 before groups current r _ _ _ _ _ _ _ _ ih => exact (ih (hr.openGroup []) h).step [] rfl
  | case17 => exact nomatch h
  | case18 before current r g groups _ _ _ _ _ _ _ _ _ ih =>
    exact (ih (hr.closeGroup _) h).step [] rfl
  | case19 before current r _ _ _ _ _ _ _ _ _ _ ih => exact (ih (hr.push nofun) h).step [] rfl
  | case20 before current r g groups _ _ _ _ _ _ _ _ _ _ ih =>
    exact (ih (hr.nextBranch _) h).step [] rfl
  | case21 before groups current c r _ _ _ hend hescape hany hstar hclass hopen hclose hcomma ih =>
    refine (ih (hr.push nofun) h).step [] (readGlob_literal fun hc => ?_)
    simp only [List.mem_cons, List.not_mem_nil, or_false, hany, hstar, hclass, hopen, hclose,
      hcomma] at hc
    cases r with
    | nil => exact hend hc rfl
    | cons d r => exact hescape d r hc rfl

end SiteBundle
