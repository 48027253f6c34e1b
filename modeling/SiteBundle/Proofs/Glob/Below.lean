import SiteBundle.Glob.Filter
import SiteBundle.Proofs.Glob.Deepened
import SiteBundle.Proofs.Glob.Longer

/-!
# What is below a matched path

A list of patterns that matches a folder matches everything below it (`PathFilter.accepts_below`): of
every pattern that it holds, it also holds the pattern with everything below (`deep_mem_widened`), and
that one matches what is below a path that either of the two matches (`Glob.accepts_below`).

The patterns with everything below never ask for a file name.
-/

namespace SiteBundle

open Text

/-! ## shapes -/

theorem mem_dropDeepStart {tokens : List GlobToken} {t : GlobToken} (h : t ∈ tokens)
    (ht : t ≠ .deepStart) : t ∈ dropDeepStart tokens := by
  unfold dropDeepStart
  split
  · exact (List.mem_cons.mp h).resolve_left ht
  · exact h

theorem not_all_of_deepEnd {tokens : List GlobToken} (h : .deepEnd ∈ tokens) (p : Char → Bool) :
    tokens.all (·.isLiteral p) = false := by
  rw [List.all_eq_false]
  exact ⟨.deepEnd, h, Bool.false_ne_true⟩

theorem saysFileName_of_deepEnd {tokens : List GlobToken} (h : .deepEnd ∈ tokens) :
    saysFileName tokens = false := by
  unfold saysFileName
  split
  · rename_i r
    rw [not_all_of_deepEnd ((List.mem_cons.mp h).resolve_left nofun), Bool.and_false]
  · rfl

theorem saysExtension_of_deepEnd {tokens : List GlobToken} (h : .deepEnd ∈ tokens) :
    saysExtension tokens = false := by
  have hmem := mem_dropDeepStart h nofun
  unfold saysExtension
  split
  · rename_i r hr
    rw [hr] at hmem
    have hstar := (List.mem_cons.mp hmem).resolve_left nofun
    exact not_all_of_deepEnd ((List.mem_cons.mp hstar).resolve_left nofun) _
  · rfl

/-- tokens with everything below at their end ask for no file name -/
theorem asksForName_deepEnd (front : List GlobToken) :
    (GlobShape.ofTokens (front ++ [.deepEnd])).asksForName = false := by
  have hmem : GlobToken.deepEnd ∈ front ++ [.deepEnd] := by simp
  have hends : endsInExtension (front ++ [GlobToken.deepEnd]).reverse = false := by
    rw [List.reverse_append]
    rfl
  unfold GlobShape.ofTokens
  rw [saysFileName_of_deepEnd hmem, saysExtension_of_deepEnd hmem, hends]
  repeat' split
  all_goals first | rfl | contradiction

/-! ## patterns -/

theorem Glob.accepts_deepEnd (front : List GlobToken) (path : Text) :
    (⟨front ++ [.deepEnd]⟩ : Glob).accepts path =
      acceptsTokens (front ++ [.deepEnd]) List.isEmpty (Utf8.bytes path) := by
  have hne : front ++ [GlobToken.deepEnd] ≠ [.deepStart] := by
    intro h
    have hmem : GlobToken.deepEnd ∈ [GlobToken.deepStart] := h ▸ by simp
    exact nomatch List.mem_singleton.mp hmem
  have hname : (⟨front ++ [.deepEnd]⟩ : Glob).shape.asksForName = false := asksForName_deepEnd front
  rw [Glob.accepts, hname, Glob.describes_eq hne]
  exact Bool.and_true _

theorem Utf8.bytes_below (path rest : Text) :
    Utf8.bytes (path ++ '/' :: rest) = Utf8.bytes path ++ 0x2F :: Utf8.bytes rest := by
  rw [Utf8.bytes_append, ← List.singleton_append, Utf8.bytes_append, Utf8.bytes_slash]
  rfl

/-- the pattern with everything below matches what is below a path that it or the pattern itself
matches -/
theorem Glob.accepts_below {last : Option Char} {tokens deep : List GlobToken}
    (h : Deepened last tokens deep) (hlast : last ≠ some '/') {path : Text}
    (hpath : (⟨tokens⟩ : Glob).accepts path = true ∨ (⟨deep⟩ : Glob).accepts path = true)
    (rest : Text) : (⟨deep⟩ : Glob).accepts (path ++ '/' :: rest) = true := by
  cases h with
  | more hall =>
    rw [Glob.accepts_deepEnd, Utf8.bytes_below]
    rcases hpath with hpath | hpath
    · have hne : tokens ≠ [.deepStart] := fun he => hlast (hall he)
      have hdescribes := (Bool.and_eq_true_iff.mp hpath).1
      rw [Glob.describes_eq hne] at hdescribes
      exact accepts_deepEnd_append hdescribes (Utf8.bytes rest)
    · rw [Glob.accepts_deepEnd] at hpath
      exact accepts_append_of_deepEnd hpath (0x2F :: Utf8.bytes rest)
  | same front hfront =>
    subst hfront
    rw [or_self, Glob.accepts_deepEnd] at hpath
    rw [Glob.accepts_deepEnd, Utf8.bytes_below]
    exact accepts_append_of_deepEnd hpath (0x2F :: Utf8.bytes rest)
  | all => rfl

/-! ## lists of patterns -/

theorem getLast?_trimSlashes (t : Text) : (trimSlashes t).getLast? ≠ some '/' := by
  intro h
  unfold trimSlashes trimEndBy at h
  rw [List.getLast?_reverse] at h
  have hnot := List.head?_dropWhile_not (· == '/') (t.dropWhile (· == '/')).reverse
  rw [h] at hnot
  exact nomatch hnot

/-- a list holds its patterns with everything below -/
theorem deep_mem_widened {pattern w : Text} (h : w ∈ widened pattern) :
    ∃ q, q.getLast? ≠ some '/' ∧ q ∈ widened pattern ∧ q ++ deepSuffix ∈ widened pattern ∧
      (w = q ∨ w = q ++ deepSuffix) := by
  unfold widened at h ⊢
  dsimp only at h ⊢
  have hcore := getLast?_trimSlashes (dropDotSlash (trim pattern))
  generalize trimSlashes (dropDotSlash (trim pattern)) = core at h hcore ⊢
  have hdeep : "/**".toList = deepSuffix := rfl
  rw [hdeep] at h ⊢
  split at h
  · exact absurd h List.not_mem_nil
  · rename_i hempty
    rw [if_neg hempty]
    split at h
    · rename_i hslash
      rw [if_pos hslash]
      refine ⟨core, hcore, by simp, by simp, ?_⟩
      simpa using h
    · rename_i hslash
      rw [if_neg hslash]
      have hany : ("**/".toList ++ core).getLast? ≠ some '/' := by
        cases hlast : core.getLast? with
        | none => exact absurd (List.isEmpty_iff.mpr (List.getLast?_eq_none_iff.mp hlast)) hempty
        | some c =>
          rw [List.getLast?_append, hlast]
          exact fun hc => hcore (hlast.trans hc)
      simp only [List.mem_cons, List.not_mem_nil, or_false] at h
      rcases h with h | h | h | h
      · exact ⟨core, hcore, by simp, by simp, .inl h⟩
      · exact ⟨core, hcore, by simp, by simp, .inr h⟩
      · exact ⟨_, hany, by simp, by simp, .inl h⟩
      · exact ⟨_, hany, by simp, by simp, .inr h⟩

/-- what a list of results that are all there is made of -/
theorem map_eq_of_mapM {α β ε : Type} {f : α → Except ε β} {l : List α} {bs : List β}
    (h : l.mapM f = .ok bs) : l.map f = bs.map .ok := by
  induction l generalizing bs with
  | nil =>
    rw [List.mapM_nil] at h
    obtain rfl := Except.ok.inj h
    rfl
  | cons a l ih =>
    rw [List.mapM_cons] at h
    cases ha : f a with
    | error e =>
      rw [ha] at h
      exact nomatch h
    | ok b =>
      rw [ha] at h
      cases hl : l.mapM f with
      | error e =>
        rw [hl] at h
        exact nomatch h
      | ok cs =>
        rw [hl] at h
        obtain rfl := Except.ok.inj h
        rw [List.map_cons, List.map_cons, ha, ih hl]

/-- the globs of a pattern and the patterns that it stands for -/
theorem of_mapM {ε α β : Type} {f : α → Except ε β} {R : α → β → Prop} {l : List α} {l' : List β}
    (h : l.mapM f = .ok l') (hR : ∀ a b, f a = .ok b → R a b) :
    (∀ b ∈ l', ∃ a ∈ l, R a b) ∧ ∀ a ∈ l, ∃ b ∈ l', R a b := by
  have hmap := map_eq_of_mapM h
  refine ⟨fun b hb => ?_, fun a ha => ?_⟩
  · obtain ⟨a, ha, hab⟩ := List.mem_map.mp (hmap ▸ List.mem_map_of_mem hb)
    exact ⟨a, ha, hR a b hab⟩
  · obtain ⟨b, hb, hab⟩ := List.mem_map.mp (hmap ▸ List.mem_map_of_mem ha)
    exact ⟨b, hb, hR a b hab.symm⟩

theorem of_readWidened {pattern : Text} {globs : List Glob} (h : readWidened pattern = .ok globs) :
    (∀ g ∈ globs, ∃ w ∈ widened pattern, globTokens w = .ok g.tokens) ∧
      ∀ w ∈ widened pattern, ∃ g ∈ globs, globTokens w = .ok g.tokens := by
  unfold readWidened at h
  refine of_mapM h fun w g hg => ?_
  split at hg
  · rename_i tokens hw
    obtain rfl := Except.ok.inj hg
    exact hw
  · cases hg

theorem exists_of_read {patterns : List Text} {f : PathFilter}
    (h : PathFilter.read patterns = .ok f) : ∃ lists : List (List Glob),
      patterns.map readWidened = lists.map .ok ∧ f = ⟨lists.flatten⟩ := by
  unfold PathFilter.read at h
  cases hread : patterns.mapM readWidened with
  | error e =>
    rw [hread] at h
    cases h
  | ok lists =>
    refine ⟨lists, map_eq_of_mapM hread, ?_⟩
    rw [hread] at h
    dsimp only [Bind.bind, Except.bind] at h
    split at h
    · cases h
    · exact (Except.ok.inj h).symm

/-- **A list that matches a folder matches everything below.** -/
theorem PathFilter.accepts_below {patterns : List Text} {f : PathFilter}
    (h : PathFilter.read patterns = .ok f) {path : Text} (hpath : f.accepts path = true)
    (rest : Text) : f.accepts (path ++ '/' :: rest) = true := by
  obtain ⟨lists, hlists, rfl⟩ := exists_of_read h
  obtain ⟨g, hg, haccepts⟩ := List.any_eq_true.mp hpath
  obtain ⟨globs, hglobs, hgmem⟩ := List.mem_flatten.mp hg
  obtain ⟨pattern, -, hread⟩ := List.mem_map.mp (hlists ▸ List.mem_map_of_mem hglobs)
  obtain ⟨hofGlob, hofPattern⟩ := of_readWidened hread
  obtain ⟨w, hw, htokens⟩ := hofGlob g hgmem
  obtain ⟨q, hlast, hq, hdeep, hwq⟩ := deep_mem_widened hw
  obtain ⟨own, -, hown⟩ := hofPattern q hq
  obtain ⟨below, hbelow, hbelowTokens⟩ := hofPattern _ hdeep
  obtain ⟨deep, hdeepTokens, hdeepened⟩ := readGlob_deepSuffix .nil hown
  obtain rfl := Except.ok.inj (hbelowTokens.symm.trans hdeepTokens)
  have hmatched : own.accepts path = true ∨ below.accepts path = true := by
    have hsame : ∀ {b : Glob}, globTokens w = .ok b.tokens → b = g := fun hb =>
      congrArg Glob.mk (Except.ok.inj (hb.symm.trans htokens))
    rcases hwq with rfl | rfl
    · exact .inl (hsame hown ▸ haccepts)
    · exact .inr (hsame hbelowTokens ▸ haccepts)
  have hlastBehind : lastBehind none q ≠ some '/' := by
    rw [lastBehind, Option.or_none]
    exact hlast
  exact List.any_eq_true.mpr ⟨below, List.mem_flatten.mpr ⟨globs, hglobs, hbelow⟩,
    Glob.accepts_below hdeepened hlastBehind hmatched rest⟩

end SiteBundle
