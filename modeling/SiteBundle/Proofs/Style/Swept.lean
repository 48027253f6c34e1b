import SiteBundle.Proofs.Style.Outline
import SiteBundle.Proofs.Style.Semicolons

/-!
# Clean-ups of semicolons and strings

The clean-ups of semicolons know nothing of strings: what they take consists of semicolons, white space
and braces, wherever it stands (`Sweeps`).  Since none of these opens or closes a string or a comment,
closed ones stay closed, and each string becomes what the clean-up makes of the string alone
(`outline_replace`).  So the strings are kept exactly if none of them has an idle semicolon
(`styleStrings_tidySemicolons_eq_iff`).
-/

namespace SiteBundle

open Text

variable {p : Text → Option (Text × Text)} {c quote : Char} {m t u new rest : Text} {l : List Text}
  {o : Option Unclosed}

/-! ## sweeping -/

/-- a character that a clean-up of semicolons may take -/
def isSwept (c : Char) : Bool := c == ';' || c == '\x7d' || isBlank c

/-- a pattern that takes semicolons and what stands between them, and leaves one sign -/
structure Sweeps (p : Text → Option (Text × Text)) : Prop where
  shrinks : Shrinks p
  other : ∀ c t, c ≠ ';' → p (c :: t) = none
  found : ∀ {t new rest}, p t = some (new, rest) → ∃ m d, t = m ++ rest ∧
    (∀ c ∈ m, isSwept c = true) ∧ new = [d] ∧ (d = ';' ∨ d = '\x7d')
  /-- nothing behind another character matters -/
  behind : ∀ t c u, isSwept c = false →
    p (t ++ c :: u) = (p t).map fun found => (found.1, found.2 ++ c :: u)

theorem isSwept_eq_false_iff :
    isSwept c = false ↔ c ≠ ';' ∧ c ≠ '\x7d' ∧ isBlank c = false := by
  simp [isSwept, and_assoc]

/-- what is swept opens and closes nothing -/
theorem isSwept_quote (h : quote = '"' ∨ quote = '\'') : isSwept quote = false := by
  rcases h with rfl | rfl <;> rfl

theorem behindSemicolons?_append (t : Text) (hc : isSwept c = false) (u : Text) :
    behindSemicolons? (t ++ c :: u) = (behindSemicolons? t).map (· ++ c :: u) := by
  obtain ⟨hsemicolon, -, hblank⟩ := isSwept_eq_false_iff.mp hc
  induction t with
  | nil =>
    refine behindSemicolons?_eq_none_iff.mpr fun hfirst => ?_
    rw [List.nil_append, firstSign_sign hblank] at hfirst
    exact hsemicolon (Option.some.inj hfirst)
  | cons d t ih =>
    rw [List.cons_append, behindSemicolons?, behindSemicolons?, ih]
    by_cases hd : d = ';'
    · rw [if_pos hd, if_pos hd]
      cases behindSemicolons? t <;> rfl
    · rw [if_neg hd, if_neg hd]
      by_cases hblank : isBlank d = true
      · rw [if_pos hblank, if_pos hblank]
      · rw [if_neg hblank, if_neg hblank]
        rfl

theorem sweeps_repeatedSemicolons? : Sweeps repeatedSemicolons? where
  shrinks := shrinks_repeatedSemicolons?
  other := repeatedSemicolons?_other
  found := by
    intro t new rest h
    obtain ⟨rfl, m, rfl, -, hm, -⟩ := of_repeatedSemicolons? h
    refine ⟨';' :: m, ';', rfl, List.forall_mem_cons.mpr ⟨rfl, fun c hc => ?_⟩, rfl, .inl rfl⟩
    rcases hm c hc with rfl | hblank
    · rfl
    · simp [isSwept, hblank]
  behind := by
    intro t c u hc
    obtain ⟨hsemicolon, -, -⟩ := isSwept_eq_false_iff.mp hc
    cases t with
    | nil => exact repeatedSemicolons?_other c u hsemicolon
    | cons d t =>
      by_cases hd : d = ';'
      · rw [hd, List.cons_append, repeatedSemicolons?, repeatedSemicolons?,
          behindSemicolons?_append t hc u, Option.map_map, Option.map_map]
        rfl
      · rw [List.cons_append, repeatedSemicolons?_other d _ hd, repeatedSemicolons?_other d _ hd]
        rfl

theorem dropWhile_append_neg {q : Char → Bool} (hc : q c = false) (t u : Text) :
    (t ++ c :: u).dropWhile q = t.dropWhile q ++ c :: u := by
  have hstop : (c :: u).dropWhile q = c :: u := List.dropWhile_cons_of_neg (Bool.eq_false_iff.mp hc)
  rw [List.dropWhile_append, hstop]
  split
  · rename_i hempty
    rw [List.isEmpty_iff.mp hempty]
    rfl
  · rfl

theorem sweeps_trailingSemicolons? : Sweeps trailingSemicolons? where
  shrinks := shrinks_trailingSemicolons?
  other := trailingSemicolons?_other
  found := by
    intro t new rest h
    obtain ⟨rfl, m, rfl, hm⟩ := of_trailingSemicolons? h
    refine ⟨';' :: (m ++ ['\x7d']), '\x7d', by simp, List.forall_mem_cons.mpr ⟨rfl, fun c hc => ?_⟩,
      rfl, .inr rfl⟩
    rcases List.mem_append.mp hc with hc | hc
    · rcases hm c hc with rfl | hblank
      · rfl
      · simp [isSwept, hblank]
    · rw [List.mem_singleton.mp hc]
      rfl
  behind := by
    intro t c u hc
    obtain ⟨hsemicolon, hbrace, hblank⟩ := isSwept_eq_false_iff.mp hc
    cases t with
    | nil => exact trailingSemicolons?_other c u hsemicolon
    | cons d t =>
      by_cases hd : d = ';'
      · rw [hd, List.cons_append, trailingSemicolons?, trailingSemicolons?,
          dropWhile_append_neg (by simpa using hsemicolon), dropWhile_append_neg hblank]
        generalize (t.dropWhile (· == ';')).dropWhile isBlank = back
        cases back with
        | nil =>
          rw [List.nil_append]
          split
          · rename_i heq
            exact absurd (List.cons.inj heq).1 hbrace
          · rfl
        | cons e back =>
          rw [List.cons_append]
          by_cases he : e = '\x7d'
          · rw [he]
            rfl
          · split
            · rename_i heq
              exact absurd (List.cons.inj heq).1 he
            · split
              · rename_i heq
                exact absurd (List.cons.inj heq).1 he
              · rfl
      · rw [List.cons_append, trailingSemicolons?_other d _ hd, trailingSemicolons?_other d _ hd]
        rfl

/-! ## what is swept within strings and comments -/

section
variable (hp : Sweeps p)
include hp

/-- a sweep does not reach over another character -/
theorem Sweeps.replace_append (t : Text) (hc : isSwept c = false) (u : Text) :
    replace (fun _ => p) (t ++ c :: u) = replace (fun _ => p) t ++ c :: replace (fun _ => p) u := by
  have hother : p (c :: u) = none := hp.other c u (isSwept_eq_false_iff.mp hc).1
  refine replace_induction hp.shrinks
    (motive := fun t v => replace (fun _ => p) (t ++ c :: u) = v ++ c :: replace (fun _ => p) u)
    ?_ ?_ ?_ t
  · exact replace_cons hother
  · intro d t hd ih
    have hread := hp.behind (d :: t) c u hc
    rw [hd] at hread
    exact (replace_cons hread).trans (congrArg (d :: ·) ih)
  · intro m new t hread hlt ih
    have hm : m ≠ [] := List.ne_nil_of_length_pos (Nat.zero_lt_of_lt hlt)
    have hread' := hp.behind (m ++ t) c u hc
    rw [hread, List.append_assoc] at hread'
    rw [List.append_assoc, replace_found hm hread', ih, List.append_assoc]

theorem Sweeps.replace_cons (hc : isSwept c = false) (t : Text) :
    replace (fun _ => p) (c :: t) = c :: replace (fun _ => p) t :=
  hp.replace_append [] hc t

/-- a sweep leaves one sign -/
theorem Sweeps.replace_found (h : p t = some (new, rest)) : ∃ c m d, t = c :: (m ++ rest) ∧
    (∀ c ∈ m, isSwept c = true) ∧ (d = ';' ∨ d = '\x7d') ∧
    replace (fun _ => p) t = d :: replace (fun _ => p) rest := by
  obtain ⟨m, d, rfl, hm, rfl, hd⟩ := hp.found h
  cases m with
  | nil =>
    obtain ⟨m, hm, hlt⟩ := hp.shrinks _ _ _ h
    obtain rfl : m = [] := List.append_left_eq_self.mp hm.symm
    exact absurd hlt (Nat.not_lt_zero _)
  | cons c m =>
    exact ⟨c, m, d, rfl, fun e he => hm e (List.mem_cons_of_mem _ he), hd,
      SiteBundle.replace_found (List.cons_ne_nil c m) h⟩

omit hp in
theorem stringRest_of_swept (hm : ∀ c ∈ m, isSwept c = true)
    (hquote : quote = '"' ∨ quote = '\'') (h : StringRest quote (m ++ rest)) :
    StringRest quote rest := by
  induction m with
  | nil => exact h
  | cons c m ih =>
    obtain ⟨hc, hm⟩ := List.forall_mem_cons.mp hm
    rw [List.cons_append] at h
    generalize hv : m ++ rest = v at h ih
    cases h with
    | close => exact nomatch (isSwept_quote hquote).symm.trans hc
    | escape => exact nomatch hc
    | plain _ _ _ h => exact ih hm h

/-- the rest of a string stays one -/
theorem Sweeps.stringRest (hquote : quote = '"' ∨ quote = '\'') (h : StringRest quote m) :
    StringRest quote (replace (fun _ => p) m) := by
  have hsign : ∀ {d : Char}, d = ';' ∨ d = '\x7d' → d ≠ '\\' ∧ d ≠ '\n' ∧ d ≠ quote := by
    rintro d (rfl | rfl) <;> rcases hquote with rfl | rfl <;> decide
  induction hn : m.length using Nat.strongRecOn generalizing m with
  | _ n ih =>
    -- what follows is shorter, swept or not
    have hnext : ∀ {c : Char} {m' : Text}, StringRest quote m' → m'.length < n →
        ∃ d r, replace (fun _ => p) (c :: m') = d :: r ∧ (d = c ∨ d = ';' ∨ d = '\x7d') ∧
          StringRest quote r := by
      intro c m' hm' hlt
      cases hread : p (c :: m') with
      | none => exact ⟨c, _, SiteBundle.replace_cons hread, .inl rfl, ih _ hlt hm' rfl⟩
      | some found =>
        obtain ⟨e, w, d, heq, hw, hd, hreplace⟩ := hp.replace_found hread
        obtain ⟨rfl, rfl⟩ := List.cons.inj heq
        rw [List.length_append] at hlt
        exact ⟨d, _, hreplace, .inr hd,
          ih _ (by omega) (stringRest_of_swept hw hquote hm') rfl⟩
    cases h with
    | close =>
      rw [hp.replace_cons (isSwept_quote hquote)]
      exact .close
    | @escape m c h =>
      have hlt : m.length < n := by
        rw [← hn]
        simp only [List.length_cons]
        omega
      obtain ⟨d, r, hr, -, hrest⟩ := hnext (c := c) h hlt
      rw [hp.replace_cons rfl, hr]
      exact .escape d hrest
    | @plain c m hescape hline hne h =>
      obtain ⟨d, r, hr, hd, hrest⟩ := hnext (c := c) h (by rw [← hn]; simp)
      rw [hr]
      rcases hd with rfl | hd
      · exact .plain hescape hline hne hrest
      · obtain ⟨hescape, hline, hne⟩ := hsign hd
        exact .plain hescape hline hne hrest

/-- a sweep puts no other character at the front -/
theorem Sweeps.head?_replace (hc : isSwept c = false)
    (h : (replace (fun _ => p) t).head? = some c) : t.head? = some c := by
  cases t with
  | nil => exact h
  | cons d t =>
    cases hread : p (d :: t) with
    | none =>
      rw [SiteBundle.replace_cons hread] at h
      exact h
    | some found =>
      obtain ⟨_, _, e, -, -, he, hreplace⟩ := hp.replace_found hread
      rw [hreplace] at h
      obtain rfl := Option.some.inj h
      rcases he with rfl | rfl <;> exact nomatch hc

/-- a sweep closes no comment -/
theorem Sweeps.not_infix (h : ¬ ['*', '/'] <:+: t) : ¬ ['*', '/'] <:+: replace (fun _ => p) t := by
  refine replace_induction hp.shrinks (motive := fun t u => ¬ ['*', '/'] <:+: t → ¬ ['*', '/'] <:+: u)
    ?_ ?_ ?_ t h
  · exact id
  · intro c t _ ih h hcloses
    rcases List.infix_cons_iff.mp hcloses with hfront | hbehind
    · obtain ⟨back, hback⟩ := hfront
      obtain ⟨rfl, hrest⟩ := List.cons.inj hback
      have hhead : t.head? = some '/' := hp.head?_replace rfl (by rw [← hrest]; rfl)
      obtain ⟨r, rfl⟩ := List.head?_eq_some_iff.mp hhead
      exact h ⟨[], r, rfl⟩
    · exact ih (fun hin => h (List.infix_cons hin)) hbehind
  · intro m new t hread _ ih h hcloses
    obtain ⟨_, d, _, _, rfl, hd⟩ := hp.found hread
    rcases List.infix_cons_iff.mp hcloses with hfront | hbehind
    · obtain ⟨back, hback⟩ := hfront
      obtain rfl : '*' = d := (List.cons.inj hback).1
      exact absurd hd (by decide)
    · exact ih (fun hin => h (hin.trans (List.suffix_append m t).isInfix)) hbehind

theorem Sweeps.commentRest (h : CommentRest m) (u : Text) :
    CommentRest (replace (fun _ => p) m) ∧
      replace (fun _ => p) (m ++ u) = replace (fun _ => p) m ++ replace (fun _ => p) u := by
  obtain ⟨inside, rfl, hno⟩ := h
  have hmark : ∀ u, replace (fun _ => p) (inside ++ ['*', '/'] ++ u) =
      replace (fun _ => p) inside ++ '*' :: '/' :: replace (fun _ => p) u := fun u => by
    rw [List.append_assoc, ← hp.replace_cons (c := '/') rfl, ← hp.replace_append inside rfl]
    rfl
  have hinside : replace (fun _ => p) (inside ++ ['*']) = replace (fun _ => p) inside ++ ['*'] :=
    hp.replace_append inside rfl []
  have hrest := hmark []
  rw [List.append_nil] at hrest
  rw [hmark, hrest]
  refine ⟨⟨_, rfl, ?_⟩, by simp [replace_nil]⟩
  rw [← hinside]
  exact hp.not_infix hno

/-! ## what is swept in a stylesheet -/

omit hp in
theorem outline_of_swept (hm : ∀ c ∈ m, isSwept c = true) (h : Outline (m ++ t) l o) :
    Outline t l o := by
  induction m with
  | nil => exact h
  | cons c m ih =>
    obtain ⟨hc, hm⟩ := List.forall_mem_cons.mp hm
    rw [List.cons_append] at h
    generalize hv : c :: (m ++ t) = v at h
    have hquote : ∀ {quote : Char}, quote = '"' ∨ quote = '\'' → quote ≠ c := by
      rintro quote hquote rfl
      exact nomatch (isSwept_quote hquote).symm.trans hc
    have hslash : '/' ≠ c := by
      rintro rfl
      exact nomatch hc
    cases h with
    | done => exact nomatch hv
    | char _ _ h =>
      obtain ⟨rfl, rfl⟩ := List.cons.inj hv
      exact ih hm h
    | comment _ _ => exact absurd (List.cons.inj hv).1.symm hslash
    | string hq _ _ => exact absurd (List.cons.inj hv).1.symm (hquote hq)
    | openComment _ => exact absurd (List.cons.inj hv).1.symm hslash
    | openString hq _ => exact absurd (List.cons.inj hv).1.symm (hquote hq)

/-- **A sweep goes through the strings of a stylesheet as through the rest.** -/
theorem Sweeps.outline (h : Outline t l none) :
    Outline (replace (fun _ => p) t) (l.map (replace fun _ => p)) none := by
  induction hn : t.length using Nat.strongRecOn generalizing t l with
  | _ n ih =>
    generalize ho : (none : Option Unclosed) = o at h
    cases h with
    | done => exact .done
    | @char c t _ _ hquote hslash h =>
      subst ho
      cases hread : p (c :: t) with
      | none =>
        rw [SiteBundle.replace_cons hread]
        refine .char hquote ?_ (ih t.length (by rw [← hn]; simp) h rfl)
        exact fun hc hhead => hslash hc (hp.head?_replace rfl hhead)
      | some found =>
        obtain ⟨e, w, d, heq, hw, hd, hreplace⟩ := hp.replace_found hread
        obtain ⟨rfl, rfl⟩ := List.cons.inj heq
        have hlt : found.2.length < n := by
          rw [← hn]
          simp only [List.length_append, List.length_cons]
          omega
        have hrest := ih found.2.length hlt (outline_of_swept hw h) rfl
        rw [hreplace]
        rcases hd with rfl | rfl
        · exact .char (by decide) nofun hrest
        · exact .char (by decide) nofun hrest
    | @comment m t _ _ hm h =>
      subst ho
      obtain ⟨hrest, hsplit⟩ := hp.commentRest hm t
      rw [hp.replace_cons rfl, hp.replace_cons rfl, hsplit]
      have hlt : t.length < n := by
        rw [← hn]
        simp only [List.length_append, List.length_cons]
        omega
      exact .comment hrest (ih t.length hlt h rfl)
    | @string quote m t _ _ hquote hm h =>
      subst ho
      have hq := isSwept_quote hquote
      obtain ⟨inside, rfl⟩ := hm.ends
      have hrest := hp.stringRest hquote hm
      have hlt : t.length < n := by
        rw [← hn]
        simp only [List.length_append, List.length_cons]
        omega
      have hstring := Outline.string hquote hrest (ih t.length hlt h rfl)
      have hbehind : replace (fun _ => p) (inside ++ [quote] ++ t) =
          replace (fun _ => p) (inside ++ [quote]) ++ replace (fun _ => p) t := by
        rw [List.append_assoc, List.singleton_append, hp.replace_append inside hq t,
          hp.replace_append inside hq [], replace_nil, List.append_assoc]
        rfl
      rw [List.map_cons, hp.replace_cons hq, hp.replace_cons hq, hbehind]
      exact hstring
    | openComment _ => exact nomatch ho
    | openString _ _ => exact nomatch ho

end

/-- **The clean-ups of semicolons go through each string.** -/
theorem styleStrings_tidySemicolons (h : openAt t = none) :
    styleStrings (tidySemicolons t) = (styleStrings t).map tidySemicolons ∧
      openAt (tidySemicolons t) = none := by
  have hrepeated := sweeps_repeatedSemicolons?.outline (outline_iff.mpr ⟨rfl, h.symm⟩)
  have htrailing := sweeps_trailingSemicolons?.outline hrepeated
  rw [List.map_map] at htrailing
  obtain ⟨hstrings, hopen⟩ := outline_iff.mp htrailing
  exact ⟨hstrings.symm, hopen.symm⟩

/-- the strings are kept if none of them has an idle semicolon, and only then -/
theorem styleStrings_tidySemicolons_eq_iff (h : openAt t = none) :
    styleStrings (tidySemicolons t) = styleStrings t ↔ ∀ l ∈ styleStrings t, NoIdle l := by
  have hself : ∀ l, tidySemicolons l = l ↔ NoIdle l := by
    intro l
    rcases tidySemicolons_cases l with ⟨hidle, heq⟩ | ⟨hidle, hlt⟩
    · exact ⟨fun _ => hidle, fun _ => heq⟩
    · exact ⟨fun heq => absurd hlt (by rw [heq]; exact Nat.lt_irrefl _), fun h => absurd h hidle⟩
  rw [(styleStrings_tidySemicolons h).1]
  generalize styleStrings t = strings
  induction strings with
  | nil => exact ⟨fun _ _ hl => (nomatch hl), fun _ => rfl⟩
  | cons l strings ih =>
    rw [List.map_cons, List.cons.injEq, List.forall_mem_cons]
    exact and_congr (hself l) ih

end SiteBundle
