import SiteBundle.Proofs.Script.Compact

/-!
# Reading a compact script again

Written one behind the other, the lexemes of a script are read as they were, unless a regular expression
swallows the word behind it: nothing keeps `/a/` and `in` apart, and the letters are read as flags
(`Joint.Swallows`).  Everything else that parts two lexemes is either left, or the next character ends
the first one anyway (`Joint.IsRead.endsBefore`).

* `leftParts`   the parts of the compact script;
* `readsScript_spread`    it is read as these if no word is swallowed;
* `not_swallows_of_read`  and as the same lexemes only then.

Of ASCII characters a vertical tab alone is both a lexeme and white space: at the ends it is trimmed.
-/

namespace SiteBundle

open Text

/-- a word behind a regular expression without flags, with nothing left between them: its letters are
read as flags -/
structure Joint.Swallows (j : Joint Spacing Lexeme) : Prop where
  front : j.front.kind = .regex
  flagless : j.front.last = '/'
  back : j.back.kind = .word
  letter : isLetter j.back.first = true
  apart : j.gaps ≠ []
  glued : scriptSep j = []

/-- what is left of the gap between two neighbours, as white space that can be read -/
def leftGaps (j : Joint Spacing Lexeme) : List Spacing :=
  if j.gaps.any Spacing.holdsLineEnd && !lineEndMayGo j.front.last j.back.first then [.lineEnd]
  else if !j.gaps.isEmpty && needSpace j.front.last j.back.first then [.blank ' ']
  else []

/-- the parts of a row of lexemes written behind the lexeme `last`, if there is one -/
def leftParts : Option Lexeme → List (List Spacing × Lexeme) → List (Spacing ⊕ Lexeme)
  | _, [] => []
  | none, (_, a) :: row => .inr a :: leftParts (some a) row
  | some last, (gaps, a) :: row =>
    (leftGaps ⟨last, gaps, a⟩).map .inl ++ .inr a :: leftParts (some a) row

section
variable {before last : Option Lexeme} {kind : LexemeKind} {c : Char} {t m : Text} {l : Lexeme}
  {gaps : List Spacing} {parts : List (Spacing ⊕ Lexeme)} {j : Joint Spacing Lexeme}
  {row : List (List Spacing × Lexeme)}

theorem leftGaps_cases (j : Joint Spacing Lexeme) :
    leftGaps j = [] ∧ scriptSep j = [] ∨ leftGaps j = [.blank ' '] ∧ scriptSep j = [' '] ∨
      leftGaps j = [.lineEnd] ∧ scriptSep j = ['\n'] := by
  rw [leftGaps, scriptSep]
  split
  · exact .inr (.inr ⟨rfl, rfl⟩)
  · split
    · exact .inr (.inl ⟨rfl, rfl⟩)
    · exact .inl ⟨rfl, rfl⟩

/-- what is left of what is left is the same -/
theorem scriptSep_leftGaps (j : Joint Spacing Lexeme) :
    scriptSep ⟨j.front, leftGaps j, j.back⟩ = scriptSep j := by
  unfold leftGaps
  split
  · rename_i hline
    obtain ⟨-, hstays⟩ := (Bool.and_eq_true _ _).mp hline
    rw [scriptSep, scriptSep, if_pos hline, hstays]
    rfl
  · rename_i hline
    split
    · rename_i hspace
      obtain ⟨-, hneed⟩ := (Bool.and_eq_true _ _).mp hspace
      rw [scriptSep, scriptSep, if_neg hline, if_pos hspace, hneed]
      rfl
    · rename_i hspace
      rw [scriptSep, scriptSep, if_neg hline, if_neg hspace]
      rfl

/-! ## where a lexeme ends -/

/-- white space ends every lexeme -/
theorem endsBefore_blank (l : Lexeme) : l.EndsBefore ' ' ∧ l.EndsBefore '\n' :=
  ⟨⟨fun _ => rfl, fun _ => rfl, fun _ => ⟨by decide, by decide⟩⟩,
    ⟨fun _ => rfl, fun _ => rfl, fun _ => ⟨by decide, by decide⟩⟩⟩

theorem isScriptWord_of_isLetter (h : isLetter c = true) : isScriptWord c = true := by
  rw [isScriptWord, h]
  rfl

/-- a lexeme that begins with a letter is a word -/
theorem SpelledAs.eq_word (h : SpelledAs l.kind l.text) (hletter : isLetter l.first = true) :
    l.kind = .word := by
  have hword := isScriptWord_of_isLetter hletter
  obtain ⟨-, -, hslash, hquote, hmark⟩ := ne_of_isScriptWord hword
  obtain ⟨kind, m⟩ := l
  dsimp only at h
  cases h with
  | word => rfl
  | string h => exact absurd h hquote
  | template => exact absurd rfl hmark
  | regex => exact absurd rfl hslash
  | punctuation _ _ _ _ hno => exact nomatch hno.symm.trans hword

/-- a regular expression ends with its closing slash or a flag -/
theorem RegexRest.ends {inClass : Bool} (h : RegexRest inClass m) : ∃ inside, m = inside ++ ['/'] := by
  induction h with
  | close => exact ⟨[], rfl⟩
  | escape c _ ih =>
    obtain ⟨inside, rfl⟩ := ih
    exact ⟨'\\' :: c :: inside, rfl⟩
  | opens _ ih =>
    obtain ⟨inside, rfl⟩ := ih
    exact ⟨'[' :: inside, rfl⟩
  | shuts _ ih =>
    obtain ⟨inside, rfl⟩ := ih
    exact ⟨']' :: inside, rfl⟩
  | plain _ _ _ _ _ _ ih =>
    obtain ⟨inside, rfl⟩ := ih
    exact ⟨_ :: inside, rfl⟩

theorem Lexeme.last_eq (h : l.text = m ++ [c]) : l.last = c := by
  rw [Lexeme.last, h, List.getLastD_concat]

theorem SpelledAs.regex_ends (h : SpelledAs .regex l.text) :
    l.last = '/' ∨ isLetter l.last = true := by
  generalize htext : l.text = w at h
  cases h with
  | @regex m flags hm hopens hflags =>
    rcases List.eq_nil_or_concat flags with rfl | ⟨flags, c, rfl⟩
    · obtain ⟨inside, rfl⟩ := hm.ends
      rw [List.append_nil, ← List.cons_append] at htext
      exact .inl (Lexeme.last_eq htext)
    · rw [List.concat_eq_append] at htext hflags
      rw [← List.append_assoc, ← List.cons_append] at htext
      rw [Lexeme.last_eq htext]
      exact .inr (hflags c (List.mem_append_right _ (List.mem_singleton_self c)))

/-- **Where neighbours come one behind the other the first one ends, unless the second is swallowed.** -/
theorem Joint.IsRead.endsBefore (h : j.IsRead) (hfront : SpelledAs j.front.kind j.front.text)
    (hno : ¬ j.Swallows) : ∀ c ∈ (scriptSep j ++ j.back.text).head?, j.front.EndsBefore c := by
  intro c hc
  have hblank := endsBefore_blank j.front
  rcases scriptSep_shape j with hsep | hsep | hsep
  · rw [hsep, List.nil_append, Lexeme.head?_eq h.back.ne_nil] at hc
    obtain rfl := Option.some.inj hc
    by_cases hgaps : j.gaps = []
    · exact h.ends hgaps
    · -- they were apart, and nothing was needed to keep them so
      have hneed : needSpace j.front.last j.back.first = false :=
        Bool.eq_false_iff.mpr fun hneed => scriptSep_ne_nil hgaps hneed hsep
      unfold needSpace at hneed
      refine ⟨fun hkind => Bool.eq_false_iff.mpr fun hword => ?_,
        fun hkind => Bool.eq_false_iff.mpr fun hletter => ?_, fun heq => ?_⟩
      · rw [hkind] at hfront
        rw [hfront.isScriptWord_ends.2, hword] at hneed
        exact nomatch hneed
      · have hregex : SpelledAs .regex j.front.text := hkind ▸ hfront
        rcases hregex.regex_ends with hslash | hflag
        · exact hno ⟨hkind, hslash, h.back.eq_word hletter, hletter, hgaps, hsep⟩
        · rw [isScriptWord_of_isLetter hflag, isScriptWord_of_isLetter hletter] at hneed
          exact nomatch hneed
      · have hlast : j.front.last = '/' := by rw [heq]; rfl
        have hclash : ∀ d, ('/', d) ∈ clashes → j.back.first ≠ d := by
          rintro d hd rfl
          exact scriptSep_ne_nil hgaps (hlast ▸ needSpace_of_clash hd) hsep
        exact ⟨hclash _ (by decide), hclash _ (by decide)⟩
  · rw [hsep] at hc
    obtain rfl := Option.some.inj hc
    exact hblank.1
  · rw [hsep] at hc
    obtain rfl := Option.some.inj hc
    exact hblank.2

/-! ## reading it again -/

/-- what is left of a gap is read as it is -/
theorem readsScript_leftGaps (j : Joint Spacing Lexeme) (h : ReadsScript before t parts) :
    ReadsScript before (scriptSep j ++ t) ((leftGaps j).map .inl ++ parts) := by
  rcases leftGaps_cases j with ⟨hleft, hsep⟩ | ⟨hleft, hsep⟩ | ⟨hleft, hsep⟩
  · rw [hleft, hsep]
    exact h
  · rw [hleft, hsep]
    exact .gap (g := .blank ' ') rfl h
  · rw [hleft, hsep]
    exact .gap (g := .lineEnd) trivial h

/-- what is written behind a lexeme begins with what is left of the gap, or the next lexeme -/
theorem head?_spread {a b : Lexeme} (hb : b.text ≠ []) (gaps : List Spacing) (t : Text) :
    (scriptSep ⟨a, gaps, b⟩ ++ (b.text ++ t)).head? = (scriptSep ⟨a, gaps, b⟩ ++ b.text).head? := by
  obtain ⟨c, m, heq⟩ := List.exists_cons_of_ne_nil
    (List.append_ne_nil_of_right_ne_nil (scriptSep ⟨a, gaps, b⟩) hb)
  rw [← List.append_assoc, heq]
  rfl

/-- **Lexemes written one behind the other are read as themselves** when no word is swallowed. -/
theorem readsScript_spread {a : Lexeme} (ha : SpelledAs a.kind a.text) (hfollows : a.MayFollow before)
    (hread : ∀ j ∈ joints (some a) row, j.IsRead) (hno : ∀ j ∈ joints (some a) row, ¬ j.Swallows) :
    ReadsScript before (a.text ++ spread scriptSep Lexeme.text (some a) row)
      (.inr a :: leftParts (some a) row) := by
  induction row generalizing a before with
  | nil => exact .lexeme ha hfollows (fun _ hc => nomatch hc) .done
  | cons run row ih =>
    obtain ⟨gaps, b⟩ := run
    obtain ⟨hfirst, hread⟩ := List.forall_mem_cons.mp hread
    obtain ⟨hstays, hno⟩ := List.forall_mem_cons.mp hno
    refine .lexeme ha hfollows (fun c hc => hfirst.endsBefore ha hstays c ?_)
      (readsScript_leftGaps _ (ih hfirst.back hfirst.follows hread hno))
    rwa [spread, head?_spread hfirst.back.ne_nil] at hc

theorem tokens_leftParts (last : Option Lexeme) (row : List (List Spacing × Lexeme)) :
    tokens (leftParts last row) = row.map (·.2) := by
  induction row generalizing last with
  | nil => cases last <;> rfl
  | cons run row ih =>
    have hgaps : ∀ (left : List Spacing) (parts : List (Spacing ⊕ Lexeme)),
        tokens (left.map .inl ++ parts) = tokens parts := fun left parts => by
      induction left with
      | nil => rfl
      | cons g left ih => exact ih
    cases last with
    | none => exact congrArg (run.2 :: ·) (ih (some run.2))
    | some b => exact (hgaps _ _).trans (congrArg (run.2 :: ·) (ih (some run.2)))

/-- written again, the parts of the compact script give the same text -/
theorem spread_leftParts (last : Option Lexeme) (row : List (List Spacing × Lexeme)) :
    spread scriptSep Lexeme.text last (runs [] (leftParts last row)) =
      spread scriptSep Lexeme.text last row := by
  induction row generalizing last with
  | nil => cases last <;> rfl
  | cons run row ih =>
    obtain ⟨gaps, a⟩ := run
    cases last with
    | none =>
      rw [leftParts, runs, spread, spread, ih]
    | some b =>
      have hruns : ∀ (gaps left : List Spacing) (parts : List (Spacing ⊕ Lexeme)),
          runs gaps (left.map .inl ++ parts) = runs (gaps ++ left) parts := by
        intro gaps left parts
        induction left generalizing gaps with
        | nil => rw [List.append_nil]; rfl
        | cons g left ih => exact (ih _).trans (by rw [List.append_assoc]; rfl)
      rw [leftParts, hruns, List.nil_append, runs, spread, spread, ih,
        scriptSep_leftGaps ⟨b, gaps, a⟩]

/-! ## what is swallowed -/

theorem itemsFrom_ok {r rest : Text} {item : Item} {items : List Item}
    (hat : itemAt before c r = .ok (item, rest)) (h : itemsFrom before 0 (c :: r) = .ok items) :
    ∃ items', itemsFrom (lastLexeme before item) 0 rest = .ok items' ∧ items = item :: items' := by
  rw [itemsFrom_step hat] at h
  cases hrest : itemsFrom (lastLexeme before item) 0 rest with
  | error e =>
    rw [hrest] at h
    exact nomatch h
  | ok items' =>
    rw [hrest] at h
    exact ⟨items', rfl, (Except.ok.inj h).symm⟩

theorem lexemes_of_scriptSep (j : Joint Spacing Lexeme) {items : List Item}
    (h : itemsFrom before 0 (scriptSep j ++ t) = .ok items) :
    ∃ items', itemsFrom before 0 t = .ok items' ∧ lexemes items = lexemes items' := by
  rcases scriptSep_shape j with hsep | hsep | hsep
  · rw [hsep] at h
    exact ⟨items, h, rfl⟩
  · rw [hsep] at h
    have hat : itemAt before ' ' t = .ok (.gap .space, t) := rfl
    obtain ⟨items', hitems, rfl⟩ := itemsFrom_ok hat h
    exact ⟨items', hitems, rfl⟩
  · rw [hsep] at h
    have hat : itemAt before '\n' t = .ok (.gap .newline, t) := rfl
    obtain ⟨items', hitems, rfl⟩ := itemsFrom_ok hat h
    exact ⟨items', hitems, rfl⟩

/-- a regular expression without flags is another one with letters behind it -/
theorem lexemes_of_swallows {a b : Lexeme} (h : Joint.Swallows ⟨a, gaps, b⟩)
    (ha : SpelledAs a.kind a.text) (hfollows : a.MayFollow before) (hb : b.text ≠ [])
    {items : List Item} (hitems : itemsFrom before 0 (a.text ++ (b.text ++ t)) = .ok items) :
    ∀ ls, lexemes items ≠ a :: ls := by
  obtain ⟨kind, text⟩ := a
  obtain rfl : kind = .regex := h.front
  dsimp only at ha hitems
  generalize hflags : (b.text ++ t).takeWhile isLetter = flags
  have hne : flags ≠ [] := by
    have hhead := Lexeme.head?_eq hb
    obtain ⟨m, hm⟩ := List.head?_eq_some_iff.mp hhead
    rw [hm, List.cons_append, List.takeWhile_cons_of_pos h.letter] at hflags
    rw [← hflags]
    exact List.cons_ne_nil _ _
  cases ha with
  | @regex m own hm hopens hown =>
    -- it has no flags of its own
    obtain rfl : own = [] := by
      refine (List.eq_nil_or_concat own).resolve_right ?_
      rintro ⟨own, d, rfl⟩
      rw [List.concat_eq_append] at hown h
      have hd : Lexeme.last ⟨.regex, '/' :: (m ++ (own ++ [d]))⟩ = d :=
        Lexeme.last_eq (m := '/' :: (m ++ own)) (by rw [List.cons_append, List.append_assoc])
      have hletter := hown d (List.mem_append_right _ (List.mem_singleton_self d))
      rw [← hd, h.flagless] at hletter
      exact nomatch hletter
    have hsplit : '/' :: (m ++ []) ++ (b.text ++ t) =
        '/' :: (m ++ flags ++ (b.text ++ t).dropWhile isLetter) := by
      rw [List.append_nil, ← hflags, List.append_assoc, List.takeWhile_append_dropWhile,
        List.cons_append]
    have hspelled : SpelledAs .regex ('/' :: (m ++ flags)) :=
      .regex hm hopens (hflags ▸ List.all_eq_true.mp List.all_takeWhile)
    have hnext : Lexeme.MayFollow before ⟨.regex, '/' :: (m ++ flags)⟩ :=
      ⟨fun _ => hfollows.regex rfl, nofun⟩
    have hends : ∀ c ∈ ((b.text ++ t).dropWhile isLetter).head?,
        Lexeme.EndsBefore c ⟨.regex, '/' :: (m ++ flags)⟩ := fun c hc =>
      ⟨nofun, fun _ => head_dropWhile isLetter _ c hc, nofun⟩
    have hat := itemAt_lexeme hspelled hnext hends rfl
    rw [hsplit] at hitems
    obtain ⟨items', -, rfl⟩ := itemsFrom_ok hat hitems
    intro ls heq
    have htext : m ++ flags = m ++ [] :=
      (List.cons.inj (Lexeme.mk.inj (List.cons.inj heq).1).2).2
    exact hne (List.append_cancel_left htext)

/-- **What is written is read as the lexemes it has only if no word is swallowed.** -/
theorem not_swallows_of_read {a : Lexeme} {items : List Item} (ha : SpelledAs a.kind a.text)
    (hfollows : a.MayFollow before) (hread : ∀ j ∈ joints (some a) row, j.IsRead)
    (h : itemsFrom before 0 (a.text ++ spread scriptSep Lexeme.text (some a) row) = .ok items)
    (hsame : lexemes items = a :: row.map (·.2)) : ∀ j ∈ joints (some a) row, ¬ j.Swallows := by
  induction row generalizing a before items with
  | nil => exact fun _ hj => nomatch hj
  | cons run row ih =>
    obtain ⟨gaps, b⟩ := run
    obtain ⟨hfirst, hread⟩ := List.forall_mem_cons.mp hread
    have hb : b.text ≠ [] := hfirst.back.ne_nil
    rw [spread_some] at h
    have hno : ¬ Joint.Swallows ⟨a, gaps, b⟩ := by
      intro hswallows
      rw [hswallows.glued] at h
      exact lexemes_of_swallows hswallows ha hfollows hb h _ hsame
    refine List.forall_mem_cons.mpr ⟨hno, ?_⟩
    obtain ⟨c, r, htext⟩ := List.exists_cons_of_ne_nil ha.ne_nil
    rw [htext] at h
    have hends : ∀ d ∈ (scriptSep ⟨a, gaps, b⟩ ++
        (b.text ++ spread scriptSep Lexeme.text (some b) row)).head?, a.EndsBefore d := fun d hd =>
      hfirst.endsBefore ha hno d (by rwa [head?_spread hb] at hd)
    have hat := itemAt_lexeme ha hfollows hends htext
    obtain ⟨items, hitems, rfl⟩ := itemsFrom_ok hat h
    obtain ⟨items', hitems', hlexemes⟩ := lexemes_of_scriptSep _ hitems
    have hrest : lexemes items = b :: row.map (·.2) := (List.cons.inj hsame).2
    exact ih hfirst.back hfirst.follows hread hitems' (hlexemes ▸ hrest)

/-! ## the ends -/

/-- whether a lexeme is trimmed at the ends of a script -/
def Lexeme.isWhite (l : Lexeme) : Bool := l.text == ['\x0b']

/-- what ends a nest -/
def Nest.mark : Nest → Char
  | .template => '\x60'
  | .expression => '\x7d'

theorem NestRest.ends {n : Nest} (h : NestRest n m) : ∃ inside, m = inside ++ [n.mark] := by
  induction h with
  | endTemplate => exact ⟨[], rfl⟩
  | escape c _ ih =>
    obtain ⟨inside, rfl⟩ := ih
    exact ⟨'\\' :: c :: inside, rfl⟩
  | @substitution m _ _ _ _ ih =>
    obtain ⟨inside, rfl⟩ := ih
    exact ⟨'$' :: '{' :: (m ++ inside), by rw [List.cons_append, List.cons_append, List.append_assoc]⟩
  | letter _ _ _ _ ih =>
    obtain ⟨inside, rfl⟩ := ih
    exact ⟨_ :: inside, rfl⟩
  | endExpression => exact ⟨[], rfl⟩
  | @braces m _ _ _ _ ih =>
    obtain ⟨inside, rfl⟩ := ih
    exact ⟨'{' :: (m ++ inside), by rw [List.cons_append, List.append_assoc]⟩
  | @string quote m _ _ _ _ ih =>
    obtain ⟨inside, rfl⟩ := ih
    exact ⟨quote :: (m ++ inside), by rw [List.cons_append, List.append_assoc]⟩
  | @template m _ _ _ _ ih =>
    obtain ⟨inside, rfl⟩ := ih
    exact ⟨'\x60' :: (m ++ inside), by rw [List.cons_append, List.append_assoc]⟩
  | plain _ _ _ _ _ ih =>
    obtain ⟨inside, rfl⟩ := ih
    exact ⟨_ :: inside, rfl⟩

/-- the white space in ASCII -/
theorem isBlank_ascii (h : isBlank c = true) (hc : c.toNat < 0x80) :
    c ∈ ['\t', '\n', '\x0b', '\x0c', '\r', ' '] := by
  simp only [isBlank, Bool.or_eq_true, Bool.and_eq_true, decide_eq_true_eq, beq_iff_eq] at h
  have hcode : c.toNat ∈ [0x09, 0x0A, 0x0B, 0x0C, 0x0D, 0x20] := by
    simp only [List.mem_cons, List.not_mem_nil, or_false]
    omega
  have hall : ∀ n ∈ [0x09, 0x0A, 0x0B, 0x0C, 0x0D, 0x20],
      Char.ofNat n ∈ ['\t', '\n', '\x0b', '\x0c', '\r', ' '] := by
    decide
  have hmem := hall _ hcode
  rwa [Char.ofNat_toNat] at hmem

theorem isBlank_of_isScriptWord (h : isScriptWord c = true) (hc : c.toNat < 0x80) :
    isBlank c = false := by
  have hno : ∀ d ∈ ['\t', '\n', '\x0b', '\x0c', '\r', ' '], isScriptWord d = false := by decide
  exact Bool.eq_false_iff.mpr fun hblank => nomatch (hno c (isBlank_ascii hblank hc)).symm.trans h

/-- of the white space in ASCII, only a vertical tab is read as punctuation -/
theorem isBlank_of_punctuation (hgap : isScriptGap c = false) (hline : c ≠ '\n') (htab : c ≠ '\x0b')
    (hc : c.toNat < 0x80) : isBlank c = false := by
  refine Bool.eq_false_iff.mpr fun hblank => ?_
  have hmem := isBlank_ascii hblank hc
  simp only [List.mem_cons, List.not_mem_nil, or_false] at hmem
  rcases hmem with rfl | rfl | rfl | rfl | rfl | rfl
  · exact nomatch hgap
  · exact hline rfl
  · exact htab rfl
  · exact nomatch hgap
  · exact nomatch hgap
  · exact nomatch hgap

/-- a lexeme of ASCII characters is a vertical tab, or neither begins nor ends with white space -/
theorem SpelledAs.trims (h : SpelledAs l.kind l.text) (hascii : ∀ c ∈ l.text, c.toNat < 0x80) :
    Trims Lexeme.isWhite Lexeme.text l := by
  have htight : ∀ {c d : Char}, l.text.head? = some c → l.text.getLast? = some d →
      isBlank c = false → isBlank d = false → Trims Lexeme.isWhite Lexeme.text l := by
    intro c d hhead hlast hc hd
    refine ⟨fun hwhite => ?_, fun _ => ⟨h.ne_nil, fun e he => ?_, fun e he => ?_⟩⟩
    · rw [eq_of_beq hwhite] at hhead
      rw [← Option.some.inj hhead] at hc
      exact nomatch hc
    · rwa [← Option.some.inj (hhead.symm.trans he)]
    · rwa [← Option.some.inj (hlast.symm.trans he)]
  obtain ⟨kind, text⟩ := l
  dsimp only at h hascii htight
  cases h with
  | word hne h =>
    have hblank : ∀ c ∈ text, isBlank c = false := fun c hc =>
      isBlank_of_isScriptWord (h c hc) (hascii c hc)
    obtain ⟨c, m, rfl⟩ := List.exists_cons_of_ne_nil hne
    obtain ⟨m', d, hd⟩ := (List.eq_nil_or_concat (c :: m)).resolve_left hne
    rw [List.concat_eq_append] at hd
    refine htight rfl (by rw [hd, List.getLast?_concat]) (hblank c List.mem_cons_self) (hblank d ?_)
    rw [hd]
    exact List.mem_append_right _ (List.mem_singleton_self d)
  | @string quote m hquote hm =>
    obtain ⟨inside, rfl⟩ := hm.ends
    have hblank : isBlank quote = false := by rcases hquote with rfl | rfl <;> rfl
    exact htight rfl (by rw [← List.cons_append, List.getLast?_concat]) hblank hblank
  | template hm =>
    obtain ⟨inside, rfl⟩ := hm.ends
    exact htight rfl (by rw [← List.cons_append, List.getLast?_concat]) rfl rfl
  | @regex m flags hm hopens hflags =>
    rcases List.eq_nil_or_concat flags with rfl | ⟨flags, d, rfl⟩
    · obtain ⟨inside, rfl⟩ := hm.ends
      exact htight rfl
        (by rw [List.append_nil, ← List.cons_append, List.getLast?_concat]) rfl rfl
    · rw [List.concat_eq_append] at hflags hascii htight ⊢
      have hd : d ∈ flags ++ [d] := List.mem_append_right _ (List.mem_singleton_self d)
      have hblank : isBlank d = false := isBlank_of_isScriptWord
        (isScriptWord_of_isLetter (hflags d hd))
        (hascii d (List.mem_cons_of_mem _ (List.mem_append_right _ hd)))
      exact htight rfl
        (by rw [← List.append_assoc, ← List.cons_append, List.getLast?_concat]) rfl hblank
  | @punctuation c hgap hline =>
    by_cases htab : c = '\x0b'
    · subst htab
      exact ⟨fun _ => List.forall_mem_singleton.mpr rfl, nofun⟩
    · have hblank :=
        isBlank_of_punctuation hgap hline htab (hascii c (List.mem_singleton_self c))
      exact htight rfl rfl hblank hblank

/-- where a vertical tab may stand in front, nothing may -/
theorem mayFollow_none {a : Lexeme} (ha : a.isWhite = true) (h : l.MayFollow (some a)) :
    l.MayFollow none := by
  have hoperand : operandMayFollow (some a) = operandMayFollow none := by
    unfold operandMayFollow
    dsimp only
    rw [eq_of_beq ha]
    rfl
  exact ⟨fun hkind => hoperand ▸ h.regex hkind, fun heq => hoperand ▸ h.slash heq⟩

theorem mayFollow_of_dropWhile (hfirst : ∀ run ∈ row.head?, run.2.MayFollow none)
    (hread : ∀ j ∈ joints none row, j.IsRead) :
    ∀ run ∈ (row.dropWhile fun run => run.2.isWhite).head?, run.2.MayFollow none := by
  induction row with
  | nil => exact hfirst
  | cons run row ih =>
    cases hwhite : run.2.isWhite with
    | true =>
      rw [List.dropWhile_cons_of_pos (p := fun run : List Spacing × Lexeme => run.2.isWhite) hwhite]
      have hread : ∀ j ∈ joints (some run.2) row, j.IsRead := hread
      refine ih (fun next hnext => ?_) fun j hj => hread j (joints_subset_cons run.2 hj)
      obtain ⟨row, rfl⟩ := List.head?_eq_some_iff.mp hnext
      exact mayFollow_none hwhite (hread _ List.mem_cons_self).follows
    | false =>
      rw [List.dropWhile_cons_of_neg (p := fun run : List Spacing × Lexeme => run.2.isWhite)
        (Bool.eq_false_iff.mp hwhite)]
      exact hfirst

theorem mayFollow_of_bare (hfirst : ∀ run ∈ row.head?, run.2.MayFollow none)
    (hread : ∀ j ∈ joints none row, j.IsRead) :
    ∀ run ∈ (bare Lexeme.isWhite row).head?, run.2.MayFollow none := by
  intro run hrun
  refine mayFollow_of_dropWhile hfirst hread run ?_
  obtain ⟨back, hback⟩ : bare Lexeme.isWhite row <+: row.dropWhile fun run => run.2.isWhite := by
    rw [bare, ← List.reverse_suffix, List.reverse_reverse]
    exact List.dropWhile_suffix _
  obtain ⟨front, hfront⟩ := List.head?_eq_some_iff.mp hrun
  rw [← hback, hfront]
  rfl

theorem Joint.Swallows.not_white (h : j.Swallows) :
    j.front.isWhite = false ∧ j.back.isWhite = false := by
  refine ⟨Bool.eq_false_iff.mpr fun hwhite => ?_, Bool.eq_false_iff.mpr fun hwhite => ?_⟩
  · have hslash := h.flagless
    unfold Lexeme.last at hslash
    rw [eq_of_beq hwhite] at hslash
    exact absurd hslash (by decide)
  · have hletter := h.letter
    unfold Lexeme.first at hletter
    rw [eq_of_beq hwhite] at hletter
    exact nomatch hletter

theorem first_of_readsScript (h : ReadsScript before t parts) (gaps : List Spacing) :
    ∀ run ∈ (runs gaps parts).head?, run.2.MayFollow before := by
  induction h generalizing gaps with
  | done => exact fun _ hrun => nomatch hrun
  | gap _ _ ih => exact ih _
  | lexeme _ hfollows =>
    intro run hrun
    rw [← Option.some.inj hrun]
    exact hfollows

theorem subset_of_readsScript (h : ReadsScript before t parts) :
    ∀ l ∈ tokens parts, ∀ c ∈ l.text, c ∈ t := by
  induction h with
  | done => exact fun _ hl => nomatch hl
  | gap _ _ ih => exact fun l hl c hc => List.mem_append_right _ (ih l hl c hc)
  | lexeme _ _ _ _ ih =>
    exact List.forall_mem_cons.mpr ⟨fun c hc => List.mem_append_left _ hc,
      fun l hl c hc => List.mem_append_right _ (ih l hl c hc)⟩

theorem isBlank_of_mem_scriptSep (j : Joint Spacing Lexeme) :
    ∀ c ∈ scriptSep j, isBlank c = true := by
  rcases scriptSep_shape j with hsep | hsep | hsep
  · rw [hsep]
    exact fun _ hc => nomatch hc
  · rw [hsep]
    exact List.forall_mem_singleton.mpr rfl
  · rw [hsep]
    exact List.forall_mem_singleton.mpr rfl

/-- a row written again is read as its lexemes when no word is swallowed -/
theorem readsScript_row (hspelled : ∀ run ∈ row, SpelledAs run.2.kind run.2.text)
    (hfirst : ∀ run ∈ row.head?, run.2.MayFollow none) (hread : ∀ j ∈ joints none row, j.IsRead)
    (hno : ∀ j ∈ joints none row, ¬ j.Swallows) :
    ReadsScript none (spread scriptSep Lexeme.text none row) (leftParts none row) := by
  cases row with
  | nil => exact .done
  | cons run row => exact readsScript_spread (hspelled run List.mem_cons_self) (hfirst run rfl) hread hno

/-- **A row written again is read as the lexemes it has exactly if no word is swallowed.** -/
theorem exists_readScript_iff (hspelled : ∀ run ∈ row, SpelledAs run.2.kind run.2.text)
    (hfirst : ∀ run ∈ row.head?, run.2.MayFollow none) (hread : ∀ j ∈ joints none row, j.IsRead) :
    (∃ items, readScript (spread scriptSep Lexeme.text none row) = .ok items ∧
      lexemes items = row.map (·.2)) ↔ ∀ j ∈ joints none row, ¬ j.Swallows := by
  constructor
  · rintro ⟨items, hitems, hsame⟩
    obtain ⟨parts, hparts, rfl⟩ := readScript_eq_ok_iff.mp hitems
    cases row with
    | nil => exact fun _ hj => nomatch hj
    | cons run row =>
      exact not_swallows_of_read (hspelled run List.mem_cons_self) (hfirst run rfl) hread
        (itemsFrom_of_readsScript hparts) hsame
  · intro hno
    refine ⟨_, readScript_eq_ok_iff.mpr ⟨_, readsScript_row hspelled hfirst hread hno, rfl⟩, ?_⟩
    rw [lexemes_partItem, tokens_leftParts]

/-- no word is swallowed where none begins behind a regular expression without flags -/
theorem not_swallows_of_isChain {items : List Item} (hitems : readScript t = .ok items)
    (hchain : (lexemes items).IsChain fun a b => a.kind = .regex → a.last = '/' → b.kind ≠ .word)
    (h : ReadsScript none t parts) : ∀ j ∈ joints none (runs [] parts), ¬ j.Swallows := by
  intro j hj hswallows
  obtain rfl := Except.ok.inj (hitems.symm.trans (readScript_eq_ok_iff.mpr ⟨parts, h, rfl⟩))
  rw [lexemes_partItem, tokens_eq [] parts] at hchain
  exact rel_of_mem_joints hchain hj hswallows.front hswallows.flagless hswallows.back

end

/-- **A compact script of ASCII characters is read as the lexemes of the script**, without vertical tabs
at the ends, exactly if no word stands behind a regular expression without flags that nothing is left to
keep apart from it; and then it is as compact as it gets. -/
theorem compactScript_reread {t u : Text} (hascii : ∀ c ∈ t, c.toNat < 0x80)
    (h : compactScript t = .ok u) : (∃ parts, ReadsScript none t parts) ∧
      ∀ parts, ReadsScript none t parts →
        ((∃ items, readScript u = .ok items ∧
            lexemes items = (bare Lexeme.isWhite (runs [] parts)).map (·.2)) ↔
          ∀ j ∈ joints none (runs [] parts), ¬ j.Swallows) ∧
        ((∀ j ∈ joints none (runs [] parts), ¬ j.Swallows) → compactScript u = .ok u) := by
  obtain ⟨parts, hparts, -⟩ := compactScript_eq_ok_iff.mp h
  refine ⟨⟨parts, hparts⟩, fun parts hparts => ?_⟩
  have hu := Except.ok.inj (h.symm.trans (compactScript_eq_ok_iff.mpr ⟨parts, hparts, rfl⟩))
  have htoken : ∀ run ∈ runs [] parts, run.2 ∈ tokens parts := fun run hrun =>
    tokens_eq [] parts ▸ List.mem_map_of_mem (f := (·.2)) hrun
  have hspelled : ∀ run ∈ runs [] parts, SpelledAs run.2.kind run.2.text := fun run hrun =>
    spelled_of_readsScript hparts _ (htoken run hrun)
  have hread := isRead_of_readsScript hparts (GapsPassed.none t) fun _ _ hb => nomatch hb
  have htight : Tight u := hu ▸ tight_trim _
  rw [trim_spread isBlank_of_mem_scriptSep fun run hrun => (hspelled run hrun).trims
    fun c hc => hascii c (subset_of_readsScript hparts _ (htoken run hrun) c hc)] at hu
  -- at the ends no regular expression and no word is left out
  have hswallows : (∀ j ∈ joints none (bare Lexeme.isWhite (runs [] parts)), ¬ j.Swallows) ↔
      ∀ j ∈ joints none (runs [] parts), ¬ j.Swallows := by
    refine ⟨fun hno j hj hswallows => ?_, fun hno j hj => hno j (mem_joints_bare.1 hj)⟩
    obtain ⟨hfront, hback⟩ := hswallows.not_white
    exact hno j (mem_joints_bare.2 hfront hback hj) hswallows
  have hkept : ∀ run ∈ bare Lexeme.isWhite (runs [] parts), SpelledAs run.2.kind run.2.text :=
    fun run hrun => hspelled run (mem_of_mem_bare hrun)
  have hfirst := mayFollow_of_bare (first_of_readsScript hparts []) hread
  have hjoints : ∀ j ∈ joints none (bare Lexeme.isWhite (runs [] parts)), j.IsRead :=
    fun j hj => hread j (mem_joints_bare.1 hj)
  rw [← hswallows, hu]
  refine ⟨exists_readScript_iff hkept hfirst hjoints, fun hno => ?_⟩
  refine compactScript_eq_ok_iff.mpr ⟨_, readsScript_row hkept hfirst hjoints hno, ?_⟩
  rw [spread_leftParts, ← hu, trim_of_tight htight]

/-- regular expressions with flags or a sign behind them, a division, and comments that part something -/
def keptScript : Text := "a = /x/g in /y/ + +b // c\n(d) /**/ / 2".toList

def keptCompact : Text := "a=/x/g in/y/+ +b\n(d)/2".toList

theorem compactScript_reread_kept : (∀ c ∈ keptScript, c.toNat < 0x80) ∧
    compactScript keptScript = .ok keptCompact ∧
    (∃ parts, ReadsScript none keptScript parts ∧
      ∀ j ∈ joints none (runs [] parts), ¬ j.Swallows) ∧
    compactScript keptCompact = .ok keptCompact := by
  have hascii : ∀ c ∈ keptScript, c.toNat < 0x80 := by decide
  have hcompact : compactScript keptScript = .ok keptCompact := by cbv
  have hchain : (readScript keptScript).map (fun items => decide ((lexemes items).IsChain
      fun a b => a.kind = .regex → a.last = '/' → b.kind ≠ .word)) = .ok true := by
    cbv
  obtain ⟨⟨parts, hparts⟩, hall⟩ := compactScript_reread hascii hcompact
  have hread := readScript_eq_ok_iff.mpr ⟨parts, hparts, rfl⟩
  rw [hread] at hchain
  have hno := not_swallows_of_isChain hread (of_decide_eq_true (Except.ok.inj hchain)) hparts
  exact ⟨hascii, hcompact, ⟨parts, hparts, hno⟩, (hall parts hparts).2 hno⟩

/-- a word behind a regular expression becomes its flags -/
theorem compactScript_swallows : ¬ ∀ t u items, (∀ c ∈ t, c.toNat < 0x80) →
    readScript t = .ok items → compactScript t = .ok u →
    ∃ items', readScript u = .ok items' ∧ lexemes items' = lexemes items := by
  intro h
  have hread : readScript "/a/ in x".toList = .ok [.lexeme ⟨.regex, "/a/".toList⟩, .gap .space,
      .lexeme ⟨.word, "in".toList⟩, .gap .space, .lexeme ⟨.word, "x".toList⟩] := by
    cbv
  have hcompact : compactScript "/a/ in x".toList = .ok "/a/in x".toList := by cbv
  have hagain : readScript "/a/in x".toList = .ok [.lexeme ⟨.regex, "/a/in".toList⟩, .gap .space,
      .lexeme ⟨.word, "x".toList⟩] := by
    cbv
  obtain ⟨items, hitems, hsame⟩ := h _ _ _ (by decide) hread hcompact
  cases hagain.symm.trans hitems
  exact absurd hsame (by decide)

end SiteBundle
