import SiteBundle.Proofs.Script.Literals
import SiteBundle.Proofs.Text.Joints

/-!
# Reading a script

What the reader takes for a script, told without it.

* `Spacing`       white space or a comment, with its text;
* `SpelledAs k m`   `m` is the text of a lexeme of the kind `k`;
* `Lexeme.MayFollow`, `Lexeme.EndsBefore`, `Spacing.Stands`   what may stand before and behind one;
* `ReadsScript`   the text is a script of these parts;
* `itemsFrom_eq_ok_iff`   the reader takes a text for just these parts.
-/

namespace SiteBundle

open Text

/-- what stands between the lexemes of a script -/
inductive Spacing where
  /-- white space within a line -/
  | blank (c : Char)
  | lineEnd
  /-- a comment up to the end of its line, with what stands behind its opening mark -/
  | lineComment (body : Text)
  /-- a comment, with what stands behind its opening mark -/
  | comment (rest : Text)

def Spacing.text : Spacing → Text
  | .blank c => [c]
  | .lineEnd => ['\n']
  | .lineComment body => '/' :: '/' :: body
  | .comment rest => '/' :: '*' :: rest

/-- what the reader notes of it -/
def Spacing.gap : Spacing → Gap
  | .blank _ => .space
  | .lineEnd => .newline
  | .lineComment _ => .lineComment
  | .comment rest => if rest.contains '\n' then .newline else .space

/-- what the reader gives for a part -/
def partItem : Spacing ⊕ Lexeme → Item
  | .inl g => .gap g.gap
  | .inr l => .lexeme l

/-- this may stand in front of the text `rest` -/
def Spacing.Stands (rest : Text) : Spacing → Prop
  | .blank c => isScriptGap c = true
  | .lineEnd => True
  | .lineComment body => '\n' ∉ body ∧ ∀ c ∈ rest.head?, c = '\n'
  | .comment m => CommentRest m

/-- how a lexeme of a kind is written -/
inductive SpelledAs : LexemeKind → Text → Prop
  | word {m : Text} (hne : m ≠ []) (h : ∀ c ∈ m, isScriptWord c = true) : SpelledAs .word m
  | string {quote : Char} {m : Text} (hquote : quote = '"' ∨ quote = '\'') (h : StringRest quote m) :
      SpelledAs .string (quote :: m)
  | template {m : Text} (h : NestRest .template m) : SpelledAs .template ('\x60' :: m)
  | regex {m flags : Text} (h : RegexRest false m) (hopens : ∀ c ∈ m.head?, c ≠ '/' ∧ c ≠ '*')
      (hflags : ∀ c ∈ flags, isLetter c = true) : SpelledAs .regex ('/' :: (m ++ flags))
  | punctuation {c : Char} (hgap : isScriptGap c = false) (hline : c ≠ '\n')
      (hquote : ¬ (c = '"' ∨ c = '\'')) (hmark : c ≠ '\x60') (hword : isScriptWord c = false) :
      SpelledAs .punctuation [c]

/-- behind the lexeme `before` this one may stand: a slash opens a regular expression where an operand
may stand, and there only -/
structure Lexeme.MayFollow (before : Option Lexeme) (l : Lexeme) : Prop where
  regex : l.kind = .regex → operandMayFollow before = true
  slash : l = ⟨.punctuation, ['/']⟩ → operandMayFollow before = false

/-- the lexeme ends where this character is next -/
structure Lexeme.EndsBefore (c : Char) (l : Lexeme) : Prop where
  word : l.kind = .word → isScriptWord c = false
  /-- the letters behind a regular expression are its flags -/
  regex : l.kind = .regex → isLetter c = false
  slash : l = ⟨.punctuation, ['/']⟩ → c ≠ '/' ∧ c ≠ '*'

/-- behind the lexeme `before`, the text is a script of these parts -/
inductive ReadsScript : Option Lexeme → Text → List (Spacing ⊕ Lexeme) → Prop
  | done {before : Option Lexeme} : ReadsScript before [] []
  | gap {before : Option Lexeme} {g : Spacing} {t : Text} {parts : List (Spacing ⊕ Lexeme)}
      (h : g.Stands t) (rest : ReadsScript before t parts) :
      ReadsScript before (g.text ++ t) (.inl g :: parts)
  | lexeme {before : Option Lexeme} {l : Lexeme} {t : Text} {parts : List (Spacing ⊕ Lexeme)}
      (h : SpelledAs l.kind l.text) (hfollows : l.MayFollow before)
      (hends : ∀ c ∈ t.head?, l.EndsBefore c) (rest : ReadsScript (some l) t parts) :
      ReadsScript before (l.text ++ t) (.inr l :: parts)

/-! ## one part -/

section
variable {before : Option Lexeme} {c : Char} {kind : LexemeKind} {m r rest : Text} {l : Lexeme}
  {g : Spacing} {item : Item}

theorem upTo_append (kind : LexemeKind) (m rest : Text) :
    upTo kind (m ++ rest) rest = (.lexeme ⟨kind, m⟩, rest) := by
  rw [upTo, List.length_append, Nat.add_sub_cancel, List.take_left]

/-- characters that begin something else than a word -/
theorem isScriptWord_eq_false : ∀ c ∈ [' ', '\t', '\r', '\x0c', '\n', '/', '"', '\'', '\x60'],
    isScriptWord c = false := by
  decide

theorem isScriptGap_iff : isScriptGap c = true ↔ c = ' ' ∨ c = '\t' ∨ c = '\r' ∨ c = '\x0c' := by
  simp only [isScriptGap, Bool.or_eq_true, beq_iff_eq, or_assoc]

/-- a word character begins nothing else than a word -/
theorem ne_of_isScriptWord (h : isScriptWord c = true) : isScriptGap c = false ∧ c ≠ '\n' ∧
    c ≠ '/' ∧ ¬ (c = '"' ∨ c = '\'') ∧ c ≠ '\x60' := by
  have hno : ∀ d ∈ [' ', '\t', '\r', '\x0c', '\n', '/', '"', '\'', '\x60'], c ≠ d := by
    rintro d hd rfl
    exact nomatch (isScriptWord_eq_false c hd).symm.trans h
  refine ⟨Bool.eq_false_iff.mpr fun hgap => ?_, hno _ (by decide), hno _ (by decide), ?_,
    hno _ (by decide)⟩
  · rcases isScriptGap_iff.mp hgap with hc | hc | hc | hc
    · exact hno _ (by decide) hc
    · exact hno _ (by decide) hc
    · exact hno _ (by decide) hc
    · exact hno _ (by decide) hc
  · rintro (hc | hc)
    · exact hno _ (by decide) hc
    · exact hno _ (by decide) hc

theorem itemAt_slash : itemAt before '/' r = slashItem before ('/' :: r) r := by
  rw [itemAt, if_neg (by decide), if_neg (by decide), if_pos rfl]

/-- a slash that begins no comment -/
theorem slashItem_of_head (h : ∀ c ∈ r.head?, c ≠ '/' ∧ c ≠ '*') (t : Text) :
    slashItem before t r = if operandMayFollow before then
      match regexRest? false r with
      | some (_, rest) => .ok (upTo .regex t rest)
      | none => .error ⟨.regularExpression, t⟩
    else .ok (.lexeme ⟨.punctuation, ['/']⟩, r) := by
  unfold slashItem
  split
  · exact absurd rfl (h '/' rfl).1
  · exact absurd rfl (h '*' rfl).2
  · rfl

theorem RegexRest.ne_nil {inClass : Bool} (h : RegexRest inClass m) : m ≠ [] := by
  cases h <;> exact List.cons_ne_nil _ _

theorem SpelledAs.ne_nil (h : SpelledAs kind m) : m ≠ [] := by
  cases h with
  | word hne => exact hne
  | string => exact List.cons_ne_nil _ _
  | template => exact List.cons_ne_nil _ _
  | regex => exact List.cons_ne_nil _ _
  | punctuation => exact List.cons_ne_nil _ _

theorem Spacing.text_ne_nil (g : Spacing) : g.text ≠ [] := by
  cases g <;> exact List.cons_ne_nil _ _

/-- a lexeme is read as it is written -/
theorem itemAt_lexeme (h : SpelledAs l.kind l.text) (hfollows : l.MayFollow before)
    (hends : ∀ c ∈ rest.head?, l.EndsBefore c) (hl : l.text = c :: r) :
    itemAt before c (r ++ rest) = .ok (.lexeme l, rest) := by
  obtain ⟨kind, m⟩ := l
  dsimp only at h hl
  subst hl
  cases h with
  | word _ h =>
    obtain ⟨hc, hr⟩ := List.forall_mem_cons.mp h
    obtain ⟨hgap, hline, hslash, hquote, hmark⟩ := ne_of_isScriptWord hc
    obtain ⟨htake, hdrop⟩ := takeWhile_append_of_head hr fun c hc => (hends c hc).word rfl
    rw [itemAt, if_neg (Bool.eq_false_iff.mp hgap), if_neg hline, if_neg hslash, if_neg hquote,
      if_neg hmark, if_pos hc, htake, hdrop]
  | string hquote h =>
    have hother : isScriptGap c = false ∧ c ≠ '\n' ∧ c ≠ '/' ∧ IsQuoteMark c := by
      rcases hquote with rfl | rfl
      · exact ⟨by decide, by decide, by decide, by decide, by decide⟩
      · exact ⟨by decide, by decide, by decide, by decide, by decide⟩
    obtain ⟨hgap, hline, hslash, hmark⟩ := hother
    rw [itemAt, if_neg (Bool.eq_false_iff.mp hgap), if_neg hline, if_neg hslash, if_pos hquote,
      stringItem, h.read hmark rest]
    exact congrArg _ (upTo_append .string (c :: r) rest)
  | template h =>
    rw [itemAt, if_neg (by decide), if_neg (by decide), if_neg (by decide), if_neg (by decide),
      if_pos rfl, behindTemplate_eq_ok_iff.mpr ⟨r, rfl, h⟩]
    exact congrArg _ (upTo_append .template ('\x60' :: r) rest)
  | @regex m flags h hopens hflags =>
    have hhead : ∀ c ∈ (m ++ flags ++ rest).head?, c ≠ '/' ∧ c ≠ '*' := by
      obtain ⟨d, m, rfl⟩ := List.exists_cons_of_ne_nil h.ne_nil
      exact hopens
    rw [itemAt_slash, slashItem_of_head hhead, if_pos (hfollows.regex rfl), List.append_assoc,
      h.read hflags fun c hc => (hends c hc).regex rfl, ← List.append_assoc]
    exact congrArg _ (upTo_append .regex ('/' :: (m ++ flags)) rest)
  | punctuation hgap hline hquote hmark hword =>
    by_cases hslash : c = '/'
    · subst hslash
      rw [List.nil_append, itemAt_slash, slashItem_of_head fun c hc => (hends c hc).slash rfl,
        if_neg (Bool.eq_false_iff.mp (hfollows.slash rfl))]
    · rw [List.nil_append, itemAt, if_neg (Bool.eq_false_iff.mp hgap), if_neg hline, if_neg hslash,
        if_neg hquote, if_neg hmark, if_neg (Bool.eq_false_iff.mp hword)]

/-- white space and comments are read as they are written -/
theorem itemAt_spacing (h : g.Stands rest) (hg : g.text = c :: r) :
    itemAt before c (r ++ rest) = .ok (.gap g.gap, rest) := by
  cases g with
  | blank d =>
    cases hg
    exact if_pos h
  | lineEnd =>
    cases hg
    rfl
  | lineComment body =>
    cases hg
    obtain ⟨hbody, hrest⟩ := h
    have hinside : ∀ c ∈ body, (c != '\n') = true := fun c hc =>
      bne_iff_ne.mpr fun hline => hbody (hline ▸ hc)
    have hends : ∀ c ∈ rest.head?, (c != '\n') = false := fun c hc =>
      bne_eq_false_iff_eq.mpr (hrest c hc)
    obtain ⟨-, hdrop⟩ := takeWhile_append_of_head hinside hends
    rw [List.cons_append, itemAt_slash, slashItem, hdrop]
    rfl
  | comment m =>
    cases hg
    obtain ⟨inside, rfl, hno⟩ := h
    have hseek := seek_comment_eq_some_iff.mpr ⟨rfl, List.append_assoc inside ['*', '/'] rest, hno⟩
    have hline : (inside ++ ['*', '/']).contains '\n' = inside.contains '\n' := by
      rw [List.contains_append]
      exact Bool.or_false _
    rw [List.cons_append, itemAt_slash, slashItem, hseek, Spacing.gap, hline]
    rfl

/-- what a part is: it is written so and may stand there -/
inductive PartAt (before : Option Lexeme) (rest : Text) : Text → Spacing ⊕ Lexeme → Prop
  | gap {g : Spacing} (h : g.Stands rest) : PartAt before rest g.text (.inl g)
  | lexeme {l : Lexeme} (h : SpelledAs l.kind l.text) (hfollows : l.MayFollow before)
      (hends : ∀ c ∈ rest.head?, l.EndsBefore c) : PartAt before rest l.text (.inr l)

theorem partAt_of_slashItem (h : slashItem before ('/' :: r) r = .ok (item, rest)) :
    ∃ m part, '/' :: r = m ++ rest ∧ item = partItem part ∧ PartAt before rest m part := by
  unfold slashItem at h
  split at h
  · rename_i r
    cases h
    refine ⟨_, .inl (.lineComment (r.takeWhile (· != '\n'))), ?_, rfl, .gap ⟨fun hline => ?_, ?_⟩⟩
    · rw [Spacing.text, List.cons_append, List.cons_append, List.takeWhile_append_dropWhile]
    · exact absurd (List.all_eq_true.mp List.all_takeWhile _ hline) (by decide)
    · exact fun c hc => bne_eq_false_iff_eq.mp (head_dropWhile _ r c hc)
  · rename_i r
    split at h
    · rename_i inside mark rest hseek
      obtain ⟨rfl, rfl, hno⟩ := seek_comment_eq_some_iff.mp hseek
      cases h
      have hline : (inside ++ ['*', '/']).contains '\n' = inside.contains '\n' := by
        rw [List.contains_append]
        exact Bool.or_false _
      refine ⟨_, .inl (.comment (inside ++ ['*', '/'])), ?_, ?_, .gap ⟨inside, rfl, hno⟩⟩
      · rw [Spacing.text, List.cons_append, List.cons_append, List.append_assoc]
        rfl
      · rw [partItem, Spacing.gap, hline]
    · exact nomatch h
  · rename_i hline hcomment
    have hhead : ∀ c ∈ r.head?, c ≠ '/' ∧ c ≠ '*' := by
      intro c hc
      obtain ⟨r, rfl⟩ := List.head?_eq_some_iff.mp hc
      exact ⟨fun hslash => hline r (hslash ▸ rfl), fun hstar => hcomment r (hstar ▸ rfl)⟩
    split at h
    · rename_i hoperand
      split at h
      · rename_i w rest hread
        obtain ⟨m, flags, rfl, rfl, hm, hflags, hends⟩ := regexRest?_eq_some_iff.mp hread
        rw [← List.cons_append, upTo_append] at h
        cases h
        refine ⟨_, .inr ⟨.regex, '/' :: (m ++ flags)⟩, rfl, rfl,
          .lexeme (.regex hm (fun c hc => ?_) hflags) ⟨fun _ => hoperand, nofun⟩
            fun c hc => ⟨nofun, fun _ => hends c hc, nofun⟩⟩
        obtain ⟨m, rfl⟩ := List.head?_eq_some_iff.mp hc
        exact hhead c rfl
      · exact nomatch h
    · rename_i hoperand
      cases h
      exact ⟨_, .inr ⟨.punctuation, ['/']⟩, rfl, rfl,
        .lexeme (.punctuation (by decide) (by decide) (by decide) (by decide) (by decide))
          ⟨nofun, fun _ => Bool.eq_false_iff.mpr hoperand⟩
          fun c hc => ⟨nofun, nofun, fun _ => hhead c hc⟩⟩

theorem partAt_of_stringItem (hquote : c = '"' ∨ c = '\'')
    (h : stringItem c (c :: r) r = .ok (item, rest)) :
    ∃ m part, c :: r = m ++ rest ∧ item = partItem part ∧ PartAt before rest m part := by
  unfold stringItem at h
  split at h
  · rename_i m rest hread
    obtain ⟨rfl, hm⟩ := stringRest_of_read hread
    rw [← List.cons_append, upTo_append] at h
    cases h
    exact ⟨_, .inr ⟨.string, c :: m⟩, rfl, rfl, .lexeme (.string hquote hm) ⟨nofun, nofun⟩
      fun _ _ => ⟨nofun, nofun, nofun⟩⟩
  · exact nomatch h

theorem partAt_of_behindTemplate (h : (behindTemplate [.template ('\x60' :: r)] r).map
      (fun rest => upTo .template ('\x60' :: r) rest) = .ok (item, rest)) :
    ∃ m part, '\x60' :: r = m ++ rest ∧ item = partItem part ∧ PartAt before rest m part := by
  cases hread : behindTemplate [.template ('\x60' :: r)] r with
  | error e =>
    rw [hread] at h
    exact nomatch h
  | ok behind =>
    obtain ⟨m, rfl, hm⟩ := behindTemplate_eq_ok_iff.mp hread
    rw [hread, Except.map, ← List.cons_append, upTo_append] at h
    cases h
    exact ⟨_, .inr ⟨.template, '\x60' :: m⟩, rfl, rfl, .lexeme (.template hm) ⟨nofun, nofun⟩
      fun _ _ => ⟨nofun, nofun, nofun⟩⟩

/-- what is read is written so and may stand there -/
theorem partAt_of_itemAt (h : itemAt before c r = .ok (item, rest)) :
    ∃ m part, c :: r = m ++ rest ∧ item = partItem part ∧ PartAt before rest m part := by
  unfold itemAt at h
  split at h
  · rename_i hgap
    cases h
    exact ⟨_, .inl (.blank c), rfl, rfl, .gap hgap⟩
  · rename_i hgap
    split at h
    · rename_i hline
      subst hline
      cases h
      exact ⟨_, .inl .lineEnd, rfl, rfl, .gap trivial⟩
    · rename_i hline
      split at h
      · rename_i hslash
        subst hslash
        exact partAt_of_slashItem h
      · rename_i hslash
        split at h
        · rename_i hquote
          exact partAt_of_stringItem hquote h
        · rename_i hquote
          split at h
          · rename_i hmark
            subst hmark
            exact partAt_of_behindTemplate h
          · rename_i hmark
            split at h
            · rename_i hword
              cases h
              refine ⟨_, .inr ⟨.word, c :: r.takeWhile isScriptWord⟩, ?_, rfl, .lexeme
                (.word (List.cons_ne_nil _ _) (List.forall_mem_cons.mpr ⟨hword,
                  List.all_eq_true.mp List.all_takeWhile⟩)) ⟨nofun, nofun⟩
                fun d hd => ⟨fun _ => head_dropWhile _ r d hd, nofun, nofun⟩⟩
              rw [List.cons_append, List.takeWhile_append_dropWhile]
            · rename_i hword
              cases h
              have hchar : (⟨.punctuation, [c]⟩ : Lexeme) = ⟨.punctuation, ['/']⟩ → c = '/' :=
                fun heq => (List.cons.inj (Lexeme.mk.inj heq).2).1
              exact ⟨_, .inr ⟨.punctuation, [c]⟩, rfl, rfl,
                .lexeme (.punctuation (Bool.eq_false_iff.mpr hgap) hline hquote hmark
                  (Bool.eq_false_iff.mpr hword)) ⟨nofun, fun heq => absurd (hchar heq) hslash⟩
                fun _ _ => ⟨nofun, nofun, fun heq => absurd (hchar heq) hslash⟩⟩

/-- what is read begins with the character read first -/
theorem exists_part (h : itemAt before c r = .ok (item, rest)) :
    ∃ m part, r = m ++ rest ∧ item = partItem part ∧ PartAt before rest (c :: m) part := by
  obtain ⟨m, part, heq, hitem, hpart⟩ := partAt_of_itemAt h
  have hne : m ≠ [] := by
    cases hpart with
    | gap => exact Spacing.text_ne_nil _
    | lexeme hspelled => exact hspelled.ne_nil
  obtain ⟨d, m, rfl⟩ := List.exists_cons_of_ne_nil hne
  obtain ⟨rfl, hr⟩ := List.cons.inj heq
  exact ⟨m, part, hr, hitem, hpart⟩

end

/-! ## all parts -/

section
variable {before : Option Lexeme} {c : Char} {t r rest : Text} {item : Item} {items : List Item}
  {parts : List (Spacing ⊕ Lexeme)}

/-- characters already taken are passed over -/
theorem itemsFrom_skip (before : Option Lexeme) (m rest : Text) :
    itemsFrom before m.length (m ++ rest) = itemsFrom before 0 rest := by
  induction m with
  | nil => rfl
  | cons c m ih =>
    rw [List.length_cons, List.cons_append, itemsFrom]
    exact ih

/-- one item, and those behind it -/
theorem itemsFrom_step (hat : itemAt before c r = .ok (item, rest)) : itemsFrom before 0 (c :: r) =
    (itemsFrom (lastLexeme before item) 0 rest).map (item :: ·) := by
  obtain ⟨m, part, rfl, -⟩ := exists_part hat
  rw [itemsFrom, hat]
  dsimp only
  rw [List.length_append, Nat.add_sub_cancel, itemsFrom_skip]

/-- the parts of a script are what the reader gives -/
theorem itemsFrom_of_readsScript (h : ReadsScript before t parts) :
    itemsFrom before 0 t = .ok (parts.map partItem) := by
  induction h with
  | done => rfl
  | @gap before g t parts h _ ih =>
    obtain ⟨c, r, hg⟩ := List.exists_cons_of_ne_nil g.text_ne_nil
    rw [hg, List.cons_append, itemsFrom_step (itemAt_spacing h hg), lastLexeme, ih]
    rfl
  | @lexeme before l t parts h hfollows hends _ ih =>
    obtain ⟨c, r, hl⟩ := List.exists_cons_of_ne_nil h.ne_nil
    rw [hl, List.cons_append, itemsFrom_step (itemAt_lexeme h hfollows hends hl), lastLexeme, ih]
    rfl

/-- what is read has parts -/
theorem exists_readsScript (h : itemsFrom before 0 t = .ok items) :
    ∃ parts, ReadsScript before t parts ∧ items = parts.map partItem := by
  induction hn : t.length using Nat.strongRecOn generalizing before t items with
  | _ n ih =>
    cases t with
    | nil =>
      cases h
      exact ⟨[], .done, rfl⟩
    | cons c r =>
      cases hat : itemAt before c r with
      | error e =>
        rw [itemsFrom, hat] at h
        exact nomatch h
      | ok found =>
        obtain ⟨item, rest⟩ := found
        obtain ⟨m, part, rfl, rfl, hpart⟩ := exists_part hat
        rw [itemsFrom_step hat] at h
        cases hrest : itemsFrom (lastLexeme before (partItem part)) 0 rest with
        | error e =>
          rw [hrest] at h
          exact nomatch h
        | ok items =>
          rw [hrest] at h
          cases h
          obtain ⟨parts, hparts, rfl⟩ := ih rest.length
            (by rw [← hn, List.length_cons, List.length_append]; omega) hrest rfl
          refine ⟨part :: parts, ?_, rfl⟩
          rw [← List.cons_append]
          generalize c :: m = w at hpart
          cases hpart with
          | gap h => exact .gap h hparts
          | lexeme h hfollows hends => exact .lexeme h hfollows hends hparts

/-- **The reader takes a text for a script of certain parts exactly if it is one.** -/
theorem itemsFrom_eq_ok_iff : itemsFrom before 0 t = .ok items ↔
    ∃ parts, ReadsScript before t parts ∧ items = parts.map partItem := by
  refine ⟨exists_readsScript, ?_⟩
  rintro ⟨parts, hparts, rfl⟩
  exact itemsFrom_of_readsScript hparts

theorem readScript_eq_ok_iff : readScript t = .ok items ↔
    ∃ parts, ReadsScript none t parts ∧ items = parts.map partItem := by
  rw [← itemsFrom_eq_ok_iff, readScript]
  constructor
  · intro h
    split at h
    · cases h
      assumption
    · exact nomatch h
  · intro h
    rw [h]

/-- the lexemes that are read -/
theorem lexemes_partItem (parts : List (Spacing ⊕ Lexeme)) :
    lexemes (parts.map partItem) = tokens parts := by
  induction parts with
  | nil => rfl
  | cons part parts ih =>
    cases part with
    | inl g => exact ih
    | inr l => exact congrArg (l :: ·) ih

end
end SiteBundle
