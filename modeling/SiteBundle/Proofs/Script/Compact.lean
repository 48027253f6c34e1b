import Mathlib.Tactic
import SiteBundle.Proofs.Script.Bytewise
import SiteBundle.Script.Compact

/-!
# What compacting leaves of a script

The compact script has the lexemes of the script, one behind the other; of the gaps between two
neighbours is left what `scriptSep` says, and that keeps them apart where they have to be
(`Joint.KeptApart`).

* `Joint.IsRead`            what is known of two neighbours in a script;
* `writeScript_eq`          the writer puts what `scriptSep` says between neighbours;
* `compactScript_eq_ok_iff` a script is compacted exactly if it can be read.
-/

namespace SiteBundle

open Text

def Spacing.holdsLineEnd (g : Spacing) : Bool := g.text.contains '\n'

/-- the first character -/
def Lexeme.first (l : Lexeme) : Char := l.text.headD ' '

/-- the last character -/
def Lexeme.last (l : Lexeme) : Char := l.text.getLastD ' '

/-- what is left of the gap between two neighbours: a line end that carries a meaning, else one space
where they would run together -/
def scriptSep (j : Joint Spacing Lexeme) : Text :=
  if j.gaps.any Spacing.holdsLineEnd && !lineEndMayGo j.front.last j.back.first then ['\n']
  else if !j.gaps.isEmpty && needSpace j.front.last j.back.first then [' ']
  else []

/-! ## neighbours -/

section
variable {before : Option Lexeme} {kind : LexemeKind} {c : Char} {t m rest : Text} {l : Lexeme}
  {g : Spacing} {gaps : List Spacing} {parts : List (Spacing ⊕ Lexeme)} {j : Joint Spacing Lexeme}

theorem Lexeme.head?_eq (h : l.text ≠ []) : l.text.head? = some l.first := by
  obtain ⟨c, m, hl⟩ := List.exists_cons_of_ne_nil h
  rw [Lexeme.first, hl]
  rfl

theorem Lexeme.getLast?_eq (h : l.text ≠ []) : l.text.getLast? = some l.last := by
  obtain ⟨m, c, hl⟩ := (List.eq_nil_or_concat l.text).resolve_left h
  rw [Lexeme.last, hl, List.concat_eq_append, List.getLast?_concat, List.getLastD_concat]

/-- no lexeme begins with white space -/
theorem SpelledAs.first_ne (h : SpelledAs kind m) : ∀ c ∈ m.head?, c ≠ '\n' ∧ isScriptGap c = false := by
  intro c hc
  cases h with
  | word _ h =>
    have hword := ne_of_isScriptWord (h c (List.mem_of_mem_head? hc))
    exact ⟨hword.2.1, hword.1⟩
  | string hquote =>
    obtain rfl := Option.some.inj hc
    rcases hquote with rfl | rfl
    · exact ⟨by decide, by decide⟩
    · exact ⟨by decide, by decide⟩
  | template =>
    obtain rfl := Option.some.inj hc
    exact ⟨by decide, by decide⟩
  | regex =>
    obtain rfl := Option.some.inj hc
    exact ⟨by decide, by decide⟩
  | punctuation hgap hline =>
    obtain rfl := Option.some.inj hc
    exact ⟨hline, hgap⟩

/-- the reader notes a line end where there is one -/
theorem holdsLineEnd_of_stands (h : g.Stands rest) : g.holdsLineEnd = decide (g.gap = .newline) := by
  cases g with
  | blank c =>
    have hline : c ≠ '\n' := by
      rintro rfl
      exact nomatch h
    have hcontains : Spacing.holdsLineEnd (.blank c) = false :=
      Bool.eq_false_iff.mpr fun hin => hline (List.mem_singleton.mp (List.contains_iff_mem.mp hin)).symm
    exact hcontains
  | lineEnd => rfl
  | lineComment body =>
    have hcontains : Spacing.holdsLineEnd (.lineComment body) = false := by
      refine Bool.eq_false_iff.mpr fun hcontains => ?_
      rw [Spacing.holdsLineEnd, List.contains_iff_mem] at hcontains
      have hin : '\n' ∈ '/' :: '/' :: body := hcontains
      exact h.1 ((List.mem_cons.mp ((List.mem_cons.mp hin).resolve_left (by decide))).resolve_left
        (by decide))
    exact hcontains
  | comment m =>
    have hcontains : Spacing.holdsLineEnd (.comment m) = m.contains '\n' := rfl
    rw [hcontains, Spacing.gap]
    split
    · assumption
    · rename_i hno
      exact Bool.eq_false_iff.mpr hno

/-- the gaps passed in front of a text -/
structure GapsPassed (gaps : List Spacing) (t : Text) : Prop where
  lineEnds : ∀ g ∈ gaps, g.holdsLineEnd = decide (g.gap = .newline)
  /-- behind a comment up to the end of its line, that line end comes next -/
  parts : gaps ≠ [] → (∀ c ∈ t.head?, c = '\n') ∨ ∃ g ∈ gaps, g.gap ≠ .lineComment

theorem GapsPassed.none (t : Text) : GapsPassed [] t := ⟨fun _ hg => (nomatch hg), fun h => absurd rfl h⟩

theorem GapsPassed.add (h : GapsPassed gaps (g.text ++ t)) (hg : g.Stands t) :
    GapsPassed (gaps ++ [g]) t := by
  refine ⟨List.forall_mem_append.mpr ⟨h.lineEnds, List.forall_mem_singleton.mpr
    (holdsLineEnd_of_stands hg)⟩, fun _ => ?_⟩
  have hlast : g.gap ≠ .lineComment → ∃ g' ∈ gaps ++ [g], g'.gap ≠ .lineComment := fun hgap =>
    ⟨g, List.mem_append_right _ (List.mem_singleton_self g), hgap⟩
  cases g with
  | blank c => exact .inr (hlast nofun)
  | lineEnd => exact .inr (hlast nofun)
  | lineComment body => exact .inl hg.2
  | comment m =>
    refine .inr (hlast ?_)
    show (if m.contains '\n' then Gap.newline else .space) ≠ .lineComment
    split
    · exact nofun
    · exact nofun

/-- what is known of two neighbours in a script -/
structure Joint.IsRead (j : Joint Spacing Lexeme) : Prop where
  back : SpelledAs j.back.kind j.back.text
  follows : j.back.MayFollow (some j.front)
  ends : j.gaps = [] → j.front.EndsBefore j.back.first
  lineEnds : ∀ g ∈ j.gaps, g.holdsLineEnd = decide (g.gap = .newline)
  parts : j.gaps ≠ [] → ∃ g ∈ j.gaps, g.gap ≠ .lineComment

theorem isRead_of_readsScript (h : ReadsScript before t parts) (hgaps : GapsPassed gaps t)
    (hends : gaps = [] → ∀ b ∈ before, ∀ c ∈ t.head?, b.EndsBefore c) :
    ∀ j ∈ joints before (runs gaps parts), j.IsRead := by
  induction h generalizing gaps with
  | done => exact fun _ hj => nomatch hj
  | @gap before g t parts h _ ih =>
    exact ih (hgaps.add h) fun hnil =>
      absurd hnil (List.append_ne_nil_of_right_ne_nil gaps (List.cons_ne_nil g []))
  | @lexeme before l t parts h hfollows hnext _ ih =>
    have hrest := ih (GapsPassed.none t) fun _ b hb => by
      rw [← Option.some.inj hb]
      exact hnext
    cases before with
    | none => exact hrest
    | some b =>
      have hhead : (l.text ++ t).head? = some l.first := by
        rw [List.head?_append, Lexeme.head?_eq h.ne_nil]
        rfl
      refine List.forall_mem_cons.mpr ⟨⟨h, hfollows, fun hnil => hends hnil b rfl _ hhead,
        hgaps.lineEnds, fun hne => (hgaps.parts hne).resolve_left fun hline => ?_⟩, hrest⟩
      exact (h.first_ne _ (Lexeme.head?_eq h.ne_nil)).1 (hline _ hhead)

theorem spelled_of_readsScript (h : ReadsScript before t parts) :
    ∀ l ∈ tokens parts, SpelledAs l.kind l.text := by
  induction h with
  | done => exact fun _ hl => nomatch hl
  | gap _ _ ih => exact ih
  | lexeme h _ _ _ ih => exact List.forall_mem_cons.mpr ⟨h, ih⟩

/-! ## writing it again -/

/-- what the writer has noted of the gaps passed -/
def passedOver (gaps : List Spacing) : Passed := gaps.foldl (fun p g => p.add g.gap) .nothing

theorem passedOver_concat (gaps : List Spacing) (g : Spacing) :
    passedOver (gaps ++ [g]) = (passedOver gaps).add g.gap := by
  rw [passedOver, List.foldl_append]
  rfl

theorem passedOver_eq (gaps : List Spacing) : passedOver gaps =
    ⟨gaps.any fun g => decide (g.gap = .space), gaps.any fun g => decide (g.gap = .newline)⟩ := by
  induction gaps using List.reverseRecOn with
  | nil => rfl
  | append_singleton gaps g ih =>
    rw [passedOver_concat, ih, List.any_append, List.any_append]
    cases hgap : g.gap <;> simp [Passed.add, hgap]

/-- what the writer leaves of the gap between two neighbours -/
theorem Joint.IsRead.scriptGap_eq (h : j.IsRead) :
    scriptGap (passedOver j.gaps) j.front.last j.back.first = scriptSep j := by
  have hline : (passedOver j.gaps).newline = j.gaps.any Spacing.holdsLineEnd := by
    rw [passedOver_eq, Bool.eq_iff_iff, List.any_eq_true, List.any_eq_true]
    exact exists_congr fun g => and_congr_right fun hg => by rw [h.lineEnds g hg]
  have hany : ((passedOver j.gaps).newline || (passedOver j.gaps).space) = !j.gaps.isEmpty := by
    rw [passedOver_eq, Bool.eq_iff_iff, Bool.or_eq_true, List.any_eq_true, List.any_eq_true,
      Bool.not_eq_true', List.isEmpty_eq_false_iff]
    constructor
    · rintro (⟨g, hg, -⟩ | ⟨g, hg, -⟩)
      · exact List.ne_nil_of_mem hg
      · exact List.ne_nil_of_mem hg
    · intro hne
      obtain ⟨g, hg, hgap⟩ := h.parts hne
      cases hkind : g.gap with
      | space => exact .inr ⟨g, hg, decide_eq_true hkind⟩
      | newline => exact .inl ⟨g, hg, decide_eq_true hkind⟩
      | lineComment => exact absurd hkind hgap
  rw [scriptGap, scriptSep, hany, hline]

/-- **The lexemes are written with what `scriptSep` says between neighbours.** -/
theorem writeScript_eq {last : Option Lexeme} (hne : ∀ l ∈ tokens parts, l.text ≠ [])
    (hread : ∀ j ∈ joints last (runs gaps parts), j.IsRead) :
    writeScript (last.map Lexeme.last) (passedOver gaps) (parts.map partItem) =
      spread scriptSep Lexeme.text last (runs gaps parts) := by
  induction parts generalizing last gaps with
  | nil => rfl
  | cons part parts ih =>
    cases part with
    | inl g =>
      rw [List.map_cons, partItem, writeScript, ← passedOver_concat]
      exact ih hne hread
    | inr l =>
      obtain ⟨hl, hne⟩ := List.forall_mem_cons.mp hne
      obtain ⟨c, m, htext⟩ := List.exists_cons_of_ne_nil hl
      have hfirst : l.first = c := by rw [Lexeme.first, htext]; rfl
      have hrest : ∀ h, writeScript l.text.getLast? .nothing (parts.map partItem) =
          spread scriptSep Lexeme.text (some l) (runs [] parts) := fun h => by
        rw [Lexeme.getLast?_eq hl]
        exact @ih [] (some l) hne h
      rw [List.map_cons, partItem, writeScript]
      split
      · rename_i hnil
        exact absurd hnil hl
      · rename_i d m' htext'
        obtain rfl : c = d := (List.cons.inj (htext.symm.trans htext')).1
        rw [runs]
        cases last with
        | none =>
          rw [hrest hread]
          rfl
        | some b =>
          obtain ⟨hfront, hread⟩ := List.forall_mem_cons.mp hread
          rw [hrest hread, spread, ← hfront.scriptGap_eq, List.append_assoc, ← hfirst]
          rfl

/-- **A script that can be read is compacted, and no other one is.** -/
theorem compactScript_eq_ok_iff {u : Text} : compactScript t = .ok u ↔ ∃ parts,
    ReadsScript none t parts ∧ u = trim (spread scriptSep Lexeme.text none (runs [] parts)) := by
  have hwrite : ∀ {parts}, ReadsScript none t parts → writeScript none .nothing (parts.map partItem) =
      spread scriptSep Lexeme.text none (runs [] parts) := fun h =>
    @writeScript_eq [] _ none (fun l hl => (spelled_of_readsScript h l hl).ne_nil)
      (isRead_of_readsScript h (GapsPassed.none t) fun _ _ hb => nomatch hb)
  rw [compactScript]
  constructor
  · intro h
    cases hread : readScript t with
    | error e =>
      rw [hread] at h
      exact nomatch h
    | ok items =>
      obtain ⟨parts, hparts, rfl⟩ := readScript_eq_ok_iff.mp hread
      rw [hread] at h
      refine ⟨parts, hparts, ?_⟩
      rw [← hwrite hparts]
      exact (Except.ok.inj h).symm
  · rintro ⟨parts, hparts, rfl⟩
    rw [readScript_eq_ok_iff.mpr ⟨parts, hparts, rfl⟩, ← hwrite hparts]
    rfl

/-! ## keeping apart -/

/-- characters that mean something else one behind the other -/
def clashes : List (Char × Char) := [('+', '+'), ('-', '-'), ('/', '/'), ('/', '*')]

/-- what a text between two neighbours has to be -/
structure Joint.KeptApart (j : Joint Spacing Lexeme) (w : Text) : Prop where
  shape : w = [] ∨ w = [' '] ∨ w = ['\n']
  adjacent : j.gaps = [] → w = []
  words : j.front.kind = .word → j.back.kind = .word → w ≠ []
  signs : j.gaps ≠ [] → (j.front.last, j.back.first) ∈ clashes → w ≠ []
  lineEnd : (∃ g ∈ j.gaps, '\n' ∈ g.text) → lineEndMayGo j.front.last j.back.first = false →
    w = ['\n']

theorem scriptSep_shape (j : Joint Spacing Lexeme) :
    scriptSep j = [] ∨ scriptSep j = [' '] ∨ scriptSep j = ['\n'] := by
  rw [scriptSep]
  split
  · exact .inr (.inr rfl)
  · split
    · exact .inr (.inl rfl)
    · exact .inl rfl

theorem scriptSep_ne_nil (hgaps : j.gaps ≠ []) (h : needSpace j.front.last j.back.first = true) :
    scriptSep j ≠ [] := by
  rw [scriptSep, h, List.isEmpty_eq_false_iff.mpr hgaps]
  split
  · exact List.cons_ne_nil _ _
  · exact List.cons_ne_nil _ _

theorem needSpace_of_clash {a b : Char} (h : (a, b) ∈ clashes) : needSpace a b = true := by
  have hall : ∀ p ∈ clashes, needSpace p.1 p.2 = true := by decide
  exact hall (a, b) h

theorem SpelledAs.isScriptWord_ends (h : SpelledAs .word l.text) :
    isScriptWord l.first = true ∧ isScriptWord l.last = true := by
  cases h with
  | word hne h =>
    exact ⟨h _ (List.mem_of_mem_head? (Lexeme.head?_eq hne)),
      h _ (List.mem_of_mem_getLast? (Lexeme.getLast?_eq hne))⟩

/-- **What is left of a gap keeps the neighbours apart.** -/
theorem Joint.IsRead.keptApart (h : j.IsRead) (hfront : SpelledAs j.front.kind j.front.text) :
    j.KeptApart (scriptSep j) where
  shape := scriptSep_shape j
  adjacent hnil := by
    rw [scriptSep, hnil]
    rfl
  words hword hword' := by
    rw [hword] at hfront
    have hback := h.back
    rw [hword'] at hback
    have hends := hback.isScriptWord_ends.1
    refine scriptSep_ne_nil (fun hnil => ?_) ?_
    · exact nomatch ((h.ends hnil).word hword).symm.trans hends
    · rw [needSpace, hfront.isScriptWord_ends.2, hends]
      rfl
  signs hgaps hclash := scriptSep_ne_nil hgaps (needSpace_of_clash hclash)
  lineEnd := by
    rintro ⟨g, hg, hline⟩ hstays
    have hany : j.gaps.any Spacing.holdsLineEnd = true :=
      List.any_eq_true.mpr ⟨g, hg, List.contains_iff_mem.mpr hline⟩
    rw [scriptSep, hany, hstays]
    rfl

theorem spelled_of_mem_joints {row : List (List Spacing × Lexeme)} (last : Option Lexeme)
    (hlast : ∀ b ∈ last, SpelledAs b.kind b.text) (hrow : ∀ run ∈ row, SpelledAs run.2.kind run.2.text) :
    ∀ j ∈ joints last row, SpelledAs j.front.kind j.front.text := by
  induction row generalizing last with
  | nil => exact fun _ hj => nomatch hj
  | cons run row ih =>
    obtain ⟨hrun, hrow⟩ := List.forall_mem_cons.mp hrow
    have hrest := ih (some run.2) (fun b hb => Option.some.inj hb ▸ hrun) hrow
    cases last with
    | none => exact hrest
    | some b => exact List.forall_mem_cons.mpr ⟨hlast b rfl, hrest⟩

end

/-- **What compacting leaves of a script.**  The reader may go along the bytes: it reads the bytes of the
same items, and each place it gets to, and each behind ASCII characters next to it, is a boundary of the
script, so no character is cut in two.  The result has the lexemes of the script as they are written,
one behind the other and trimmed at the ends, without the comments and with nothing, a space or a line
end between neighbours: something between two words and between signs that clash, and a line end where
the gap has one and it may not go. -/
theorem compactScript_lexemes (t : Text) :
    itemsFrom none 0 (bytewise t) = onBytes (List.map Item.bytewise) (itemsFrom none 0 t) ∧
    (∀ last m v, Reaches none (bytewise t) last (m ++ v) → (∀ c ∈ m, c.toNat < 0x80) →
      IsBoundary t (size t - v.length)) ∧
    ∀ u, compactScript t = .ok u → (∃ parts, ReadsScript none t parts) ∧
      ∀ parts, ReadsScript none t parts → readScript t = .ok (parts.map partItem) ∧
        u = trim (spread scriptSep Lexeme.text none (runs [] parts)) ∧
        ∀ j ∈ joints none (runs [] parts), j.KeptApart (scriptSep j) := by
  refine ⟨itemsFrom_bytewise none t, fun last m v hreaches => ?_, fun u hu => ?_⟩
  · have hreaches : Reaches (Option.map Lexeme.bytewise none) (bytewise t) last (m ++ v) := hreaches
    exact isBoundary_of_reaches hreaches
  obtain ⟨parts, hparts, -⟩ := compactScript_eq_ok_iff.mp hu
  refine ⟨⟨parts, hparts⟩, fun parts hparts => ?_⟩
  refine ⟨readScript_eq_ok_iff.mpr ⟨parts, hparts, rfl⟩,
    Except.ok.inj (hu.symm.trans (compactScript_eq_ok_iff.mpr ⟨parts, hparts, rfl⟩)), fun j hj => ?_⟩
  have hread := isRead_of_readsScript hparts (GapsPassed.none t) fun _ _ hb => nomatch hb
  refine (hread j hj).keptApart (spelled_of_mem_joints none (fun _ hb => nomatch hb)
    (fun run hrun => ?_) j hj)
  exact spelled_of_readsScript hparts _ (tokens_eq [] parts ▸ List.mem_map_of_mem (f := (·.2)) hrun)

/-- lexemes of each kind, comments with and without a line end, and text outside ASCII -/
def mixedScript : Text :=
  "let é = a /*\n*/ + +b // c\nreturn /[/]x/g ; 'ü' /* */ \x60$\x7b '\x7d' \x7d\x60".toList

def mixedCompact : Text := "let é=a\n+ +b\nreturn/[/]x/g;'ü'\x60$\x7b '\x7d' \x7d\x60".toList

theorem compactScript_lexemes_mixed : compactScript mixedScript = .ok mixedCompact ∧
    ∃ parts, ReadsScript none mixedScript parts ∧
      mixedCompact = trim (spread scriptSep Lexeme.text none (runs [] parts)) := by
  have hcompact : compactScript mixedScript = .ok mixedCompact := by cbv
  obtain ⟨⟨parts, hparts⟩, hall⟩ := (compactScript_lexemes mixedScript).2.2 _ hcompact
  exact ⟨hcompact, parts, hparts, (hall parts hparts).2.1⟩

end SiteBundle
