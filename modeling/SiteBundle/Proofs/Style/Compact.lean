import SiteBundle.Proofs.Text.Findings
import SiteBundle.Proofs.Text.Joints
import SiteBundle.Proofs.Text.Literals
import SiteBundle.Style.Compact

/-!
# What compacting leaves of a stylesheet

A stylesheet is read as strings, single characters and the gaps between them, white space and comments
(`ReadsStyle`).  It is compacted if it can be read, which needs every string and every comment to be
closed, and refused otherwise (`compactStyle_eq_ok_iff`).

The compact stylesheet has the same strings and characters.  White space between two of them leaves one
space, unless one of them is punctuation that needs none (`styleSep`); a comment leaves nothing.  So
neighbours that only comments part are glued (`Joint.IsGlued`), where a space for every gap
(`gapSep`) would keep them apart; and what is left is read as the same strings and characters exactly if
no slash is glued to a star (`exists_readsStyle_iff`).
-/

namespace SiteBundle

open Text

/-! ## reading a stylesheet -/

/-- what stands between the strings and characters of a stylesheet -/
inductive StyleGap where
  | blank (c : Char)
  /-- a comment, with what stands behind its opening mark -/
  | comment (rest : Text)

/-- a character, or a string with what stands behind its opening quote -/
inductive StyleToken where
  | char (c : Char)
  | string (quote : Char) (rest : Text)

def StyleGap.isBlank : StyleGap → Bool
  | .blank _ => true
  | .comment _ => false

def StyleToken.text : StyleToken → Text
  | .char c => [c]
  | .string quote rest => quote :: rest

/-- the character at either end -/
def StyleToken.edge : StyleToken → Char
  | .char c => c
  | .string quote _ => quote

/-- the text is a stylesheet of these parts; a slash before a star is no character of its own -/
inductive ReadsStyle : Text → List (StyleGap ⊕ StyleToken) → Prop
  | done : ReadsStyle [] []
  | blank {c : Char} {t : Text} {parts : List (StyleGap ⊕ StyleToken)} (h : isStyleGap c = true)
      (rest : ReadsStyle t parts) : ReadsStyle (c :: t) (.inl (.blank c) :: parts)
  | comment {m t : Text} {parts : List (StyleGap ⊕ StyleToken)} (h : CommentRest m)
      (rest : ReadsStyle t parts) : ReadsStyle ('/' :: '*' :: (m ++ t)) (.inl (.comment m) :: parts)
  | string {quote : Char} {m t : Text} {parts : List (StyleGap ⊕ StyleToken)}
      (hquote : quote = '"' ∨ quote = '\'') (h : StringRest quote m) (rest : ReadsStyle t parts) :
      ReadsStyle (quote :: (m ++ t)) (.inr (.string quote m) :: parts)
  | char {c : Char} {t : Text} {parts : List (StyleGap ⊕ StyleToken)} (hgap : isStyleGap c = false)
      (hquote : ¬ (c = '"' ∨ c = '\'')) (hslash : c = '/' → t.head? ≠ some '*')
      (rest : ReadsStyle t parts) : ReadsStyle (c :: t) (.inr (.char c) :: parts)

theorem isQuoteMark_of_quote {quote : Char} (h : quote = '"' ∨ quote = '\'') : IsQuoteMark quote := by
  rcases h with rfl | rfl
  · exact ⟨by decide, by decide⟩
  · exact ⟨by decide, by decide⟩

section
variable {c quote : Char} {t m rest : Text} {parts : List (StyleGap ⊕ StyleToken)}

theorem islet?_comment (h : CommentRest m) (t : Text) :
    ∃ inside, islet? ('/' :: '*' :: (m ++ t)) = some (.comment inside, t) := by
  obtain ⟨inside, rfl, hno⟩ := h
  refine ⟨inside, ?_⟩
  rw [islet?, seek_comment_eq_some_iff.mpr ⟨rfl, List.append_assoc _ _ _, hno⟩]
  rfl

theorem islet?_string (hquote : quote = '"' ∨ quote = '\'') (h : StringRest quote m) (t : Text) :
    islet? (quote :: (m ++ t)) = some (.quoted quote m, t) := by
  have hread := h.read (isQuoteMark_of_quote hquote) t
  rcases hquote with rfl | rfl
  · rw [islet?, hread]
  · rw [islet?, hread]

/-- no comment and no string begins here -/
theorem islet?_eq_none_iff : islet? (c :: t) = none ↔
    ¬ (c = '"' ∨ c = '\'') ∧ (c = '/' → t.head? ≠ some '*') := by
  constructor
  · intro h
    refine ⟨?_, ?_⟩
    · rintro (rfl | rfl)
      · rw [islet?] at h
        split at h
        · exact nomatch h
        · exact nomatch h
      · rw [islet?] at h
        split at h
        · exact nomatch h
        · exact nomatch h
    · rintro rfl hhead
      obtain ⟨r, rfl⟩ := List.head?_eq_some_iff.mp hhead
      rw [islet?] at h
      split at h
      · exact nomatch h
      · exact nomatch h
  · rintro ⟨hquote, hslash⟩
    unfold islet?
    split
    · rename_i heq
      obtain ⟨rfl, rfl⟩ := List.cons.inj heq
      exact absurd rfl (hslash rfl)
    · rename_i heq
      exact absurd (.inl (List.cons.inj heq).1) hquote
    · rename_i heq
      exact absurd (.inr (List.cons.inj heq).1) hquote
    · rfl

/-- what is found is a comment or a string, closed or not -/
theorem islet?_cases {a : Islet} (h : islet? (c :: t) = some (a, rest)) :
    (∃ what, a = .unclosed what) ∨
    (∃ m, c :: t = '/' :: '*' :: (m ++ rest) ∧ CommentRest m) ∨
    ∃ quote m, c :: t = quote :: (m ++ rest) ∧ (quote = '"' ∨ quote = '\'') ∧
      StringRest quote m := by
  unfold islet? at h
  split at h
  · rename_i heq
    rw [heq]
    split at h
    · rename_i inside mark rest hseek
      obtain ⟨rfl, rfl, hno⟩ := seek_comment_eq_some_iff.mp hseek
      cases h
      exact .inr (.inl ⟨inside ++ ['*', '/'], by rw [List.append_assoc]; rfl, inside, rfl, hno⟩)
    · cases h
      exact .inl ⟨_, rfl⟩
  · rename_i heq
    rw [heq]
    split at h
    · rename_i m rest hread
      obtain ⟨rfl, hm⟩ := stringRest_of_read hread
      cases h
      exact .inr (.inr ⟨'"', m, rfl, .inl rfl, hm⟩)
    · cases h
      exact .inl ⟨_, rfl⟩
  · rename_i heq
    rw [heq]
    split at h
    · rename_i m rest hread
      obtain ⟨rfl, hm⟩ := stringRest_of_read hread
      cases h
      exact .inr (.inr ⟨'\'', m, rfl, .inr rfl, hm⟩)
    · cases h
      exact .inl ⟨_, rfl⟩
  · exact nomatch h

end

/-! ## writing it again -/

/-- whether one of two neighbours is punctuation that needs no space -/
def Joint.isTight (j : Joint StyleGap StyleToken) : Bool :=
  tightAfter j.front.edge || tightBefore j.back.edge

/-- what is left of a gap: of white space one space, where the neighbours need it -/
def styleSep (j : Joint StyleGap StyleToken) : Text :=
  if j.gaps.any StyleGap.isBlank && !j.isTight then [' '] else []

/-- one space for every gap where the neighbours need it -/
def gapSep (j : Joint StyleGap StyleToken) : Text :=
  if !j.gaps.isEmpty && !j.isTight then [' '] else []

/-- neighbours that only comments part, and that need a space to stay apart -/
structure Joint.IsGlued (j : Joint StyleGap StyleToken) : Prop where
  apart : j.gaps ≠ []
  comments : ∀ g ∈ j.gaps, g.isBlank = false
  loose : j.isTight = false

section
variable {j : Joint StyleGap StyleToken} {t u : Text} {parts : List (StyleGap ⊕ StyleToken)}

theorem styleSep_eq (last a : StyleToken) (gaps : List StyleGap) : styleSep ⟨last, gaps, a⟩ =
    styleGap (some last.edge) (gaps.any StyleGap.isBlank) a.edge := by
  unfold styleSep styleGap Joint.isTight
  cases gaps.any StyleGap.isBlank with
  | false => rfl
  | true =>
    dsimp only
    cases tightAfter last.edge || tightBefore a.edge with
    | false => rfl
    | true => rfl

theorem styleSep_eq_gapSep (h : ¬ j.IsGlued) : styleSep j = gapSep j := by
  unfold styleSep gapSep
  cases htight : j.isTight with
  | true => rw [Bool.not_true, Bool.and_false, Bool.and_false]
  | false =>
    have hblank : j.gaps.any StyleGap.isBlank = !j.gaps.isEmpty := by
      rw [Bool.eq_iff_iff, List.any_eq_true, Bool.not_eq_true', List.isEmpty_eq_false_iff]
      constructor
      · rintro ⟨g, hg, -⟩
        exact List.ne_nil_of_mem hg
      · refine fun hne => Decidable.byContradiction fun hno => h ⟨hne, fun g hg => ?_, htight⟩
        exact Bool.eq_false_iff.mpr fun hblank => hno ⟨g, hg, hblank⟩
    rw [hblank]

/-- what a gap leaves is nothing or one space -/
theorem styleSep_cases (j : Joint StyleGap StyleToken) : styleSep j = [] ∨ styleSep j = [' '] := by
  unfold styleSep
  split
  · exact .inr rfl
  · exact .inl rfl

/-- the pieces of a stylesheet are all closed, and written with what is left of the gaps -/
theorem writeStyle_eq (h : ReadsStyle t parts) (s : Spot) (last : Option StyleToken)
    (gaps : List StyleGap) :
    (∀ o what, Piece.found o (.unclosed what) ∉ piecesFrom (fun _ => islet?) s 0 t) ∧
    writeStyle (last.map StyleToken.edge) (gaps.any StyleGap.isBlank)
      (piecesFrom (fun _ => islet?) s 0 t) =
        spread styleSep StyleToken.text last (runs gaps parts) := by
  induction h generalizing s last gaps with
  | done => exact ⟨fun o what => List.not_mem_nil, rfl⟩
  | @blank c t parts hgap _ ih =>
    have hnone : islet? (c :: t) = none := by
      simp only [isStyleGap, Bool.or_eq_true, beq_iff_eq] at hgap
      refine islet?_eq_none_iff.mpr ⟨?_, ?_⟩
      · rintro (rfl | rfl)
        · exact absurd hgap (by decide)
        · exact absurd hgap (by decide)
      · rintro rfl
        exact absurd hgap (by decide)
    obtain ⟨hclosed, hwrite⟩ := ih (s.next c) last (gaps ++ [.blank c])
    rw [List.any_append] at hwrite
    rw [piecesFrom_none hnone, writeStyle, if_pos hgap]
    refine ⟨fun o what hmem => hclosed o what ((List.mem_cons.mp hmem).resolve_left nofun), ?_⟩
    rw [runs, ← hwrite]
    congr 1
    exact (Bool.or_true _).symm
  | @comment m t parts hm _ ih =>
    obtain ⟨inside, hread⟩ := islet?_comment hm t
    obtain ⟨hclosed, hwrite⟩ := ih (s.over ('/' :: '*' :: m)) last (gaps ++ [.comment m])
    have hgaps : gaps.any StyleGap.isBlank =
        (gaps ++ [StyleGap.comment m]).any StyleGap.isBlank := by
      rw [List.any_append]
      exact (Bool.or_false _).symm
    have hpieces := piecesFrom_found (p := fun _ => islet?) (s := s) (List.cons_ne_nil '/' ('*' :: m))
      hread
    rw [List.cons_append, List.cons_append] at hpieces
    rw [hpieces, writeStyle, hgaps, runs]
    exact ⟨fun o what hmem => hclosed o what ((List.mem_cons.mp hmem).resolve_left nofun), hwrite⟩
  | @string quote m t parts hquote hm _ ih =>
    obtain ⟨hclosed, hwrite⟩ := ih (s.over (quote :: m)) (some (.string quote m)) []
    have hpieces := piecesFrom_found (p := fun _ => islet?) (s := s) (List.cons_ne_nil quote m)
      (islet?_string hquote hm t)
    rw [List.cons_append] at hpieces
    rw [hpieces, writeStyle, runs]
    refine ⟨fun o what hmem => hclosed o what ((List.mem_cons.mp hmem).resolve_left nofun), ?_⟩
    have hwrite : writeStyle (some quote) false
        (piecesFrom (fun _ => islet?) (s.over (quote :: m)) 0 t) = _ := hwrite
    rw [hwrite]
    cases last with
    | none => rw [spread]; cases gaps.any StyleGap.isBlank <;> rfl
    | some b => rw [spread, styleSep_eq, List.append_assoc]; rfl
  | @char c t parts hgap hquote hslash _ ih =>
    obtain ⟨hclosed, hwrite⟩ := ih (s.next c) (some (.char c)) []
    rw [piecesFrom_none (islet?_eq_none_iff.mpr ⟨hquote, hslash⟩), writeStyle,
      if_neg (Bool.eq_false_iff.mp hgap), runs]
    refine ⟨fun o what hmem => hclosed o what ((List.mem_cons.mp hmem).resolve_left nofun), ?_⟩
    have hwrite : writeStyle (some c) false (piecesFrom (fun _ => islet?) (s.next c) 0 t) = _ := hwrite
    rw [hwrite]
    cases last with
    | none => rw [spread]; cases gaps.any StyleGap.isBlank <;> rfl
    | some b => rw [spread, styleSep_eq]; rfl

/-- a stylesheet whose strings and comments are closed can be read -/
theorem exists_readsStyle (s : Spot) (t : Text)
    (h : ∀ o what, Piece.found o (.unclosed what) ∉ piecesFrom (fun _ => islet?) s 0 t) :
    ∃ parts, ReadsStyle t parts := by
  induction hn : t.length using Nat.strongRecOn generalizing s t with
  | _ n ih =>
    cases t with
    | nil => exact ⟨[], .done⟩
    | cons c t =>
      cases hread : islet? (c :: t) with
      | none =>
        rw [piecesFrom_none hread] at h
        obtain ⟨parts, hparts⟩ := ih t.length (by rw [← hn]; exact Nat.lt_succ_self _) (s.next c) t
          (fun o what hmem => h o what (List.mem_cons_of_mem _ hmem)) rfl
        obtain ⟨hquote, hslash⟩ := islet?_eq_none_iff.mp hread
        cases hgap : isStyleGap c with
        | true => exact ⟨_, .blank hgap hparts⟩
        | false => exact ⟨_, .char hgap hquote hslash hparts⟩
      | some found =>
        obtain ⟨a, rest⟩ := found
        -- what is found is closed, and the rest is shorter
        have hrest : ∀ {m : Text}, m ≠ [] → c :: t = m ++ rest →
            ∃ parts, ReadsStyle rest parts := by
          intro m hm heq
          rw [heq] at hread h hn
          rw [piecesFrom_found hm hread] at h
          have hlen := List.length_pos_iff.mpr hm
          exact ih rest.length (by rw [← hn, List.length_append]; omega) (s.over m) rest
            (fun o what hmem => h o what (List.mem_cons_of_mem _ hmem)) rfl
        rcases islet?_cases hread with ⟨what, rfl⟩ | ⟨m, heq, hm⟩ | ⟨quote, m, heq, hquote, hm⟩
        · rw [piecesFrom, hread] at h
          exact absurd List.mem_cons_self (h s.offset what)
        · obtain ⟨parts, hparts⟩ := hrest (m := '/' :: '*' :: m) (List.cons_ne_nil _ _) heq
          rw [heq]
          exact ⟨_, .comment hm hparts⟩
        · obtain ⟨parts, hparts⟩ := hrest (m := quote :: m) (List.cons_ne_nil _ _) heq
          rw [heq]
          exact ⟨_, .string hquote hm hparts⟩

theorem styleFault?_eq_none_iff : styleFault? t = none ↔
    ∀ o what, Piece.found o (.unclosed what) ∉ stylePieces t := by
  rw [styleFault?, List.findSome?_eq_none_iff]
  constructor
  · intro h o what hmem
    exact nomatch h _ hmem
  · intro h piece hmem
    match piece with
    | .plain _ => rfl
    | .found _ (.comment _) => rfl
    | .found _ (.quoted _ _) => rfl
    | .found o (.unclosed what) => exact absurd hmem (h o what)

/-- **A stylesheet that can be read is compacted, and no other one is.** -/
theorem compactStyle_eq_ok_iff : compactStyle t = .ok u ↔ ∃ parts, ReadsStyle t parts ∧
    u = trim (spread styleSep StyleToken.text none (runs [] parts)) := by
  unfold compactStyle
  constructor
  · intro h
    split at h
    · exact nomatch h
    · rename_i hfault
      obtain ⟨parts, hparts⟩ := exists_readsStyle .start t (styleFault?_eq_none_iff.mp hfault)
      refine ⟨parts, hparts, ?_⟩
      rw [← (writeStyle_eq hparts .start none []).2]
      exact (Except.ok.inj h).symm
  · rintro ⟨parts, hparts, rfl⟩
    obtain ⟨hclosed, hwrite⟩ := writeStyle_eq hparts .start none []
    rw [styleFault?_eq_none_iff.mpr hclosed, ← hwrite]
    rfl

/-! ## reading it again -/

/-- a slash and a star that only comments part -/
structure Joint.OpensComment (j : Joint StyleGap StyleToken) : Prop where
  glued : j.IsGlued
  front : j.front = .char '/'
  back : j.back = .char '*'

/-- what a stylesheet has for a string or a character -/
def StyleToken.IsRead : StyleToken → Prop
  | .char c => isStyleGap c = false ∧ ¬ (c = '"' ∨ c = '\'')
  | .string quote rest => (quote = '"' ∨ quote = '\'') ∧ StringRest quote rest

theorem isRead_of_mem_tokens (h : ReadsStyle t parts) : ∀ a ∈ tokens parts, a.IsRead := by
  induction h with
  | done => exact fun _ ha => nomatch ha
  | blank _ _ ih => exact ih
  | comment _ _ ih => exact ih
  | string hquote hm _ ih => exact List.forall_mem_cons.mpr ⟨⟨hquote, hm⟩, ih⟩
  | char hgap hquote _ _ ih => exact List.forall_mem_cons.mpr ⟨⟨hgap, hquote⟩, ih⟩

/-- a slash is not followed by a star at once -/
theorem apart_of_readsStyle (h : ReadsStyle t parts) {last : Option StyleToken}
    {gaps : List StyleGap}
    (hlast : gaps = [] → ∀ b ∈ last, b = .char '/' → t.head? ≠ some '*') :
    ∀ j ∈ joints last (runs gaps parts), j.front = .char '/' → j.back = .char '*' → j.gaps ≠ [] := by
  have hnext : ∀ {b : Option StyleToken} {g : StyleGap} {gaps : List StyleGap} {t : Text},
      gaps ++ [g] = [] → ∀ a ∈ b, a = .char '/' → t.head? ≠ some '*' :=
    fun hnil => absurd hnil (List.append_ne_nil_of_right_ne_nil _ (List.cons_ne_nil _ _))
  induction h generalizing last gaps with
  | done => exact fun _ hj => nomatch hj
  | blank _ _ ih => exact ih hnext
  | comment _ _ ih => exact ih hnext
  | @string quote m t parts hquote _ _ ih =>
    have hrest := @ih (some (.string quote m)) [] fun _ b hb => by
      obtain rfl := Option.some.inj hb
      exact nofun
    cases last with
    | none => exact hrest
    | some b => exact List.forall_mem_cons.mpr ⟨fun _ => nofun, hrest⟩
  | @char c t parts _ _ hslash _ ih =>
    have hrest := @ih (some (.char c)) [] fun _ b hb => by
      obtain rfl := Option.some.inj hb
      exact fun heq => hslash (StyleToken.char.inj heq)
    cases last with
    | none => exact hrest
    | some b =>
      refine List.forall_mem_cons.mpr ⟨fun hfront hback hnil => ?_, hrest⟩
      exact hlast hnil b rfl hfront (congrArg some (StyleToken.char.inj hback))

/-- a slash and a star are written one behind the other only if comments alone part them -/
theorem opensComment_of_styleSep (hapart : j.gaps ≠ []) (hfront : j.front = .char '/')
    (hback : j.back = .char '*') (hsep : styleSep j = []) : j.OpensComment := by
  have htight : j.isTight = false := by
    rw [Joint.isTight, hfront, hback]
    rfl
  refine ⟨⟨hapart, fun g hg => Bool.eq_false_iff.mpr fun hblank => ?_, htight⟩, hfront, hback⟩
  have hany : j.gaps.any StyleGap.isBlank = true := List.any_eq_true.mpr ⟨g, hg, hblank⟩
  rw [styleSep, htight, hany] at hsep
  exact nomatch hsep

/-- what is left of a gap, in front of something that can be read, is read as white space -/
theorem readsStyle_styleSep (j : Joint StyleGap StyleToken) (h : ReadsStyle t parts) :
    ∃ parts', ReadsStyle (styleSep j ++ t) parts' ∧ tokens parts' = tokens parts ∧
      ∀ m, Sum.inl (.comment m) ∈ parts' → Sum.inl (.comment m) ∈ parts := by
  rcases styleSep_cases j with hsep | hsep
  · rw [hsep]
    exact ⟨parts, h, rfl, fun _ => id⟩
  · rw [hsep]
    exact ⟨_, .blank rfl h, rfl, fun m hm => (List.mem_cons.mp hm).resolve_left nofun⟩

/-- **Strings and characters written one behind the other are read as themselves** when no slash is
followed by a star. -/
theorem exists_readsStyle_spread {a : StyleToken} {row : List (List StyleGap × StyleToken)}
    (ha : a.IsRead) (hrow : ∀ run ∈ row, run.2.IsRead)
    (hsep : ∀ j ∈ joints (some a) row, j.front = .char '/' → j.back = .char '*' → styleSep j ≠ []) :
    ∃ parts, ReadsStyle (a.text ++ spread styleSep StyleToken.text (some a) row) parts ∧
      tokens parts = a :: row.map (·.2) ∧ ∀ m, Sum.inl (.comment m) ∉ parts := by
  -- the token in front of the others
  have hfirst : ∀ {a : StyleToken} {t : Text} {parts : List (StyleGap ⊕ StyleToken)}, a.IsRead →
      (a = .char '/' → t.head? ≠ some '*') → ReadsStyle t parts →
      ReadsStyle (a.text ++ t) (.inr a :: parts) := by
    intro a t parts ha hslash h
    match a with
    | .char c => exact .char ha.1 ha.2 (fun hc => hslash (congrArg _ hc)) h
    | .string quote m => exact .string ha.1 ha.2 h
  have hcomment : ∀ {a : StyleToken} {parts : List (StyleGap ⊕ StyleToken)},
      (∀ m, Sum.inl (.comment m) ∉ parts) → ∀ m, Sum.inl (.comment m) ∉ .inr a :: parts :=
    fun h m hm => h m ((List.mem_cons.mp hm).resolve_left nofun)
  induction row generalizing a with
  | nil => exact ⟨_, hfirst ha (fun _ => nofun) .done, rfl, hcomment fun _ => List.not_mem_nil⟩
  | cons run row ih =>
    obtain ⟨gaps, b⟩ := run
    obtain ⟨hb, hrow⟩ := List.forall_mem_cons.mp hrow
    obtain ⟨hj, hsep⟩ := List.forall_mem_cons.mp hsep
    obtain ⟨parts, hparts, htokens, hfree⟩ := ih hb hrow hsep
    obtain ⟨parts', hparts', htokens', hfree'⟩ := readsStyle_styleSep ⟨a, gaps, b⟩ hparts
    rw [spread_some]
    refine ⟨_, hfirst ha ?_ hparts', ?_, hcomment fun m hm => hfree m (hfree' m hm)⟩
    · rintro rfl hhead
      rcases styleSep_cases ⟨.char '/', gaps, b⟩ with hnil | hspace
      · rw [hnil] at hhead
        match b, hb with
        | .char c, _ =>
          obtain rfl : c = '*' := Option.some.inj hhead
          exact hj rfl rfl hnil
        | .string quote m, hb =>
          obtain rfl : quote = '*' := Option.some.inj hhead
          exact absurd hb.1 (by decide)
      · rw [hspace] at hhead
        exact absurd (Option.some.inj hhead) (by decide)
    · exact congrArg (a :: ·) (htokens'.trans htokens)

/-- reading the tokens again, a slash before a star would open a comment -/
theorem styleSep_ne_nil_of_readsStyle {a : StyleToken} {row : List (List StyleGap × StyleToken)}
    (ha : a.IsRead) (hrow : ∀ run ∈ row, run.2.IsRead)
    (h : ReadsStyle (a.text ++ spread styleSep StyleToken.text (some a) row) parts)
    (hfree : ∀ m, Sum.inl (.comment m) ∉ parts) :
    ∀ j ∈ joints (some a) row, j.front = .char '/' → j.back = .char '*' → styleSep j ≠ [] := by
  induction row generalizing a parts with
  | nil => exact fun _ hj => nomatch hj
  | cons run row ih =>
    obtain ⟨gaps, b⟩ := run
    obtain ⟨hb, hrow⟩ := List.forall_mem_cons.mp hrow
    rw [spread_some] at h
    generalize hu : b.text ++ spread styleSep StyleToken.text (some b) row = u at h
    -- behind the first token, what is left of the gap is white space
    obtain ⟨parts', hparts', hfree', hslash⟩ : ∃ parts',
        ReadsStyle (styleSep ⟨a, gaps, b⟩ ++ u) parts' ∧ (∀ m, Sum.inl (.comment m) ∉ parts') ∧
          (a = .char '/' → (styleSep ⟨a, gaps, b⟩ ++ u).head? ≠ some '*') := by
      generalize styleSep ⟨a, gaps, b⟩ ++ u = v at h
      match a, ha with
      | .char c, ha =>
        have h : ReadsStyle (c :: v) parts := h
        cases h with
        | blank hgap => exact nomatch ha.1.symm.trans hgap
        | comment => exact absurd List.mem_cons_self (hfree _)
        | string hquote => exact absurd hquote ha.2
        | char _ _ hslash rest =>
          exact ⟨_, rest, fun m hm => hfree m (List.mem_cons_of_mem _ hm),
            fun heq => hslash (StyleToken.char.inj heq)⟩
      | .string quote m, ha =>
        have h : ReadsStyle (quote :: (m ++ v)) parts := h
        generalize hv : m ++ v = w at h
        cases h with
        | blank hgap => rcases ha.1 with rfl | rfl <;> exact nomatch hgap
        | comment => exact absurd List.mem_cons_self (hfree _)
        | @string _ m' _ _ hquote hm' rest =>
          have hread := ha.2.read (isQuoteMark_of_quote ha.1) v
          rw [hv, hm'.read (isQuoteMark_of_quote ha.1)] at hread
          cases hread
          exact ⟨_, rest, fun m hm => hfree m (List.mem_cons_of_mem _ hm), nofun⟩
        | char _ hquote => exact absurd ha.1 hquote
    have hnext : ∃ parts, ReadsStyle u parts ∧ ∀ m, Sum.inl (.comment m) ∉ parts := by
      rcases styleSep_cases ⟨a, gaps, b⟩ with hnil | hspace
      · rw [hnil] at hparts'
        exact ⟨_, hparts', hfree'⟩
      · rw [hspace] at hparts'
        cases hparts' with
        | blank _ rest => exact ⟨_, rest, fun m hm => hfree' m (List.mem_cons_of_mem _ hm)⟩
        | char hgap => exact nomatch hgap
        | string hquote => exact absurd hquote (by decide)
    obtain ⟨parts, hparts, hfree⟩ := hnext
    subst hu
    refine List.forall_mem_cons.mpr ⟨fun hfront hback hnil => ?_, ih hb hrow hparts hfree⟩
    refine hslash hfront ?_
    have hback : b = .char '*' := hback
    rw [hnil, hback]
    rfl

/-- **What is written is read as the tokens it has** exactly if no comments alone part a slash and a
star. -/
theorem exists_readsStyle_iff {row : List (List StyleGap × StyleToken)}
    (hread : ∀ run ∈ row, run.2.IsRead)
    (hapart : ∀ j ∈ joints none row, j.front = .char '/' → j.back = .char '*' → j.gaps ≠ []) :
    (∃ parts, ReadsStyle (spread styleSep StyleToken.text none row) parts ∧
      tokens parts = row.map (·.2) ∧ ∀ m, Sum.inl (.comment m) ∉ parts) ↔
    ∀ j ∈ joints none row, ¬ j.OpensComment := by
  cases row with
  | nil => exact ⟨fun _ _ hj => (nomatch hj), fun _ => ⟨[], .done, rfl, fun _ => List.not_mem_nil⟩⟩
  | cons run row =>
    obtain ⟨gaps, a⟩ := run
    obtain ⟨ha, hrow⟩ := List.forall_mem_cons.mp hread
    constructor
    · rintro ⟨parts, hparts, -, hfree⟩ j hj hopens
      have hsep := styleSep_ne_nil_of_readsStyle ha hrow hparts hfree j hj hopens.front hopens.back
      have hblank : j.gaps.any StyleGap.isBlank = false :=
        List.any_eq_false.mpr fun g hg => Bool.eq_false_iff.mp (hopens.glued.comments g hg)
      rw [styleSep, hblank] at hsep
      exact hsep rfl
    · intro hno
      refine exists_readsStyle_spread ha hrow fun j hj hfront hback hsep => ?_
      exact hno j hj (opensComment_of_styleSep (hapart j hj hfront hback) hfront hback hsep)

/-- whether a token is trimmed at the ends of a stylesheet -/
def StyleToken.isWhite : StyleToken → Bool
  | .char c => isBlank c
  | .string _ _ => false

theorem StyleToken.IsRead.trims {a : StyleToken} (h : a.IsRead) :
    Trims StyleToken.isWhite StyleToken.text a := by
  match a, h with
  | .char c, _ =>
    refine ⟨fun hblank d hd => ?_, fun hblank => ⟨List.cons_ne_nil _ _, fun d hd => ?_, fun d hd => ?_⟩⟩
    · rw [List.mem_singleton.mp hd]
      exact hblank
    · rw [← Option.some.inj hd]
      exact hblank
    · rw [← Option.some.inj hd]
      exact hblank
  | .string quote m, ⟨hquote, hm⟩ =>
    obtain ⟨inside, rfl⟩ := hm.ends
    have hblank : isBlank quote = false := by rcases hquote with rfl | rfl <;> rfl
    refine ⟨nofun, fun _ => ⟨List.cons_ne_nil _ _, fun d hd => ?_, fun d hd => ?_⟩⟩
    · rw [← Option.some.inj hd]
      exact hblank
    · rw [StyleToken.text, ← List.cons_append, List.getLast?_concat] at hd
      rw [← Option.some.inj hd]
      exact hblank

theorem isBlank_of_mem_styleSep (j : Joint StyleGap StyleToken) : ∀ c ∈ styleSep j, isBlank c = true := by
  rcases styleSep_cases j with hsep | hsep
  · rw [hsep]
    exact fun _ hc => nomatch hc
  · rw [hsep]
    exact List.forall_mem_singleton.mpr rfl

end

/-- **What compacting leaves of a stylesheet.**  The result has the strings and characters of the
stylesheet, one behind the other and trimmed at the ends.  Between two neighbours it has one space if
white space parts them and neither is punctuation that needs none, and nothing otherwise.  Where no
neighbours are glued, this is one space for every gap but next to such punctuation.  The result is read
as the same strings and characters again, without a comment, exactly if no comments alone part a slash
and a star. -/
theorem compactStyle_parts {t u : Text} (h : compactStyle t = .ok u) :
    (∃ parts, ReadsStyle t parts) ∧ ∀ parts, ReadsStyle t parts →
      u = trim (spread styleSep StyleToken.text none (runs [] parts)) ∧
      ((∀ j ∈ joints none (runs [] parts), ¬ j.IsGlued) →
        u = trim (spread gapSep StyleToken.text none (runs [] parts))) ∧
      ((∃ parts', ReadsStyle u parts' ∧
          tokens parts' = (bare StyleToken.isWhite (runs [] parts)).map (·.2) ∧
          ∀ m, Sum.inl (.comment m) ∉ parts') ↔
        ∀ j ∈ joints none (runs [] parts), ¬ j.OpensComment) := by
  obtain ⟨parts, hparts, -⟩ := compactStyle_eq_ok_iff.mp h
  refine ⟨⟨parts, hparts⟩, fun parts hparts => ?_⟩
  obtain rfl := Except.ok.inj (h.symm.trans (compactStyle_eq_ok_iff.mpr ⟨parts, hparts, rfl⟩))
  have hread : ∀ run ∈ runs [] parts, run.2.IsRead := fun run hrun =>
    isRead_of_mem_tokens hparts _ (tokens_eq [] parts ▸ List.mem_map_of_mem (f := (·.2)) hrun)
  have hapart := @apart_of_readsStyle t parts hparts none [] fun _ _ => nofun
  refine ⟨rfl, fun hno => ?_, ?_⟩
  · rw [spread_congr fun j hj => styleSep_eq_gapSep (hno j hj)]
  · rw [trim_spread isBlank_of_mem_styleSep fun run hrun => (hread run hrun).trims,
      exists_readsStyle_iff (fun run hrun => hread run (mem_of_mem_bare hrun))
        fun j hj => hapart j (mem_joints_bare.1 hj)]
    refine ⟨fun hno j hj hopens => ?_, fun hno j hj => hno j (mem_joints_bare.1 hj)⟩
    -- neither the slash nor the star is trimmed
    refine hno j (mem_joints_bare.2 ?_ ?_ hj) hopens
    · rw [hopens.front]
      rfl
    · rw [hopens.back]
      rfl

/-- gaps of both kinds, next to strings, characters and punctuation -/
def mixedGaps : Text := "a /* c */ b\x7b /**/ c :'x  y'/**/;\x7d/**/".toList

theorem compactStyle_parts_mixedGaps :
    compactStyle mixedGaps = .ok "a b\x7bc :'x  y';\x7d".toList ∧
    ∃ parts, ReadsStyle mixedGaps parts ∧
      "a b\x7bc :'x  y';\x7d".toList = trim (spread styleSep StyleToken.text none (runs [] parts)) := by
  have hcompact : compactStyle mixedGaps = .ok "a b\x7bc :'x  y';\x7d".toList := rfl
  obtain ⟨⟨parts, hparts⟩, hall⟩ := compactStyle_parts hcompact
  exact ⟨hcompact, parts, hparts, (hall parts hparts).1⟩

/-- a comment between two names does not keep them apart -/
theorem compactStyle_glues : ¬ ∀ t u parts, compactStyle t = .ok u → ReadsStyle t parts →
    u = trim (spread gapSep StyleToken.text none (runs [] parts)) := by
  intro h
  have hcomment : CommentRest ['*', '/'] := ⟨[], rfl, fun hin => absurd hin.length_le (by decide)⟩
  have hread : ReadsStyle "a/**/b".toList
      [.inr (.char 'a'), .inl (.comment ['*', '/']), .inr (.char 'b')] :=
    .char rfl (by decide) (by decide) (.comment hcomment (.char rfl (by decide) (by decide) .done))
  exact absurd (h "a/**/b".toList "ab".toList _ rfl hread) (by decide)

end SiteBundle
