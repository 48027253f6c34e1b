import SiteBundle.Fault
import SiteBundle.Proofs.Text.Reading

/-!
# Strings and comments of code

Scripts and stylesheets have the same strings and the same comments.  What may stand behind the opening
mark, through the closing one, is told on its own:

* `StringRest q m`   `m` is the rest of a string in quotes `q`;
* `CommentRest m`    `m` is the rest of a comment: it ends with the first `*/`;
* `StringRest.read`, `stringRest_of_read`, `seek_comment_eq_some_iff`   the readers take exactly these.
-/

namespace SiteBundle

open Text

/-! ## strings -/

/-- the rest of a string behind its opening quote: a backslash takes the next character along, and no
line ends without one -/
inductive StringRest (quote : Char) : Text → Prop
  | close : StringRest quote [quote]
  | escape {m : Text} (c : Char) (h : StringRest quote m) : StringRest quote ('\\' :: c :: m)
  | plain {c : Char} {m : Text} (hescape : c ≠ '\\') (hline : c ≠ '\n') (hquote : c ≠ quote)
      (h : StringRest quote m) : StringRest quote (c :: m)

/-- a quote neither escapes nor ends a line -/
structure IsQuoteMark (quote : Char) : Prop where
  escape : quote ≠ '\\'
  line : quote ≠ '\n'

section
variable {quote c : Char} {m t rest : Text}

/-- a character that is no backslash, in front of the rest of a string -/
theorem quotedRest?_cons (h : c ≠ '\\') (t : Text) : quotedRest? quote (c :: t) =
    if c = '\n' then none
    else if c = quote then some ([c], t)
    else (quotedRest? quote t).map fun p => (c :: p.1, p.2) := by
  rw [quotedRest?]
  · rintro rfl
    exact absurd rfl h
  · rintro d r rfl
    exact absurd rfl h

theorem StringRest.read (hquote : IsQuoteMark quote) (h : StringRest quote m) (rest : Text) :
    quotedRest? quote (m ++ rest) = some (m, rest) := by
  induction h with
  | close =>
    rw [List.singleton_append, quotedRest?_cons hquote.escape, if_neg hquote.line, if_pos rfl]
  | escape c _ ih =>
    rw [List.cons_append, List.cons_append, quotedRest?, ih]
    rfl
  | plain hescape hline hne _ ih =>
    rw [List.cons_append, quotedRest?_cons hescape, if_neg hline, if_neg hne, ih]
    rfl

theorem stringRest_of_read (h : quotedRest? quote t = some (m, rest)) :
    t = m ++ rest ∧ StringRest quote m := by
  fun_induction quotedRest? quote t generalizing m with
  | case1 => exact nomatch h
  | case2 => exact nomatch h
  | case3 c t ih =>
    obtain ⟨⟨m, r⟩, hread, e⟩ := Option.map_eq_some_iff.mp h
    cases e
    obtain ⟨rfl, hrest⟩ := ih hread
    exact ⟨rfl, .escape c hrest⟩
  | case4 => exact nomatch h
  | case5 c t =>
    cases h
    exact ⟨rfl, .close⟩
  | case6 c t hlone hpair hline hne ih =>
    obtain ⟨⟨m, r⟩, hread, e⟩ := Option.map_eq_some_iff.mp h
    cases e
    obtain ⟨rfl, hrest⟩ := ih hread
    refine ⟨rfl, .plain ?_ hline hne hrest⟩
    rintro rfl
    cases hrest with
    | close => exact hpair _ _ rfl rfl
    | escape => exact hpair _ _ rfl rfl
    | plain => exact hpair _ _ rfl rfl

theorem StringRest.ends (h : StringRest quote m) : ∃ inside, m = inside ++ [quote] := by
  induction h with
  | close => exact ⟨[], rfl⟩
  | escape c _ ih =>
    obtain ⟨inside, rfl⟩ := ih
    exact ⟨'\\' :: c :: inside, rfl⟩
  | plain _ _ _ _ ih =>
    obtain ⟨inside, rfl⟩ := ih
    exact ⟨_ :: inside, rfl⟩

end

/-! ## comments -/

/-- the rest of a comment behind its opening mark: no earlier mark closes it -/
def CommentRest (m : Text) : Prop :=
  ∃ inside, m = inside ++ ['*', '/'] ∧ ¬ ['*', '/'] <:+: inside ++ ['*']

section
variable {inside m t rest : Text}

/-- the closing mark of a comment is read as it is written -/
theorem readFold?_commentEnd :
    readFold? ['*', '/'] t = some (m, rest) ↔ t = '*' :: '/' :: rest ∧ m = ['*', '/'] := by
  rw [readFold?_eq_some_iff]
  constructor
  · rintro ⟨rfl, hm⟩
    obtain rfl := eq_of_map_foldChar_eq hm (by decide)
    exact ⟨rfl, rfl⟩
  · rintro ⟨rfl, rfl⟩
    exact ⟨rfl, rfl⟩

/-- **The first closing mark ends a comment.** -/
theorem seek_comment_eq_some_iff : seek (readFold? ['*', '/']) t = some (inside, m, rest) ↔
    m = ['*', '/'] ∧ t = inside ++ '*' :: '/' :: rest ∧ ¬ ['*', '/'] <:+: inside ++ ['*'] := by
  constructor
  · intro h
    obtain ⟨u, rfl, hread, hbefore⟩ := none_before_of_seek h
    obtain ⟨rfl, rfl⟩ := readFold?_commentEnd.mp hread
    refine ⟨rfl, rfl, ?_⟩
    rintro ⟨front, back, heq⟩
    rcases List.eq_nil_or_concat back with rfl | ⟨back, last, rfl⟩
    · have heq : (front ++ ['*']) ++ ['/'] = inside ++ ['*'] := by
        rw [List.append_assoc, ← heq, List.append_nil]
        rfl
      exact absurd (List.append_inj' heq rfl).2 (by decide)
    · rw [List.concat_eq_append, ← List.append_assoc] at heq
      obtain ⟨rfl, -⟩ := List.append_inj' heq rfl
      have hnone := hbefore front ('*' :: '/' :: back) (List.append_assoc _ _ _)
        (List.cons_ne_nil _ _)
      exact nomatch hnone.symm.trans (readFold?_commentEnd.mpr ⟨rfl, rfl⟩)
  · rintro ⟨rfl, rfl, hno⟩
    refine seek_append (fun front back heq hne => ?_) (List.cons_ne_nil _ _)
      (readFold?_commentEnd.mpr ⟨rfl, rfl⟩)
    cases hread : readFold? ['*', '/'] (back ++ '*' :: '/' :: rest) with
    | none => rfl
    | some p =>
      obtain ⟨w, r⟩ := p
      obtain ⟨hback, -⟩ := readFold?_commentEnd.mp hread
      refine absurd ?_ hno
      match back with
      | [] => exact absurd rfl hne
      | [c] => exact absurd (List.cons.inj (List.cons.inj hback).2).1 (by decide)
      | c :: d :: back =>
        obtain ⟨rfl, htail⟩ := List.cons.inj hback
        obtain ⟨rfl, -⟩ := List.cons.inj htail
        exact ⟨front, back ++ ['*'], by rw [heq]; simp⟩

end
end SiteBundle
