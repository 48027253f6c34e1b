import SiteBundle.Proofs.Text.Literals
import SiteBundle.Script.Lexeme

/-!
# Literals of a script

What may stand behind the opening mark of a regular expression or of a template literal, through the
closing one.  In a template literal stand expressions, in these braces, strings and template literals
again; the reader keeps a stack of what is open, the grammar is told without one.

* `RegexRest c m`    `m` is the rest of a regular expression, in a class or not;
* `NestRest n m`     `m` is the rest of a template literal, or of an expression in one;
* `regexRest?_eq_some_iff`, `behindTemplate_eq_ok_iff`   the readers take exactly these.
-/

namespace SiteBundle

open Text

/-! ## regular expressions -/

/-- the rest of a regular expression behind its first slash, through the last one; `inClass` tells
whether a class is open, in which a slash closes nothing -/
inductive RegexRest : Bool → Text → Prop
  | close : RegexRest false ['/']
  | escape {inClass : Bool} {m : Text} (c : Char) (h : RegexRest inClass m) :
      RegexRest inClass ('\\' :: c :: m)
  | opens {inClass : Bool} {m : Text} (h : RegexRest true m) : RegexRest inClass ('[' :: m)
  | shuts {inClass : Bool} {m : Text} (h : RegexRest false m) : RegexRest inClass (']' :: m)
  | plain {inClass : Bool} {c : Char} {m : Text} (hescape : c ≠ '\\') (hline : c ≠ '\n')
      (hopen : c ≠ '[') (hshut : c ≠ ']') (hslash : c = '/' → inClass = true)
      (h : RegexRest inClass m) : RegexRest inClass (c :: m)

section
variable {inClass : Bool} {c : Char} {m t w flags rest : Text}

/-- a character that is no backslash, in front of the rest of a regular expression -/
theorem regexRest?_cons (h : c ≠ '\\') (t : Text) : regexRest? inClass (c :: t) =
    if c = '\n' then none
    else if c = '/' ∧ inClass = false then some (c :: t.takeWhile isLetter, t.dropWhile isLetter)
    else (regexRest? (if c = '[' then true else if c = ']' then false else inClass) t).map
      fun p => (c :: p.1, p.2) := by
  rw [regexRest?]
  · rintro rfl
    exact absurd rfl h
  · rintro d r rfl
    exact absurd rfl h

/-- letters that end before something else -/
theorem takeWhile_append_of_head {p : Char → Bool} (hflags : ∀ c ∈ flags, p c = true)
    (hrest : ∀ c ∈ rest.head?, p c = false) :
    (flags ++ rest).takeWhile p = flags ∧ (flags ++ rest).dropWhile p = rest := by
  rw [List.takeWhile_append_of_pos hflags, List.dropWhile_append_of_pos hflags]
  cases rest with
  | nil => exact ⟨List.append_nil _, rfl⟩
  | cons c rest =>
    have hc := Bool.eq_false_iff.mp (hrest c rfl)
    rw [List.takeWhile_cons_of_neg hc, List.dropWhile_cons_of_neg hc, List.append_nil]
    exact ⟨rfl, rfl⟩

theorem head_dropWhile (p : Char → Bool) (t : Text) : ∀ c ∈ (t.dropWhile p).head?, p c = false := by
  intro c hc
  have h := List.head?_dropWhile_not p t
  rw [hc] at h
  exact h

theorem RegexRest.read (h : RegexRest inClass m) (hflags : ∀ c ∈ flags, isLetter c = true)
    (hrest : ∀ c ∈ rest.head?, isLetter c = false) :
    regexRest? inClass (m ++ (flags ++ rest)) = some (m ++ flags, rest) := by
  induction h with
  | close =>
    obtain ⟨htake, hdrop⟩ := takeWhile_append_of_head hflags hrest
    rw [List.singleton_append, regexRest?_cons (by decide), if_neg (by decide),
      if_pos ⟨rfl, rfl⟩, htake, hdrop]
    rfl
  | escape c _ ih =>
    rw [List.cons_append, List.cons_append, regexRest?, ih]
    rfl
  | opens _ ih =>
    rw [List.cons_append, regexRest?_cons (by decide), if_neg (by decide),
      if_neg fun h => absurd h.1 (by decide), if_pos rfl, ih]
    rfl
  | shuts _ ih =>
    rw [List.cons_append, regexRest?_cons (by decide), if_neg (by decide),
      if_neg fun h => absurd h.1 (by decide), if_neg (by decide), if_pos rfl, ih]
    rfl
  | plain hescape hline hopen hshut hslash _ ih =>
    have hopenSlash : ¬ (_ = '/' ∧ _ = false) := fun h => nomatch (hslash h.1).symm.trans h.2
    rw [List.cons_append, regexRest?_cons hescape, if_neg hline, if_neg hopenSlash, if_neg hopen,
      if_neg hshut, ih]
    rfl

theorem regexRest_of_read (h : regexRest? inClass t = some (w, rest)) : ∃ m flags, w = m ++ flags ∧
    t = w ++ rest ∧ RegexRest inClass m ∧ (∀ c ∈ flags, isLetter c = true) ∧
      ∀ c ∈ rest.head?, isLetter c = false := by
  induction hn : t.length using Nat.strongRecOn generalizing inClass t w with
  | _ n ih =>
    cases t with
    | nil => exact nomatch h
    | cons c t =>
      by_cases hescape : c = '\\'
      · subst hescape
        cases t with
        | nil => exact nomatch h
        | cons d t =>
          rw [regexRest?] at h
          obtain ⟨⟨w, r⟩, hread, e⟩ := Option.map_eq_some_iff.mp h
          cases e
          obtain ⟨m, flags, rfl, rfl, hm, hends⟩ := ih t.length
            (by rw [← hn, List.length_cons, List.length_cons]; omega) hread rfl
          exact ⟨'\\' :: d :: m, flags, rfl, rfl, .escape d hm, hends⟩
      · rw [regexRest?_cons hescape] at h
        split at h
        · exact nomatch h
        · rename_i hline
          split at h
          · rename_i hslash
            obtain ⟨rfl, rfl⟩ := hslash
            cases h
            refine ⟨['/'], t.takeWhile isLetter, rfl, ?_, .close,
              List.all_eq_true.mp List.all_takeWhile, head_dropWhile isLetter t⟩
            rw [List.cons_append, List.takeWhile_append_dropWhile]
          · rename_i hslash
            obtain ⟨⟨w, r⟩, hread, e⟩ := Option.map_eq_some_iff.mp h
            cases e
            obtain ⟨m, flags, rfl, rfl, hm, hends⟩ := ih t.length
              (by rw [← hn]; exact Nat.lt_succ_self _) hread rfl
            refine ⟨c :: m, flags, rfl, rfl, ?_, hends⟩
            split at hm
            · rename_i hopen
              subst hopen
              exact .opens hm
            · rename_i hopen
              split at hm
              · rename_i hshut
                subst hshut
                exact .shuts hm
              · rename_i hshut
                exact .plain hescape hline hopen hshut
                  (fun hc => Bool.of_not_eq_false fun hin => hslash ⟨hc, hin⟩) hm

/-- **A regular expression ends with the first slash outside a class, and its flags are all the letters
behind it.** -/
theorem regexRest?_eq_some_iff : regexRest? inClass t = some (w, rest) ↔ ∃ m flags, w = m ++ flags ∧
    t = w ++ rest ∧ RegexRest inClass m ∧ (∀ c ∈ flags, isLetter c = true) ∧
      ∀ c ∈ rest.head?, isLetter c = false := by
  refine ⟨regexRest_of_read, ?_⟩
  rintro ⟨m, flags, rfl, rfl, hm, hflags, hrest⟩
  rw [List.append_assoc]
  exact hm.read hflags hrest

end

/-! ## template literals -/

/-- what is open -/
inductive Nest where
  | template
  /-- an expression in a template literal, or a block in one -/
  | expression

/-- the rest of a template literal behind its opening mark, or of an expression behind its opening
brace, through the closing one -/
inductive NestRest : Nest → Text → Prop
  | endTemplate : NestRest .template ['\x60']
  | escape {m : Text} (c : Char) (h : NestRest .template m) : NestRest .template ('\\' :: c :: m)
  | substitution {m m' : Text} (h : NestRest .expression m) (rest : NestRest .template m') :
      NestRest .template ('$' :: '{' :: (m ++ m'))
  | letter {c : Char} {m : Text} (hescape : c ≠ '\\') (hmark : c ≠ '\x60')
      (hdollar : c = '$' → m.head? ≠ some '{') (h : NestRest .template m) :
      NestRest .template (c :: m)
  | endExpression : NestRest .expression ['}']
  | braces {m m' : Text} (h : NestRest .expression m) (rest : NestRest .expression m') :
      NestRest .expression ('{' :: (m ++ m'))
  | string {quote : Char} {m m' : Text} (hquote : quote = '"' ∨ quote = '\'')
      (h : StringRest quote m) (rest : NestRest .expression m') :
      NestRest .expression (quote :: (m ++ m'))
  | template {m m' : Text} (h : NestRest .template m) (rest : NestRest .expression m') :
      NestRest .expression ('\x60' :: (m ++ m'))
  | plain {c : Char} {m : Text} (hopen : c ≠ '{') (hclose : c ≠ '}')
      (hquote : ¬ (c = '"' ∨ c = '\'')) (hmark : c ≠ '\x60') (h : NestRest .expression m) :
      NestRest .expression (c :: m)

theorem NestRest.ne_nil {n : Nest} {m : Text} (h : NestRest n m) : m ≠ [] := by
  cases h <;> exact List.cons_ne_nil _ _

section
variable {start r : Text} {outer : List Frame} {c quote : Char}

/-- a character of a template literal that is neither escaped nor begins an expression -/
theorem behindTemplate_letter (hescape : c ≠ '\\') (hdollar : c = '$' → r.head? ≠ some '{') :
    behindTemplate (.template start :: outer) (c :: r) =
      if c = '\x60' then behindTemplate outer r
      else behindTemplate (.template start :: outer) r := by
  rw [behindTemplate.eq_def]
  dsimp only
  rw [if_neg hescape]
  split
  · rfl
  · split
    · rename_i hc
      split
      · exact absurd rfl (hdollar hc)
      · rfl
    · rfl

/-- a character of a string in an expression, not escaped -/
theorem behindTemplate_string (hescape : c ≠ '\\') :
    behindTemplate (.string quote start :: outer) (c :: r) =
      if c = '\n' then .error ⟨.stringLiteral, start⟩
      else if c = quote then behindTemplate outer r
      else behindTemplate (.string quote start :: outer) r := by
  rw [behindTemplate.eq_def]
  dsimp only
  rw [if_neg hescape]

theorem StringRest.behind {m : Text} (hquote : IsQuoteMark quote) (h : StringRest quote m)
    (rest : Text) : behindTemplate (.string quote start :: outer) (m ++ rest) =
      behindTemplate outer rest := by
  induction h with
  | close =>
    rw [List.singleton_append, behindTemplate_string hquote.escape, if_neg hquote.line, if_pos rfl]
  | escape c _ ih => rw [List.cons_append, List.cons_append, behindTemplate, if_pos rfl, ih]
  | plain hescape hline hne _ ih =>
    rw [List.cons_append, behindTemplate_string hescape, if_neg hline, if_neg hne, ih]

end

/-- what the reader has open for a nest; the braces that are open are counted -/
def Nest.opens (depth : Nat) (start : Text) : Nest → Frame
  | .template => .template start
  | .expression => .substitution depth start

/-- what is open when the rest of a nest has been read -/
def Nest.leaves (depth : Nat) (start : Text) (outer : List Frame) : Nest → List Frame
  | .template => outer
  | .expression => if depth ≤ 1 then outer else .substitution (depth - 1) start :: outer

theorem NestRest.behind {n : Nest} {m : Text} (h : NestRest n m) {depth : Nat} (hdepth : 1 ≤ depth)
    (start : Text) (outer : List Frame) (rest : Text) :
    behindTemplate (n.opens depth start :: outer) (m ++ rest) =
      behindTemplate (n.leaves depth start outer) rest := by
  induction h generalizing depth start outer rest with
  | endTemplate =>
    rw [List.singleton_append, Nest.opens, behindTemplate_letter (by decide)
      (fun h => absurd h (by decide)), if_pos rfl]
    rfl
  | escape c _ ih =>
    rw [List.cons_append, List.cons_append, Nest.opens, behindTemplate, if_pos rfl]
    exact ih hdepth start outer rest
  | @substitution m m' _ _ ih ih' =>
    rw [List.cons_append, List.cons_append, List.append_assoc, Nest.opens, behindTemplate,
      if_neg (by decide), if_neg (by decide), if_pos rfl]
    exact (ih (Nat.le_refl 1) (m ++ (m' ++ rest)) (.template start :: outer) (m' ++ rest)).trans
      (ih' hdepth start outer rest)
  | @letter c m hescape hmark hdollar hm ih =>
    have hnext : c = '$' → (m ++ rest).head? ≠ some '{' := by
      obtain ⟨d, m, rfl⟩ := List.exists_cons_of_ne_nil hm.ne_nil
      exact hdollar
    rw [List.cons_append, Nest.opens, behindTemplate_letter hescape hnext, if_neg hmark]
    exact ih hdepth start outer rest
  | endExpression =>
    rw [List.singleton_append, Nest.opens, behindTemplate, if_neg (by decide), if_pos rfl, Nest.leaves]
    split
    · rfl
    · rfl
  | @braces m m' _ _ ih ih' =>
    rw [List.cons_append, List.append_assoc, Nest.opens, behindTemplate, if_pos rfl]
    have hinner := ih (Nat.le_succ_of_le hdepth) start outer (m' ++ rest)
    rw [Nest.leaves, if_neg (by omega), Nat.succ_sub_one] at hinner
    exact hinner.trans (ih' hdepth start outer rest)
  | @string quote m m' hquote hm _ ih =>
    have hmark : IsQuoteMark quote ∧ quote ≠ '{' ∧ quote ≠ '}' := by
      rcases hquote with rfl | rfl
      · exact ⟨⟨by decide, by decide⟩, by decide, by decide⟩
      · exact ⟨⟨by decide, by decide⟩, by decide, by decide⟩
    rw [List.cons_append, List.append_assoc, Nest.opens, behindTemplate, if_neg hmark.2.1,
      if_neg hmark.2.2, if_pos hquote, hm.behind hmark.1]
    exact ih hdepth start outer rest
  | @template m m' _ _ ih ih' =>
    rw [List.cons_append, List.append_assoc, Nest.opens, behindTemplate, if_neg (by decide),
      if_neg (by decide), if_neg (by decide), if_pos rfl]
    exact (ih hdepth ('\x60' :: (m ++ (m' ++ rest))) (.substitution depth start :: outer)
      (m' ++ rest)).trans (ih' hdepth start outer rest)
  | plain hopen hclose hquote hmark _ ih =>
    rw [List.cons_append, Nest.opens, behindTemplate, if_neg hopen, if_neg hclose, if_neg hquote,
      if_neg hmark]
    exact ih hdepth start outer rest

/-- the rest of an expression with some braces open in it -/
def BracesRest : Nat → Text → Prop
  | 0, m => NestRest .expression m
  | depth + 1, m => ∃ a b, m = a ++ b ∧ NestRest .expression a ∧ BracesRest depth b

/-- the rest of what is open -/
def Frame.Rest : Frame → Text → Prop
  | .template _, m => NestRest .template m
  | .substitution depth _, m => 1 ≤ depth → BracesRest (depth - 1) m
  | .string quote _, m => StringRest quote m

/-- the rest of all that is open, the innermost first -/
def FramesRest : List Frame → Text → Prop
  | [], m => m = []
  | f :: outer, m => ∃ a b, m = a ++ b ∧ f.Rest a ∧ FramesRest outer b

section
variable {m rest : Text} {depth : Nat} {outer : List Frame}

/-- what may stand in front of the rest of an expression may stand there when braces are open too -/
theorem BracesRest.behind (front : Text)
    (hfront : ∀ a, NestRest .expression a → NestRest .expression (front ++ a))
    (h : BracesRest depth m) : BracesRest depth (front ++ m) := by
  cases depth with
  | zero => exact hfront m h
  | succ depth =>
    obtain ⟨a, b, rfl, ha, hb⟩ := h
    exact ⟨front ++ a, b, (List.append_assoc _ _ _).symm, hfront a ha, hb⟩

theorem framesRest_substitution (front : Text) {start : Text}
    (hfront : ∀ a, NestRest .expression a → NestRest .expression (front ++ a))
    (h : FramesRest (.substitution depth start :: outer) m) :
    FramesRest (.substitution depth start :: outer) (front ++ m) := by
  obtain ⟨a, b, rfl, ha, hb⟩ := h
  exact ⟨front ++ a, b, (List.append_assoc _ _ _).symm, fun hdepth => (ha hdepth).behind front hfront, hb⟩

theorem framesRest_template (front : Text) {start start' : Text}
    (hfront : ∀ a, a <+: m → NestRest .template a → NestRest .template (front ++ a))
    (h : FramesRest (.template start :: outer) m) :
    FramesRest (.template start' :: outer) (front ++ m) := by
  obtain ⟨a, b, rfl, ha, hb⟩ := h
  exact ⟨front ++ a, b, (List.append_assoc _ _ _).symm,
    hfront a (List.prefix_append a b) ha, hb⟩

/-- what closes all that is open is taken away from the text -/
theorem framesRest_of_behind {frames : List Frame} {t : Text}
    (h : behindTemplate frames t = .ok rest) : ∃ m, t = m ++ rest ∧ FramesRest frames m := by
  fun_induction behindTemplate frames t with
  | case1 t =>
    cases h
    exact ⟨[], rfl, rfl⟩
  | case2 => exact nomatch h
  -- in a template literal
  | case3 => exact nomatch h
  | case4 start outer c r ih =>
    obtain ⟨m, rfl, hm⟩ := ih h
    exact ⟨'\\' :: c :: m, rfl, framesRest_template ['\\', c] (fun _ _ => .escape c) hm⟩
  | case5 start outer r _ ih =>
    obtain ⟨m, rfl, hm⟩ := ih h
    exact ⟨'\x60' :: m, rfl, ['\x60'], m, rfl, .endTemplate, hm⟩
  | case6 start outer r _ _ ih =>
    obtain ⟨m, rfl, a, b, rfl, ha, hb⟩ := ih h
    exact ⟨'$' :: '{' :: (a ++ b), rfl, framesRest_template ('$' :: '{' :: a)
      (fun _ _ => .substitution (ha (Nat.le_refl 1))) hb⟩
  | case7 start outer r hbrace hescape hmark ih =>
    obtain ⟨m, rfl, hm⟩ := ih h
    refine ⟨'$' :: m, rfl, framesRest_template ['$'] (fun a ha => ?_) hm⟩
    refine .letter hescape hmark fun _ hhead => ?_
    obtain ⟨a, rfl⟩ := List.head?_eq_some_iff.mp hhead
    obtain ⟨b, rfl⟩ := ha
    exact hbrace _ rfl
  | case8 start outer c r hescape hmark hdollar ih =>
    obtain ⟨m, rfl, hm⟩ := ih h
    exact ⟨c :: m, rfl, framesRest_template [c]
      (fun _ _ => .letter hescape hmark (absurd · hdollar)) hm⟩
  -- in an expression
  | case9 depth start outer r ih =>
    obtain ⟨m, rfl, a, b, rfl, ha, hb⟩ := ih h
    refine ⟨'{' :: (a ++ b), rfl, '{' :: a, b, rfl, fun hdepth => ?_, hb⟩
    obtain ⟨depth, rfl⟩ := Nat.exists_eq_add_of_le' hdepth
    obtain ⟨a, a', rfl, hinner, hrest⟩ := ha (Nat.le_add_left 1 _)
    exact BracesRest.behind ('{' :: a) (fun _ => .braces hinner) hrest
  | case10 depth start outer r hdepth _ ih =>
    obtain ⟨m, rfl, hm⟩ := ih h
    refine ⟨'}' :: m, rfl, ['}'], m, rfl, fun hone => ?_, hm⟩
    obtain rfl := Nat.le_antisymm hdepth hone
    exact .endExpression
  | case11 depth start outer r hdepth _ ih =>
    obtain ⟨m, rfl, a, b, rfl, ha, hb⟩ := ih h
    refine ⟨'}' :: (a ++ b), rfl, '}' :: a, b, rfl, fun _ => ?_, hb⟩
    obtain ⟨depth, rfl⟩ := Nat.exists_eq_add_of_le' (Nat.lt_of_not_le hdepth)
    have hrest : BracesRest depth a := ha (Nat.le_add_left 1 depth)
    exact ⟨['}'], a, rfl, .endExpression, hrest⟩
  | case12 depth start outer c r _ _ hquote ih =>
    obtain ⟨m, rfl, a, b, rfl, ha, hb⟩ := ih h
    exact ⟨c :: (a ++ b), rfl, framesRest_substitution (c :: a)
      (fun _ => .string hquote ha) hb⟩
  | case13 depth start outer r _ _ _ ih =>
    obtain ⟨m, rfl, a, b, rfl, ha, hb⟩ := ih h
    exact ⟨'\x60' :: (a ++ b), rfl, framesRest_substitution ('\x60' :: a)
      (fun _ => .template ha) hb⟩
  | case14 depth start outer c r hopen hclose hquote hmark ih =>
    obtain ⟨m, rfl, hm⟩ := ih h
    exact ⟨c :: m, rfl, framesRest_substitution [c]
      (fun _ => .plain hopen hclose hquote hmark) hm⟩
  -- in a string of an expression
  | case15 => exact nomatch h
  | case16 quote start outer c r ih =>
    obtain ⟨m, rfl, a, b, rfl, ha, hb⟩ := ih h
    exact ⟨'\\' :: c :: (a ++ b), rfl, '\\' :: c :: a, b, rfl, .escape c ha, hb⟩
  | case17 => exact nomatch h
  | case18 start outer c r _ _ ih =>
    obtain ⟨m, rfl, hm⟩ := ih h
    exact ⟨c :: m, rfl, [c], m, rfl, .close, hm⟩
  | case19 quote start outer c r hescape hline hne ih =>
    obtain ⟨m, rfl, a, b, rfl, ha, hb⟩ := ih h
    exact ⟨c :: (a ++ b), rfl, c :: a, b, rfl, .plain hescape hline hne ha, hb⟩

/-- **A template literal ends with the first mark outside its expressions.** -/
theorem behindTemplate_eq_ok_iff {start t : Text} : behindTemplate [.template start] t = .ok rest ↔
    ∃ m, t = m ++ rest ∧ NestRest .template m := by
  constructor
  · intro h
    obtain ⟨m, rfl, a, b, rfl, ha, rfl⟩ := framesRest_of_behind h
    exact ⟨_, rfl, (List.append_nil a).symm ▸ ha⟩
  · rintro ⟨m, rfl, h⟩
    rw [show Frame.template start = Nest.opens 1 start .template from rfl,
      h.behind (Nat.le_refl 1) start [] rest, Nest.leaves, behindTemplate]

end
end SiteBundle
